import GlideBridge.Proofs.CountedRules

/-! How often a call that no rule converts is in the list of calls left over. The number follows the
text through the documented rules. Four of them repeat an argument or drop one, each in what the
rules in front of it have left; all others write their arguments once. When no name runs on into
another one, no rule can cut a call in two or complete one. -/

namespace GlideBridge

open Text Pieces CallSpace

namespace CallSpace

variable {s : CallSpace} {name t : Text}

theorem count_callAt? (hn : IsName name) (t : Text) :
    (s.callAt? t).toList.count (s.opening ++ name) =
      if (s.callText name).isPrefixOf t then 1 else 0 := by
  by_cases h : s.Starts t
  · obtain ⟨name', hn', hp'⟩ := h
    have hm : matchPieces s.pattern.steps t = some ⟨s.callText name', [name']⟩ :=
      match_eq_some_iff.2 ⟨name', hn', hp', rfl⟩
    have hcall : s.callAt? t = some (s.opening ++ name') := by
      rw [callAt?, hm]
      simp [callText, ← List.append_assoc]
    have hiff : (s.callText name).isPrefixOf t = true ↔ name' = name := by
      rw [List.isPrefixOf_iff_prefix]
      exact ⟨fun hp => name_eq_of_isPrefix hn' hn hp' hp, fun h => h ▸ hp'⟩
    rw [hcall, Option.toList_some, List.count_singleton]
    simp [hiff]
  · have hfalse : (s.callText name).isPrefixOf t = false := by
      rw [← Bool.not_eq_true, List.isPrefixOf_iff_prefix]
      exact fun hp => h ⟨name, hn, hp⟩
    rw [callAt?_eq_none h, hfalse]
    rfl

theorem count_calls (hn : IsName name) (t : Text) :
    (s.calls t).count (s.opening ++ name) = (s.callText name).occurrences t := by
  induction t with
  | nil => rfl
  | cons c t ih =>
    rw [calls, List.count_append, count_callAt? hn, ih]
    rfl

theorem count_leftoverCalls (hn : IsName name) (t : Text) :
    (Catalog.leftoverCalls t).count (s.opening ++ name) = (s.callText name).occurrences t := by
  have hother {s' : CallSpace} (hs : s' ≠ s) : (s'.calls t).count (s.opening ++ name) = 0 := by
    refine List.count_eq_zero.2 fun hm => ?_
    obtain ⟨n, -, heq⟩ := exists_name_of_mem_calls hm
    cases s <;> cases s' <;> first | exact hs rfl | simp [opening] at heq
  rw [leftoverCalls_eq, List.count_append]
  cases s with
  | form => rw [count_calls hn, hother (by decide), Nat.add_zero]
  | system => rw [count_calls hn, hother (by decide), Nat.zero_add]

end CallSpace

namespace Catalog

variable {s : CallSpace} {name t : Text}

theorem validRule_free (hname : Free nameChain t) (hword : Free wordChain t)
    (ht : ∀ ps ∈ laterChains, Free ps t) : ∀ ps ∈ laterChains, Free ps (validRule.apply t) := by
  have hspaces : ∀ i ∈ [form.opening, system.opening], ∃ s : CallSpace, i = s.opening := by simp
  have hseam : ∀ ps ∈ laterChains, validRule.SparesSeam ps t := by
    refine List.forall_mem_cons.2 ⟨?_, List.forall_mem_singleton.2 ?_⟩
    · refine validRule_sparesSeam (fun o ho => ?_) (fun c hc => hc) hspaces hname hword
      rcases List.mem_cons.1 ho with rfl | ho
      · exact ⟨currentWord, by simp [roots], rfl⟩
      · exact ⟨workflowWord, by simp [roots], List.mem_singleton.1 ho⟩
    · refine validRule_sparesSeam (fun o ho => ?_) (fun c hc => ?_) (by simp) hname hword
      · obtain ⟨s, rfl⟩ := hspaces o ho
        exact ⟨s.root, root_mem_roots s, opening_eq_root s⟩
      · simp [CharClass.isWord, Char.isAlphanum, show c.isAlpha = true from hc]
  exact fun ps hps => Rule.free_apply_of_sparesSeam rfl
    (List.all_eq_true.1 systemRules_checks.2.2.1 ps hps) (hseam ps hps) (ht ps hps)

theorem runCounts_systemRules (hn : s.IsUnknown name) (ht : Unchained t) :
    Rule.RunCounts (s.callText name) systemRules t ∧
      ∀ ps ∈ laterChains, Free ps (Rule.run systemRules t) := by
  have hname : nameChain ∈ chains := by simp [chains]
  have hword : wordChain ∈ chains := by simp [chains]
  have hlater : laterChains ⊆ chains := by simp [laterChains, chains]
  have hsplit : systemRules = (logRule :: valueRules) ++ [validRule] := systemRules_eq
  have hkeep : ∀ r ∈ logRule :: valueRules, ∀ t, (∀ ps ∈ chains, Free ps t) →
      ∀ ps ∈ chains, Free ps (r.apply t) := fun r hr t ht ps hps =>
    Rule.free_apply
      (List.all_eq_true.1 (List.all_eq_true.1 systemRules_checks.2.1 r hr) ps hps) (ht ps hps)
  have hcount : ∀ r ∈ systemRules, ∀ t, (∀ ps ∈ chains, Free ps t) →
      r.Counts (s.callText name) t := fun r hr t ht =>
    counts_systemRules hn (ht _ hname) (ht _ hword) r hr
  rw [hsplit] at hcount ⊢
  rw [List.forall_mem_append, List.forall_mem_singleton] at hcount
  obtain ⟨hfirst, hfree⟩ := Rule.runCounts_of_invariant hkeep hcount.1 fun ps hps => ht.free hps
  refine ⟨hfirst.append (Rule.runCounts_singleton (hcount.2 _ hfree)), ?_⟩
  rw [Rule.run_append, Rule.run_singleton]
  exact validRule_free (hfree _ hname) (hfree _ hword) fun ps hps => hfree ps (hlater hps)

theorem runCounts_documented (f : FormType) (hn : s.IsUnknown name) (ht : Unchained t) :
    Rule.RunCounts (s.callText name) ((documented f.identifier).flatMap (·.rules)) t := by
  have hrecord : recordChain ∈ laterChains := by simp [laterChains]
  have hform : formChain ∈ laterChains := by simp [laterChains]
  have hkeep : ∀ r ∈ recordRules, ∀ t, (∀ ps ∈ laterChains, Free ps t) →
      ∀ ps ∈ laterChains, Free ps (r.apply t) := fun r hr t ht ps hps =>
    Rule.free_apply
      (List.all_eq_true.1 (List.all_eq_true.1 recordRules_checks.1 r hr) ps hps) (ht ps hps)
  obtain ⟨hsystem, hfree⟩ := runCounts_systemRules hn ht
  obtain ⟨hrecords, hfree⟩ := Rule.runCounts_of_invariant hkeep
    (fun r hr t ht => counts_recordRules hn (ht _ hrecord) r hr) hfree
  obtain ⟨hforms, -⟩ := Rule.runCounts_of_invariant
    (fun r hr t => Rule.free_apply (formRules_spare f hr).2)
    (fun r hr t ht => counts_formRules f hn ht r hr) (hfree _ hform)
  rw [documented_eq]
  exact hsystem.append (hrecords.append hforms)

theorem runSurplus_of_harmless {rs : List Rule} (hrs : rs.all isHarmless = true) (w : Text)
    (ht : ∀ c ∈ reshapingCalls, ¬ c <:+: t) : Rule.runSurplus w rs t = 0 := by
  induction rs generalizing t with
  | nil => rfl
  | cons r rs ih =>
    rw [List.all_cons, Bool.and_eq_true] at hrs
    rw [Rule.runSurplus, ih hrs.2 (apply_harmless hrs.1 ht).1, add_zero]
    have hr := hrs.1
    simp only [isHarmless, Bool.and_eq_true, Bool.not_eq_true', Bool.or_eq_true,
      List.contains_iff_mem] at hr
    obtain ⟨hp, ho | ⟨hc, -⟩⟩ := hr
    · rw [Rule.surplus, Rule.hits_eq_nil_of_not_isInfix hp (ht _ ho)]
      rfl
    · exact Rule.surplus_of_conserves hc w t

theorem restRules_conserve : (fixedRules.drop 5).all Rule.conserves = true := by
  have hall := lateRules_conserve
  rw [lateRules, List.all_append, Bool.and_eq_true] at hall
  exact hall.1

theorem runSurplus_without_reshaping (f : FormType) (w : Text)
    (ht : ∀ c ∈ reshapingCalls, ¬ c <:+: t) :
    Rule.runSurplus w ((documented f.identifier).flatMap (·.rules)) t = 0 := by
  have hsplit : (documented f.identifier).flatMap (·.rules) =
      (earlyRules ++ accessRules f.identifier ++ modeRules) ++ fixedRules.drop 5 := rfl
  rw [hsplit, Rule.runSurplus_append, runSurplus_of_harmless (frontRules_harmless f) w ht,
    Rule.runSurplus_of_conserve restRules_conserve, add_zero]

/-- The documented rules in front of the one for the same calls. -/
def rulesBefore (form : Text) (r : Rule) : List Rule :=
  ((documented form).flatMap (·.rules)).takeWhile (·.pattern.opening != r.pattern.opening)

/-- How often `w` stands in an argument of the calls that the rule converts, in what the
rules in front of it have left of the script. -/
def inArgument (form w : Text) (r : Rule) (i : ℕ) (script : Text) : ℕ :=
  r.inField w i (Rule.run (rulesBefore form r) script)

def gapRules (form : Text) : List Rule := recordRules ++ (accessRules form).take 4

theorem documented_rules_split (form : Text) : (documented form).flatMap (·.rules) =
    systemRules.take 7 ++ nilRule :: validRule :: (gapRules form ++ readOnlyRule form ::
      (fixedRules.take 4 ++ displayRule :: fixedRules.drop 5)) := rfl

theorem conserve_of_harmless {rs : List Rule} (hrs : rs.all isHarmless = true)
    (ho : (rs.all fun r => !reshapingCalls.contains r.pattern.opening) = true) :
    rs.all Rule.conserves = true := by
  refine List.all_eq_true.2 fun r hr => ?_
  have hharmless := List.all_eq_true.1 hrs r hr
  have hopening := List.all_eq_true.1 ho r hr
  simp only [Bool.not_eq_true'] at hopening
  simp only [isHarmless, hopening, Bool.false_or, Bool.and_eq_true] at hharmless
  exact hharmless.2.1

theorem plainRules_conserve (f : FormType) : (systemRules.take 7).all Rule.conserves = true ∧
    (gapRules f.identifier).all Rule.conserves = true ∧
      (fixedRules.take 4).all Rule.conserves = true := by
  have hsplit : earlyRules ++ accessRules f.identifier ++ modeRules =
      systemRules.take 7 ++ nilRule :: validRule :: (gapRules f.identifier ++
        readOnlyRule f.identifier :: (fixedRules.take 4 ++ [displayRule])) := rfl
  have hharmless := frontRules_harmless f
  simp only [hsplit, List.all_append, List.all_cons, Bool.and_eq_true] at hharmless
  obtain ⟨hsystem, -, -, hgap, -, hfixed, -⟩ := hharmless
  exact ⟨conserve_of_harmless hsystem rfl, conserve_of_harmless hgap rfl,
    conserve_of_harmless hfixed rfl⟩

theorem rulesBefore_eq (form : Text) : rulesBefore form nilRule = systemRules.take 7 ∧
    rulesBefore form validRule = systemRules.take 7 ++ [nilRule] ∧
      rulesBefore form (readOnlyRule form) =
        systemRules.take 7 ++ nilRule :: validRule :: gapRules form ∧
      rulesBefore form displayRule = systemRules.take 7 ++ nilRule :: validRule ::
        (gapRules form ++ readOnlyRule form :: fixedRules.take 4) := ⟨rfl, rfl, rfl, rfl⟩

theorem reshapingRules_write (form : Text) : nilRule.writes 0 4 = true ∧
    validRule.writes 0 4 = true ∧ (readOnlyRule form).writes 1 0 = true ∧
      displayRule.writes 1 3 = true := ⟨rfl, rfl, rfl, rfl⟩

theorem runSurplus_documented (f : FormType) (w t : Text) :
    Rule.runSurplus w ((documented f.identifier).flatMap (·.rules)) t =
      3 * inArgument f.identifier w nilRule 0 t + 3 * inArgument f.identifier w validRule 0 t +
        2 * inArgument f.identifier w displayRule 1 t -
          inArgument f.identifier w (readOnlyRule f.identifier) 1 t := by
  obtain ⟨hsystem, hgap, hfixed⟩ := plainRules_conserve f
  obtain ⟨hnil, hvalid, hreadOnly, hdisplay⟩ := rulesBefore_eq f.identifier
  obtain ⟨hnil', hvalid', hreadOnly', hdisplay'⟩ := reshapingRules_write f.identifier
  rw [documented_rules_split, Rule.runSurplus_append_of_conserve hsystem, Rule.runSurplus,
    Rule.surplus_of_writes hnil', Rule.runSurplus, Rule.surplus_of_writes hvalid',
    Rule.runSurplus_append_of_conserve hgap, Rule.runSurplus, Rule.surplus_of_writes hreadOnly',
    Rule.runSurplus_append_of_conserve hfixed, Rule.runSurplus, Rule.surplus_of_writes hdisplay',
    Rule.runSurplus_of_conserve restRules_conserve]
  rw [inArgument, inArgument, inArgument, inArgument, hnil, hvalid, hreadOnly, hdisplay,
    Rule.run_append _ [nilRule], Rule.run_singleton, Rule.run_append, Rule.run_cons, Rule.run_cons,
    Rule.run_append, Rule.run_cons, Rule.run_append, Rule.run_cons, Rule.run_cons]
  push_cast
  ring

end Catalog

theorem Conversion.documented_eq_runAll (form source : Text) : documented form source =
    Rule.run ((Catalog.documented form).flatMap (·.rules)) (Handler.unwrap source) :=
  Catalog.applyAll_eq_run _ _

theorem Conversion.count_leftovers (o : Options) (source : Text) {s : CallSpace} {name : Text}
    (hn : IsName name) : (convert o source).leftovers.count (s.opening ++ name) =
      (s.callText name).occurrences
        (Rule.run ((Catalog.documented o.form).flatMap (·.rules)) (Handler.unwrap source)) := by
  rw [leftovers_eq, count_leftoverCalls hn, documented_eq_runAll]

end GlideBridge
