import GlideBridge.Proofs.Chains
import GlideBridge.Proofs.RecordAccess
import GlideBridge.Proofs.StatementLines

/-! What each rule does to the number of calls of a name that no rule converts. Most rules are
plain: what they take and what they write lets no call through but in the fields. The others are
a rule without fields that takes one of several words, the rule for alerts, the rules that take a
word behind a name, and those for form calls that write a word, which would complete a call that
has been begun in front of them. -/

namespace GlideBridge

open Text Pieces CallSpace

/-- A name that no rule converts. -/
structure CallSpace.IsUnknown (s : CallSpace) (name : Text) : Prop where
  isName : IsName name
  unknown : name ∉ s.catalogNames.flatten
  not_alert : ¬ alertWord <:+ name

namespace Catalog

variable {s : CallSpace} {name t : Text}

theorem logRule_countsFields (hn : IsName name) (hskip : s.Skips name logRule) (t : Text) :
    logRule.CountsFields (s.callText name) t := by
  intro h t' _ hm
  have hfalse := hskip h t' hm
  obtain ⟨u, g, -, hg, rfl⟩ := matchPieces_literal_eq_some_iff.1 hm
  obtain ⟨w, hw, u₁, g₁, -, hg₁, rfl⟩ := exists_of_matchPieces_oneOf hg
  obtain ⟨run, u₂, g₂, -, hrun, hg₂, rfl⟩ := exists_of_matchPieces_many hg₁
  obtain ⟨u₃, g₃, -, hg₃, rfl⟩ := matchPieces_literal_eq_some_iff.1 hg₂
  cases hg₃
  have hopening : logRule.pattern.opening = ['g', 's', '.'] := String.toList_ofList
  have hparen : ("(" : Text) = ['('] := String.toList_ofList
  simp only [Hit.after, hopening, hparen, List.append_nil, List.append_assoc, List.cons_append,
    List.nil_append] at hfalse ⊢
  have hdot : '.' ∉ w ++ run := by
    have hwords : ∀ w ∈ (["log".toList, "info".toList, "error".toList] : List Text), '.' ∉ w := by
      decide
    rw [List.mem_append, not_or]
    exact ⟨hwords w hw, fun hm => absurd (hrun '.' hm) (by decide)⟩
  have hsilent : silent s.steps ['s', '.'] = true := by cases s <;> decide
  have hrest := ((refines hn).sites_silent_append hsilent ((w ++ run) ++ '(' :: t')).trans
    (occurrences_append_open hn hdot t')
  rw [Text.occurrences] at hrest ⊢
  rw [sites, hfalse]
  simpa [Hit.occurrences] using hrest

theorem isPrefixOf_append_alert (hn : s.IsUnknown name) {a : Text} {h : Hit} (hne : a ≠ [])
    (hm : matchPieces alertRule.pattern.steps (h.taken ++ t) = some h) :
    (s.callText name).isPrefixOf (a ++ (h.taken ++ t)) = (s.callText name).isPrefixOf a := by
  have hinterrupts : s.interrupts alertWord = true := by cases s <;> decide
  obtain ⟨u₁, g₁, -, hg₁, rfl⟩ := matchPieces_literal_eq_some_iff.1 hm
  obtain ⟨run, u₂, g₂, -, hrun, hg₂, rfl⟩ := exists_of_matchPieces_many hg₁
  obtain ⟨u₃, g₃, -, -, rfl⟩ := matchPieces_literal_eq_some_iff.1 hg₂
  have hparen : ("(" : Text) = ['('] := String.toList_ofList
  simp only [Hit.after_taken, alertRule_opening, hparen, List.append_assoc, List.singleton_append]
  refine isPrefixOf_append_of_split (fun o ho hon => ?_) fun n₁ n₂ hname _ hp => hn.not_alert ?_
  · exact not_isPrefix_of_interrupts hinterrupts hne ho hon
  · have hletter : ∀ c ∈ n₂, c.isAlpha = true := fun c hc =>
      hn.isName.2 c (hname ▸ List.mem_append_right n₁ hc)
    have hopen : '(' ∉ alertWord ++ run := by
      rw [List.mem_append, not_or]
      exact ⟨by decide, fun hm => absurd (hrun _ hm) (by decide)⟩
    obtain ⟨y, hy⟩ := hp
    -- both stand in front of the first parenthesis
    have heq : n₂ = alertWord ++ run := by
      refine eq_of_append_cons (d := '(') (x := y) (y := g₃.taken ++ t)
        (fun hm => absurd (hletter _ hm) (by decide)) hopen ?_
      simpa using hy
    have hblank : run = [] := by
      refine List.eq_nil_iff_forall_not_mem.2 fun c hc => ?_
      have := isBlank_of_mem_name hn.isName
        (hname ▸ List.mem_append_right n₁ (heq ▸ List.mem_append_right _ hc))
      rw [show isBlank c = true from hrun c hc] at this
      cases this
    rw [hname, heq, hblank, List.append_nil]
    exact List.suffix_append n₁ alertWord

theorem isPrefixOf_append_declaration (hn : IsName name) {a : Text} {h : Hit}
    (hm : matchPieces declarationRule.pattern.steps (h.taken ++ t) = some h) :
    (s.callText name).isPrefixOf (a ++ (h.taken ++ t)) = (s.callText name).isPrefixOf a := by
  obtain ⟨u₁, g₁, -, hg₁, rfl⟩ := matchPieces_literal_eq_some_iff.1 hm
  obtain ⟨c, u₂, g₂, -, hc, -, rfl⟩ := matchPieces_one_eq_some_iff.1 hg₁
  simp only [Hit.after_taken, declarationRule_opening, List.append_assoc, List.singleton_append]
  have hpause := isPrefixOf_append_pause (s := s) hn (CharClass.isPause_has (k := .blank) rfl hc)
    (a ++ declarationWord) (g₂.taken ++ t)
  rw [List.append_assoc] at hpause
  exact hpause.trans (isPrefixOf_append_of_open_not_mem (by decide))

theorem recordRule_countsFields (hn : IsName name) (o : RecordName) (ht : Free recordChain t) :
    o.rule.CountsFields (s.callText name) t := by
  intro h t' hs hm
  rw [steps_recordRule, access] at hm
  obtain ⟨u₁, g₁, -, hg₁, rfl⟩ := matchPieces_literal_eq_some_iff.1 hm
  obtain ⟨w, u₂, g₂, -, -, hw, hg₂, rfl⟩ := exists_of_matchPieces_field hg₁
  cases hg₂
  have htaken : (Hit.after (o.word ++ ['.']) (Hit.capture w ⟨[], []⟩)).taken ++ t' =
      (o.word ++ ['.']) ++ (w ++ t') := by simp
  rw [htaken] at hs ⊢
  have hsilent : silent s.steps (o.word ++ ['.']) = true := by cases s <;> cases o <;> decide
  -- a call that goes from the word into what stands behind it would make a chain with the record
  have hw' : (s.callText name).occurrences (w ++ t') =
      (s.callText name).occurrences w + (s.callText name).occurrences t' := by
    refine sites_append fun v hv hne => ?_
    have hdot : '.' ∉ v := fun hm => absurd (hw _ (hv.subset hm)) (by decide)
    have hmem : '.' ∈ s.callText name := by cases s <;> simp [callText, opening]
    rw [Bool.eq_iff_iff, List.isPrefixOf_iff_prefix, List.isPrefixOf_iff_prefix]
    refine iff_of_false (fun hp => ?_) fun hp => hdot (hp.subset hmem)
    obtain ⟨x, rfl⟩ := hv
    obtain ⟨u, hu⟩ := (List.prefix_append _ _).trans hp
    have hread : reads recordChain ((o.word ++ ['.']) ++ ((x ++ v) ++ t')) = true := by
      refine reads_junction_iff.2 ⟨o.word ++ ['.'], ?_, x,
        fun c hc => hw c (List.mem_append_left v hc), s.opening, by cases s <;> simp, u,
        by rw [List.append_assoc x, hu]⟩
      exact List.mem_map_of_mem (f := (· ++ ['.'])) o.word_mem
    rw [free_iff.1 ht _ hs (by simp)] at hread
    cases hread
  have hfields :
      (Hit.after (o.word ++ ['.']) (Hit.capture w ⟨[], []⟩)).occurrences (s.callText name) =
      (s.callText name).occurrences w := Nat.add_zero _
  rw [hfields, ← hw']
  exact (refines hn).sites_silent_append hsilent _

theorem formRule_keepsSeam (hn : IsName name) {r : Rule} {l : Text}
    (hform : form.opening <+: r.pattern.opening) (hopening : cuts s.steps r.pattern.opening = true)
    (hl : Template.head? r.template = some l) (hinterrupts : s.interrupts l = true)
    (ht : Free formChain t) : r.KeepsSeam (s.callText name) t := by
  intro a h t' u hne hs hm
  obtain ⟨rest, hfill⟩ := Rule.exists_fill_eq hl h
  rw [isPrefixOf_append_taken hn hopening hne hm, hfill, List.append_assoc]
  refine isPrefixOf_append_of_split (fun o ho hon => ?_) fun n₁ n₂ hname ha _ => ?_
  · exact not_isPrefix_of_interrupts hinterrupts hne ho hon
  · obtain ⟨o, ho⟩ := hform
    obtain ⟨rest', htaken⟩ := Rule.exists_taken_eq hm
    have hread : reads formChain (a ++ (h.taken ++ t')) = true := by
      refine reads_junction_iff.2 ⟨s.opening, by cases s <;> simp, n₁, fun c hc => ?_, form.opening,
        List.mem_singleton_self _, o ++ (rest' ++ t'), ?_⟩
      · exact hn.2 c (hname ▸ List.mem_append_left n₂ hc)
      · rw [ha, htaken, ← ho]
        simp
    rw [free_iff.1 ht _ hs (by simp [hne])] at hread
    cases hread

theorem validRule_keepsSeam (hn : IsName name) (hname : Free nameChain t)
    (hword : Free wordChain t) :
    validRule.KeepsSeam (s.callText name) t := by
  intro a h t' u hne hs hm
  obtain ⟨rest, htaken⟩ := Rule.exists_taken_eq hm
  rw [htaken, List.append_assoc] at hs
  have hcut (x : Text) :
      (s.callText name).isPrefixOf (a ++ x) = (s.callText name).isPrefixOf a := by
    refine isPrefixOf_append_of_split (fun o ho hon _ => ?_) fun n₁ n₂ heq ha _ => ?_
    · refine not_begun hname hword (root_mem_roots s) (y := []) hne (by simp) ?_ hs
      rw [← opening_eq_root, ho]
      exact List.prefix_append a o
    · refine not_begun hname hword (root_mem_roots s) (y := n₁) hne (fun c hc => ?_) ?_ hs
      · have := hn.2 c (heq ▸ List.mem_append_left n₂ hc)
        simp [CharClass.isWord, Char.isAlphanum, this]
      · rw [ha, opening_eq_root]
        simp
  rw [hcut, hcut]

def valueRules : List Rule := (systemRules.drop 1).take 7

theorem systemRules_eq : systemRules = logRule :: (valueRules ++ [validRule]) := rfl

def spaces : List CallSpace := [.form, .system]

theorem mem_spaces (s : CallSpace) : s ∈ spaces := by cases s <;> simp [spaces]

def laterChains : List (List Piece) := [recordChain, formChain]

theorem systemRules_checks :
    (systemRules.all fun r => refuses form.steps r.pattern.opening) = true ∧
      ((logRule :: valueRules).all fun r => chains.all fun ps => Rule.spares ps r) = true ∧
      (laterChains.all fun ps => Template.isSealed ps validRule.template) = true ∧
      (spaces.all fun s => valueRules.all s.isPlain &&
        (s.writesApart logRule && cuts s.steps logRule.pattern.opening) &&
        (Template.isSealed s.steps validRule.template &&
          s.takesApart validRule.pattern)) = true := by
  decide +kernel

theorem systemRules_skip (hn : s.IsUnknown name) : ∀ r ∈ systemRules, s.Skips name r := by
  cases s with
  | system => exact skips_of_answers systemRules_answer hn.isName hn.unknown
  | form =>
    obtain ⟨hrefuse, -⟩ := systemRules_checks
    exact fun r hr => skips_of_refuses hn.isName (List.all_eq_true.1 hrefuse r hr)

theorem counts_systemRules (hn : s.IsUnknown name) (hname : Free nameChain t)
    (hword : Free wordChain t) : ∀ r ∈ systemRules, r.Counts (s.callText name) t := by
  have hskip := systemRules_skip hn
  obtain ⟨-, -, -, hspaces⟩ := systemRules_checks
  have hpass := List.all_eq_true.1 hspaces s (mem_spaces s)
  simp only [Bool.and_eq_true, List.all_eq_true] at hpass
  obtain ⟨⟨hplain, hwrites, hopening⟩, hsealed, htakes⟩ := hpass
  rw [systemRules_eq] at hskip ⊢
  simp only [List.forall_mem_cons, List.forall_mem_append] at hskip ⊢
  refine ⟨?_, fun r hr => counts_plain hn.isName (hplain r hr) (hskip.2.1 r hr) t, ?_, by simp⟩
  · exact counts_of_writesApart hn.isName rfl hwrites
      (fun a h t' => isPrefixOf_append_taken hn.isName hopening)
      (logRule_countsFields hn.isName hskip.1 t)
  · exact counts_of_keepsSeam hn.isName rfl hsealed (validRule_keepsSeam hn.isName hname hword)
      (countsFields hn.isName htakes hskip.2.2.1 t)

def recordRules : List Rule := [alertRule, currentRule, workflowRule, declarationRule]

theorem recordRules_checks :
    (recordRules.all fun r => laterChains.all fun ps => Rule.spares ps r) = true ∧
      (spaces.all fun s =>
        (recordRules.all fun r => refuses s.steps r.pattern.opening && s.writesApart r) &&
          (s.takesApart alertRule.pattern && s.takesApart declarationRule.pattern) &&
          (cuts s.steps currentRule.pattern.opening &&
            cuts s.steps workflowRule.pattern.opening)) = true := by
  decide +kernel

theorem counts_recordRules (hn : s.IsUnknown name) (ht : Free recordChain t) :
    ∀ r ∈ recordRules, r.Counts (s.callText name) t := by
  have hpass := List.all_eq_true.1 recordRules_checks.2 s (mem_spaces s)
  simp only [Bool.and_eq_true, recordRules, List.all_cons, List.all_nil] at hpass
  obtain ⟨⟨⟨⟨hra, hwa⟩, ⟨-, hwc⟩, ⟨-, hww⟩, ⟨hrd, hwd⟩, -⟩, hta, htd⟩, hoc, how⟩ := hpass
  have hrecord (o : RecordName) (hwrites : s.writesApart o.rule = true)
      (hopening : cuts s.steps o.rule.pattern.opening = true) : o.rule.Counts (s.callText name) t :=
    counts_of_writesApart hn.isName (by cases o <;> rfl) hwrites
      (fun a h t' => isPrefixOf_append_taken hn.isName hopening)
      (recordRule_countsFields hn.isName o ht)
  simp only [recordRules, List.forall_mem_cons]
  refine ⟨?_, hrecord .current hwc hoc, hrecord .workflow hww how, ?_, by simp⟩
  · exact counts_of_writesApart hn.isName rfl hwa (fun a h t' => isPrefixOf_append_alert hn)
      (countsFields hn.isName hta (skips_of_refuses hn.isName hra) t)
  · exact counts_of_writesApart hn.isName rfl hwd
      (fun a h t' _ => isPrefixOf_append_declaration hn.isName)
      (countsFields hn.isName htd (skips_of_refuses hn.isName hrd) t)

def isFormPattern (p : Pattern) : Bool :=
  form.opening.isPrefixOf p.opening && refuses system.steps p.opening && !p.lineStart &&
    spaces.all fun s => s.takesApart p && cuts s.steps p.opening

def isFormTemplate (template : Template) : Bool := spaces.all fun s =>
  Template.isSealed s.steps template && (Template.head? template).any s.interrupts

theorem formRules_checks :
    ((formRules []).map (·.pattern)).all isFormPattern = true ∧
      (fixedRules.all fun r => isFormTemplate r.template && Rule.spares formChain r) = true := by
  decide +kernel

theorem accessRules_templates (f : FormType) : ((accessRules f.identifier).all fun r =>
    isFormTemplate r.template && Rule.spares formChain r) = true := by
  cases f <;> decide +kernel

theorem formRules_spare (f : FormType) {r : Rule} (hr : r ∈ formRules f.identifier) :
    isFormTemplate r.template = true ∧ Rule.spares formChain r = true := by
  rw [formRules_eq, List.mem_append] at hr
  rw [← Bool.and_eq_true]
  exact hr.elim (List.all_eq_true.1 (accessRules_templates f) r)
    (List.all_eq_true.1 formRules_checks.2 r)

theorem counts_formRules (f : FormType) (hn : s.IsUnknown name) (ht : Free formChain t) :
    ∀ r ∈ formRules f.identifier, r.Counts (s.callText name) t := by
  intro r hr
  have hpattern : isFormPattern r.pattern = true :=
    List.all_eq_true.1 formRules_checks.1 r.pattern
      (show r.pattern ∈ (formRules f.identifier).map (·.pattern) from List.mem_map_of_mem hr)
  have htemplate := List.all_eq_true.1 (formRules_spare f hr).1 s (mem_spaces s)
  simp only [isFormPattern, Bool.and_eq_true, Bool.not_eq_true', List.all_eq_true,
    List.isPrefixOf_iff_prefix] at hpattern
  rw [Bool.and_eq_true, Option.any_eq_true] at htemplate
  obtain ⟨⟨⟨hform, hrefuse⟩, hp⟩, hpass⟩ := hpattern
  obtain ⟨hsealed, l, hl, hinterrupts⟩ := htemplate
  obtain ⟨htakes, hopening⟩ := hpass s (mem_spaces s)
  have hskip : s.Skips name r := by
    cases s with
    | system => exact skips_of_refuses hn.isName hrefuse
    | form => exact skips_of_answers (formRules_answer _) hn.isName hn.unknown r hr
  exact counts_of_keepsSeam hn.isName hp hsealed
    (formRule_keepsSeam hn.isName hform hopening hl hinterrupts ht)
    (countsFields hn.isName htakes hskip t)

end Catalog

end GlideBridge
