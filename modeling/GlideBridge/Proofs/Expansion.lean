import GlideBridge.Proofs.Distinct
import GlideBridge.Proofs.Passing

/-! What the rules for system calls make of conditions. No rule in front of the two for the checks
has a hit in a condition, and each of these two expands its check wherever it stands and leaves
everything else as it is. So a condition comes out with its checks written out, whatever operators
stand around them. -/

namespace GlideBridge.Script

open Text Catalog Pieces

namespace Check

def rule : Check → Rule
  | nil => nilRule
  | valid => validRule

def written (done : List Check) (k : Check) (w : Variable) : Text :=
  if k ∈ done then k.expansion w else k.source w

end Check

section Rules

variable {r : Rule} {t : Text}

def isSystemRule (r : Rule) : Bool :=
  r.pattern.isFramed && ['g', 's', '.'].isPrefixOf r.pattern.opening

theorem isFramed_of_isSystemRule (hr : isSystemRule r = true) : r.pattern.isFramed = true := by
  rw [isSystemRule, Bool.and_eq_true] at hr
  exact hr.1

theorem lineStart_of_isSystemRule (hr : isSystemRule r = true) : r.pattern.lineStart = false :=
  Pattern.lineStart_of_isFramed (isFramed_of_isSystemRule hr)

theorem prefix_of_match (hr : isSystemRule r = true) {h : Hit}
    (hm : matchPieces r.pattern.steps t = some h) : ['g', 's', '.'] <+: t := by
  simp only [isSystemRule, Bool.and_eq_true, List.isPrefixOf_iff_prefix] at hr
  obtain ⟨u, g, rfl, -, -⟩ := matchPieces_literal_eq_some_iff.1 hm
  exact hr.2.trans (List.prefix_append _ u)

theorem apply_of_not_mem (hr : isSystemRule r = true) {a : Text} (ha : 'g' ∉ a) (t : Text) :
    r.apply (a ++ t) = a ++ r.apply t := by
  refine Rule.apply_append_of_no_hit (lineStart_of_isSystemRule hr) fun v hv hne => ?_
  rw [Option.eq_none_iff_forall_ne_some]
  intro h hm
  obtain ⟨c, v, rfl⟩ := List.exists_cons_of_ne_nil hne
  obtain ⟨rfl, -⟩ := List.cons_prefix_cons.1 (prefix_of_match hr hm)
  exact ha (hv.subset List.mem_cons_self)

theorem apply_of_dotless (hr : isSystemRule r = true) {a : Text} (ha : '.' ∉ a) (ht : Apart t) :
    r.apply (a ++ t) = a ++ r.apply t := by
  refine Rule.apply_append_of_no_hit (lineStart_of_isSystemRule hr) fun v hv _ => ?_
  rw [Option.eq_none_iff_forall_ne_some]
  intro h hm
  have hpre := prefix_of_match hr hm
  -- what stands behind is apart, so the name of the system ends in front of it
  have hv' : ['g', 's', '.'] <+: v := by
    cases t with
    | nil => simpa using hpre
    | cons d t =>
      have hd : d ∉ ['g', 's', '.'] := fun hm => by
        have hname : isNameChar d = true := by
          simp only [List.mem_cons, List.not_mem_nil, or_false] at hm
          rcases hm with rfl | rfl | rfl <;> decide
        rw [ht d rfl] at hname
        cases hname
      exact (prefix_append_cons_iff hd v t).1 hpre
  exact ha (hv.subset (hv'.subset (by decide)))

theorem Condition.apply_write (hr : isSystemRule r = true) {f f' : Check → Variable → Text}
    (hf : ∀ k w t, Apart t → r.apply (f k w ++ t) = f' k w ++ r.apply t) {l : Level}
    (c : Condition l) (ht : Apart t) : r.apply (c.write f ++ t) = c.write f' ++ r.apply t := by
  -- symbols and blanks are passed over, and none of them could be part of a name in front
  have lead {a : Text} (ha : 'g' ∉ a) (b : Blanks) (t : Text) :
      r.apply ((a ++ b.text) ++ t) = (a ++ b.text) ++ r.apply t := by
    have hb : 'g' ∉ b.text := fun hm => absurd (b.blank _ hm) (by decide)
    exact apply_of_not_mem hr (by simp [ha, hb]) t
  induction c generalizing t with
  | check k w b =>
    have hb := lead (a := []) (by simp) b t
    rw [List.nil_append] at hb
    rw [write, List.append_assoc, hf k w _ (ht.blanks b), hb, write, List.append_assoc]
  | not b c ih =>
    have hsplit (u v : Text) : '!' :: (b.text ++ u) ++ v = (['!'] ++ b.text) ++ (u ++ v) := by simp
    rw [write, hsplit, lead (by decide), ih ht, write, hsplit]
  | group b c b' ih =>
    have hsplit (u v : Text) : '(' :: (b.text ++ (u ++ ')' :: b'.text)) ++ v =
        (['('] ++ b.text) ++ (u ++ (([')'] ++ b'.text) ++ v)) := by simp
    have hclose : Apart (([')'] ++ b'.text) ++ t) := apart_cons (c := ')') (by decide) _
    rw [write, hsplit, lead (by decide), ih hclose, lead (by decide), write, hsplit]
  | one c ih | all c ih => exact ih ht
  | and c b d ihc ihd =>
    have hsplit (u v w : Text) : (u ++ '&' :: '&' :: (b.text ++ v)) ++ w =
        u ++ ((['&', '&'] ++ b.text) ++ (v ++ w)) := by simp
    have hjoint (u : Text) : Apart ((['&', '&'] ++ b.text) ++ u) :=
      apart_cons (c := '&') (by decide) _
    rw [write, hsplit, ihc (hjoint _), lead (by decide), ihd ht, write, hsplit]
  | or c b d ihc ihd =>
    have hsplit (u v w : Text) : (u ++ '|' :: '|' :: (b.text ++ v)) ++ w =
        u ++ ((['|', '|'] ++ b.text) ++ (v ++ w)) := by simp
    have hjoint (u : Text) : Apart ((['|', '|'] ++ b.text) ++ u) :=
      apart_cons (c := '|') (by decide) _
    rw [write, hsplit, ihc (hjoint _), lead (by decide), ihd ht, write, hsplit]

def plainRules : List Rule := systemRules.take 7

theorem systemRules_eq : systemRules = plainRules ++ [Check.nil.rule, Check.valid.rule] := rfl

theorem systemRules_isSystemRule : systemRules.all isSystemRule = true := by decide +kernel

theorem openings_silent :
    (plainRules.all fun r => [Check.nil, .valid].all fun k =>
      silentRec r.pattern.steps k.opening) = true ∧
    ∀ k k' : Check, k ≠ k' → silentRec k.rule.pattern.steps k'.opening = true := by
  refine ⟨by decide +kernel, fun k k' h => ?_⟩
  cases k <;> cases k' <;> first | exact absurd rfl h | decide +kernel

theorem Variable.close_not_mem (w : Variable) : ')' ∉ w.text :=
  fun hm => absurd (w.chars _ hm) (by decide)

theorem apply_source (hr : isSystemRule r = true) {k : Check}
    (hk : silentRec r.pattern.steps k.opening = true) (w : Variable) (t : Text) :
    r.apply (k.source w ++ t) = k.source w ++ r.apply t := by
  have hsplit (u : Text) : k.source w ++ u = k.opening ++ (w.text ++ ([')'] ++ u)) := by
    simp [Check.source]
  have hclose : Apart ([')'] ++ t) := apart_cons (c := ')') (by decide) t
  rw [hsplit, Rule.apply_of_passes (isFramed_of_isSystemRule hr) (Pattern.passes_of_silent hk _),
    apply_of_dotless hr w.dot_not_mem hclose, apply_of_not_mem hr (by decide), hsplit]

theorem Check.rule_opening (k : Check) : k.rule.pattern.opening = k.opening := by
  cases k
  · exact String.toList_ofList
  · exact String.toList_ofList

theorem Check.rule_fill (k : Check) (w : Variable) (taken : Text) :
    k.rule.fill ⟨taken, [w.text]⟩ = k.expansion w := by
  cases k with
  | nil =>
    have hnot : ("!" : Text) = ['!'] := String.toList_ofList
    have hor : (" || " : Text) = [' ', '|', '|', ' '] := String.toList_ofList
    have hempty : (" === \"\" || " : Text) =
        [' ', '=', '=', '=', ' ', '"', '"', ' ', '|', '|', ' '] := String.toList_ofList
    have hnull : (" === null || " : Text) =
        [' ', '=', '=', '=', ' ', 'n', 'u', 'l', 'l', ' ', '|', '|', ' '] := String.toList_ofList
    have hundefined : (" === undefined" : Text) =
        [' ', '=', '=', '=', ' ', 'u', 'n', 'd', 'e', 'f', 'i', 'n', 'e', 'd'] :=
      String.toList_ofList
    have hfill : nil.rule.fill ⟨taken, [w.text]⟩ = ("!" : Text) ++ (w.text ++ ((" || " : Text) ++
        (w.text ++ ((" === \"\" || " : Text) ++ (w.text ++ ((" === null || " : Text) ++
          (w.text ++ ((" === undefined" : Text) ++ ([] : Text))))))))) := rfl
    rw [hfill, hnot, hor, hempty, hnull, hundefined]
    simp [expansion, comparisons, constants, joint, relation, Operator.spaced, Operator.text,
      Constant.text, nullName, undefinedName]
  | valid =>
    have hand : (" && " : Text) = [' ', '&', '&', ' '] := String.toList_ofList
    have hempty : (" !== \"\" && " : Text) =
        [' ', '!', '=', '=', ' ', '"', '"', ' ', '&', '&', ' '] := String.toList_ofList
    have hnull : (" !== null && " : Text) =
        [' ', '!', '=', '=', ' ', 'n', 'u', 'l', 'l', ' ', '&', '&', ' '] := String.toList_ofList
    have hundefined : (" !== undefined" : Text) =
        [' ', '!', '=', '=', ' ', 'u', 'n', 'd', 'e', 'f', 'i', 'n', 'e', 'd'] :=
      String.toList_ofList
    have hfill : valid.rule.fill ⟨taken, [w.text]⟩ = w.text ++ ((" && " : Text) ++
        (w.text ++ ((" !== \"\" && " : Text) ++ (w.text ++ ((" !== null && " : Text) ++
          (w.text ++ ((" !== undefined" : Text) ++ ([] : Text)))))))) := rfl
    rw [hfill, hand, hempty, hnull, hundefined]
    simp [expansion, comparisons, constants, joint, relation, Operator.spaced, Operator.text,
      Constant.text, nullName, undefinedName]

theorem Check.dot_not_mem_comparisons (k : Check) (w : Variable) (cs : List Constant) :
    '.' ∉ k.comparisons w cs := by
  have hjoint : '.' ∉ k.joint.spaced := by cases k <;> decide
  have hrelation : '.' ∉ k.relation.spaced := by cases k <;> decide
  have hconstant (c : Constant) : '.' ∉ c.text := by cases c <;> decide
  simp [comparisons, hjoint, hrelation, hconstant, w.dot_not_mem]

theorem Check.dot_not_mem_expansion (k : Check) (w : Variable) : '.' ∉ k.expansion w := by
  have hcomparisons := k.dot_not_mem_comparisons w constants
  cases k with
  | nil => simp [expansion, hcomparisons, w.dot_not_mem]
  | valid => simp [expansion, hcomparisons, w.dot_not_mem]

theorem Check.rule_isSystemRule (k : Check) : isSystemRule k.rule = true := by
  cases k
  · decide +kernel
  · decide +kernel

theorem Check.rule_apply_source (k : Check) (w : Variable) (t : Text) :
    k.rule.apply (k.source w ++ t) = k.expansion w ++ k.rule.apply t := by
  have hpieces : k.rule.pattern.pieces = lastArgument := by cases k <;> rfl
  have hsplit : k.source w ++ t = k.opening ++ (w.text ++ ')' :: t) := by simp [source]
  have hmatch : matchPieces k.rule.pattern.steps (k.source w ++ t) =
      some ⟨k.source w, [w.text]⟩ := by
    rw [hsplit]
    exact match_opening k.rule_opening (hpieces ▸ match_lastArgument w.ne_nil w.close_not_mem t)
  have happly := Rule.apply_hit (lineStart_of_isSystemRule k.rule_isSystemRule)
    (h := ⟨k.source w, [w.text]⟩) hmatch
  rwa [rule_fill] at happly

theorem Check.rule_apply_written {k : Check} {done : List Check} (hk : k ∉ done) (k' : Check)
    (w : Variable) (ht : Apart t) :
    k.rule.apply (k'.written done w ++ t) = k'.written (k :: done) w ++ k.rule.apply t := by
  unfold written
  by_cases hdone : k' ∈ done
  · rw [if_pos hdone, if_pos (List.mem_cons_of_mem k hdone),
      apply_of_dotless k.rule_isSystemRule (k'.dot_not_mem_expansion w) ht]
  · rw [if_neg hdone]
    by_cases hsame : k' = k
    · subst hsame
      rw [if_pos List.mem_cons_self, rule_apply_source]
    · rw [if_neg (by simp [hsame, hdone]),
        apply_source k.rule_isSystemRule (openings_silent.2 k k' (Ne.symm hsame))]

theorem Condition.apply_blanks (hr : isSystemRule r = true) {f f' : Check → Variable → Text}
    (hf : ∀ k w t, Apart t → r.apply (f k w ++ t) = f' k w ++ r.apply t) (b : Blanks)
    (c : Condition .disjunction) : r.apply (b.text ++ c.write f) = b.text ++ c.write f' := by
  have hb : 'g' ∉ b.text := fun hm => absurd (b.blank _ hm) (by decide)
  have hwrite := c.apply_write hr hf apart_nil
  rw [Rule.apply_nil, List.append_nil, List.append_nil] at hwrite
  rw [apply_of_not_mem hr hb, hwrite]

theorem Condition.run_plainRules (b : Blanks) (c : Condition .disjunction) {rs : List Rule}
    (hrs : ∀ r ∈ rs, r ∈ plainRules) :
    Rule.run rs (b.text ++ c.write Check.source) = b.text ++ c.write Check.source := by
  refine Rule.run_induction (P := fun t => t = b.text ++ c.write Check.source)
    (fun r hr t ht => ?_) rfl
  have hsystem := List.all_eq_true.1 systemRules_isSystemRule r (List.mem_of_mem_take (hrs r hr))
  have hsilent := List.all_eq_true.1 openings_silent.1 r (hrs r hr)
  have hf (k : Check) (w : Variable) (t : Text) (_ : Apart t) :
      r.apply (k.source w ++ t) = k.source w ++ r.apply t :=
    apply_source hsystem (List.all_eq_true.1 hsilent k (by cases k <;> simp)) w t
  exact ht ▸ apply_blanks hsystem hf b c

theorem systemGroup_apply_write (b : Blanks) (c : Condition .disjunction) :
    systemGroup.apply (b.text ++ c.write Check.source) = b.text ++ c.write Check.expansion := by
  have hsource : Check.source = Check.written [] := by
    funext k w
    exact (if_neg List.not_mem_nil).symm
  have hexpansion : Check.written [.valid, .nil] = Check.expansion := by
    funext k w
    exact if_pos (by cases k <;> simp)
  have hnil := Condition.apply_blanks Check.nil.rule_isSystemRule
    (fun k w t ht => Check.rule_apply_written List.not_mem_nil k w ht) b c
  have hdone : Check.valid ∉ [Check.nil] := by decide
  have hvalid := Condition.apply_blanks Check.valid.rule_isSystemRule
    (fun k w t ht => Check.rule_apply_written hdone k w ht) b c
  change Rule.run systemRules _ = _
  rw [systemRules_eq, Rule.run_append, Condition.run_plainRules b c fun _ h => h, hsource]
  change Check.valid.rule.apply (Check.nil.rule.apply _) = _
  rw [hnil, hvalid, hexpansion]

end Rules

/-- A condition is read as it was written, and what comes out for it with the chains of comparisons
spliced into it. Every assignment gives both the same truth value if the condition is safe, and if
no variable occurs twice only then. -/
theorem systemGroup_splices_checks (b : Blanks) (c : Condition .disjunction) :
    read? (b.text ++ c.write Check.source) = some c.expr ∧
    read? (systemGroup.apply (b.text ++ c.write Check.source)) = some c.spliced ∧
    (∀ σ, truth? σ (b.text ++ c.write Check.source) = some (c.holds σ)) ∧
    (c.isSafe = true → ∀ σ,
      truth? σ (systemGroup.apply (b.text ++ c.write Check.source)) = some (c.holds σ)) ∧
    (c.vars.Nodup → c.isSafe = false → ∃ σ,
      truth? σ (systemGroup.apply (b.text ++ c.write Check.source)) = some !c.holds σ) := by
  have hsource : read? (b.text ++ c.write Check.source) = some c.expr := by
    refine read?_of_tokens ?_ (c.expr_fits.mono (by decide))
    have htokens := c.tokens?_write Check.head_source_ne (fun k w t _ => k.tokens?_source w t)
      apart_nil
    rw [tokens?_blank b.blank, c.expr_tokens]
    simpa [tokens?] using htokens
  have hexpansion : read? (b.text ++ c.write Check.expansion) = some c.spliced := by
    refine read?_of_tokens ?_ c.spliced_fits
    have htokens := c.tokens?_write Check.head_expansion_ne (fun k w _ => k.tokens?_expansion w)
      apart_nil
    rw [tokens?_blank b.blank, c.spliced_tokens]
    simpa [tokens?] using htokens
  rw [systemGroup_apply_write]
  refine ⟨hsource, hexpansion, fun σ => ?_, fun hsafe σ => ?_, fun hvars hsafe => ?_⟩
  · rw [truth?, hsource, Option.map_some, c.truth_expr]
  · rw [truth?, hexpansion, Option.map_some, c.truth_spliced hsafe]
  · obtain ⟨a, σ, hholds, hspliced⟩ := Condition.exists_truth_spliced_ne hvars hsafe
    exact ⟨σ, by rw [truth?, hexpansion, Option.map_some, hspliced, hholds]⟩

def letter (c : Char) (hc : isNameChar c = true) (hdot : '.' ≠ c) : Variable :=
  ⟨[c], by simp, by simpa using hc, by simpa using hdot, by simp [nullName],
    by simp [undefinedName]⟩

def noBlanks : Blanks := ⟨[], by simp⟩

def oneBlank : Blanks := ⟨[' '], List.forall_mem_singleton.2 rfl⟩

def filledBut : Condition .disjunction :=
  .all (.and
    (.one (.check .valid (letter 'a' (by decide) (by decide)) oneBlank))
    oneBlank
    (.group noBlanks
      (.or (.all (.one (.check .nil (letter 'b' (by decide) (by decide)) oneBlank))) oneBlank
        (.one (.not noBlanks (.group noBlanks
          (.all (.one (.check .nil (letter 'c' (by decide) (by decide)) noBlanks))) noBlanks))))
      noBlanks))

def bothEmpty : Condition .disjunction :=
  .all (.and
    (.one (.check .nil (letter 'a' (by decide) (by decide)) oneBlank))
    oneBlank
    (.check .nil (letter 'b' (by decide) (by decide)) noBlanks))

theorem systemGroup_splices_checks_grouped :
    noBlanks.text ++ filledBut.write Check.source =
        "gs.isValid(a) && (gs.nil(b) || !(gs.nil(c)))".toList ∧
      truth? (Function.const Text (.text ['x'])) (systemGroup.apply
        (noBlanks.text ++ filledBut.write Check.source)) = some true ∧
      noBlanks.text ++ bothEmpty.write Check.source = "gs.nil(a) && gs.nil(b)".toList ∧
      ∃ σ, truth? σ (systemGroup.apply (noBlanks.text ++ bothEmpty.write Check.source)) =
        some !bothEmpty.holds σ :=
  ⟨by decide +kernel,
    (systemGroup_splices_checks noBlanks filledBut).2.2.2.1 (by decide) _,
    by decide +kernel,
    (systemGroup_splices_checks noBlanks bothEmpty).2.2.2.2 (by decide) (by decide)⟩

/-- For the empty text a negated check and a check in a conjunction come out true that are not. -/
theorem exists_condition_changed :
    truth? (Function.const Text (.text [])) "!gs.nil(x)" = some false ∧
      truth? (Function.const Text (.text [])) (systemGroup.apply "!gs.nil(x)") = some true ∧
      truth? (Function.const Text (.text [])) "gs.isValid(x) && gs.nil(y)" = some false ∧
      truth? (Function.const Text (.text [])) (systemGroup.apply "gs.isValid(x) && gs.nil(y)") =
        some true := by
  decide +kernel

end GlideBridge.Script
