import GlideBridge.Proofs.CountedRules

/-! Texts that the rules leave as they are. A rule has a hit wherever its pattern fits, whatever
stands in front, and none of the rules gives a text back that it has a hit in: the calls that no
other rule has converted are reported, and the rules whose hits are no calls write more characters
than they take. So a text is left alone exactly if no pattern fits anywhere in it. -/

namespace GlideBridge

open Text Pieces CallSpace

namespace Text

def weight (t : Text) : ℕ := t.countP (!isBlank ·)

theorem weight_append (a b : Text) : weight (a ++ b) = weight a + weight b := List.countP_append

theorem weight_of_blank {t : Text} (h : ∀ c ∈ t, isBlank c = true) : weight t = 0 :=
  List.countP_eq_zero.2 fun c hc => by simp [h c hc]

theorem weight_singleton_le (c : Char) : weight [c] ≤ 1 := List.countP_le_length

end Text

namespace Piece

/-- Runs of blanks are the only runs that may be long without being captured. -/
def isBounded : Piece → Bool
  | many k => k == .blank
  | _ => true

def weight : Piece → ℕ
  | literal w => Text.weight w
  | one k => if k = .blank then 0 else 1
  | many _ | field _ | lineEnd => 0
  | oneOf ws => (ws.map Text.weight).foldr max 0
  | optional _ => 1

end Piece

theorem le_foldr_max {n : ℕ} {ns : List ℕ} (h : n ∈ ns) : n ≤ ns.foldr max 0 := by
  induction ns with
  | nil => cases h
  | cons m ns ih =>
    rw [List.foldr_cons]
    rcases List.mem_cons.1 h with rfl | h
    · omega
    · have := ih h
      omega

theorem Piece.Takes.weight_le {p : Piece} {w : Text} {fs : List Text} (ht : p.Takes w fs)
    (hp : p.isBounded = true) : Text.weight w ≤ p.weight + (fs.map Text.weight).sum := by
  cases ht with
  | literal w => exact le_rfl
  | @one k c hc =>
    rw [Piece.weight]
    split
    · next hk =>
      subst hk
      exact (weight_of_blank (List.forall_mem_singleton.2 hc)).le
    · exact weight_singleton_le c
  | @many k w hw =>
    obtain rfl : k = .blank := by simpa [Piece.isBounded] using hp
    exact (weight_of_blank hw).le
  | field _ _ => simp
  | oneOf hw => exact le_foldr_max (List.mem_map_of_mem hw)
  | present c => exact weight_singleton_le c
  | absent c => exact Nat.zero_le _
  | lineEnd => exact le_rfl

theorem Spells.weight_taken_le {ps : List Piece} {h : Hit} (hs : Spells ps h)
    (hp : ∀ p ∈ ps, p.isBounded = true) :
    Text.weight h.taken ≤ (ps.map Piece.weight).sum + (h.fields.map Text.weight).sum := by
  induction hs with
  | nil => simp [Text.weight]
  | cons ht _ ih =>
    rw [List.forall_mem_cons] at hp
    have hw := ht.weight_le hp.1
    have := ih hp.2
    simp only [Hit.extend_taken, Hit.extend_fields, weight_append, List.map_cons, List.sum_cons,
      List.map_append, List.sum_append]
    omega

namespace TemplatePart

def weight : TemplatePart → ℕ
  | text t => Text.weight t
  | field _ => 0

theorem weight_fill (template : Template) (fields : List Text) :
    Text.weight (template.flatMap (·.fill fields)) = (template.map weight).sum +
      ((template.filterMap index?).map fun i => Text.weight (fields.getD i [])).sum := by
  induction template with
  | nil => rfl
  | cons q template ih =>
    rw [List.flatMap_cons, weight_append, ih, List.map_cons, List.sum_cons]
    cases q with
    | text t =>
      rw [fill_text, weight]
      simp only [List.filterMap_cons, index?]
      omega
    | field i =>
      rw [fill_field, weight]
      simp only [List.filterMap_cons, index?, List.map_cons, List.sum_cons]
      omega

end TemplatePart

namespace Rule

variable {r : Rule} {t : Text}

def grows (r : Rule) : Bool :=
  !r.pattern.lineStart && r.pattern.steps.all Piece.isBounded &&
    r.template.filterMap TemplatePart.index? ==
      List.range (r.pattern.steps.countP Piece.isField) &&
    (r.pattern.steps.map Piece.weight).sum < (r.template.map TemplatePart.weight).sum

theorem weight_fill_lt (hr : r.grows = true) {h : Hit} (hs : Spells r.pattern.steps h) :
    Text.weight h.taken < Text.weight (r.fill h) := by
  simp only [grows, Bool.and_eq_true, List.all_eq_true, beq_iff_eq, decide_eq_true_eq] at hr
  obtain ⟨⟨⟨-, hp⟩, hindex⟩, hlt⟩ := hr
  have htaken := hs.weight_taken_le hp
  have hfill := TemplatePart.weight_fill r.template h.fields
  have hfields := congrArg (List.map Text.weight) h.map_getD_range
  rw [List.map_map] at hfields
  rw [hindex, ← hs.length_fields] at hfill
  change _ = _ + (List.map (Text.weight ∘ (h.fields.getD · [])) _).sum at hfill
  rw [hfields] at hfill
  rw [fill]
  omega

theorem weight_add_hits_le (hr : r.grows = true) (t : Text) :
    Text.weight t + (r.pattern.hits t).length ≤ Text.weight (r.apply t) := by
  have hp : r.pattern.lineStart = false := by
    simp only [grows, Bool.and_eq_true, Bool.not_eq_true'] at hr
    exact hr.1.1.1
  induction t using r.pattern.scan_induction with
  | nil => simp [Pattern.hits_nil, apply_nil]
  | kept c t hm ih =>
    rw [Pattern.hits_kept hp hm, apply_kept hp hm, ← List.singleton_append (x := c) (l := t),
      ← List.singleton_append (x := c) (l := r.apply t), weight_append, weight_append]
    omega
  | hit h t hm ih =>
    have hlt := weight_fill_lt hr (spells_of_match hm)
    rw [Pattern.hits_hit hp hm, apply_hit hp hm, weight_append, weight_append, List.length_cons]
    omega

end Rule

namespace Catalog

def CallFree (t : Text) : Prop := ∀ s : CallSpace, Free s.pattern.steps t

theorem callFree_of_leftoverCalls {t : Text} (h : leftoverCalls t = []) : CallFree t := by
  intro s
  have hhits : s.pattern.hits t = [] := by
    simp only [leftoverCalls, List.flatMap_cons, List.flatMap_nil, List.append_nil,
      List.append_eq_nil_iff, List.map_eq_nil_iff] at h
    cases s with
    | form => exact h.1
    | system => exact h.2
  refine (Rule.hits_eq_nil_iff_free (r := s.leftoverRule) s.pattern_inline ?_).1 hhits
  have hsteps : s.leftoverRule.pattern.steps = s.pattern.steps := rfl
  rw [hsteps, s.pattern_steps]
  simp

def takesCalls (r : Rule) : Bool := spaces.any fun s =>
  reads s.pattern.steps r.pattern.opening || r.pattern.steps == s.pattern.steps

theorem hits_eq_nil_of_takesCalls {r : Rule} (hp : r.pattern.lineStart = false)
    (hr : takesCalls r = true) {t : Text} (ht : CallFree t) : r.pattern.hits t = [] := by
  rw [takesCalls, List.any_eq_true] at hr
  obtain ⟨s, -, hr⟩ := hr
  rw [Bool.or_eq_true, beq_iff_eq] at hr
  rcases hr with hr | hr
  · refine (Pattern.hits_eq_nil_iff hp).2 fun v hv hne => ?_
    rw [Option.eq_none_iff_forall_ne_some]
    intro h hm
    obtain ⟨u, -, rfl, -⟩ := matchPieces_literal_eq_some_iff.1 hm
    have hread := free_iff.1 (ht s) _ hv hne
    rw [reads_append_of_reads hr] at hread
    cases hread
  · refine Rule.hits_eq_nil_of_free hp ?_ (hr ▸ ht s)
    rw [hr, s.pattern_steps]
    simp

/-- The rule has no hits where there are no calls, or its hits make the text heavier and bring no
calls about. -/
def isWatched (r : Rule) : Bool :=
  !r.pattern.lineStart &&
    (takesCalls r || r.grows && spaces.all fun s => Rule.spares s.pattern.steps r)

theorem run_watched {rs : List Rule} (hrs : ∀ r ∈ rs, isWatched r = true) {t : Text}
    (ht : CallFree t) : Text.weight t ≤ Text.weight (Rule.run rs t) ∧
      (Text.weight (Rule.run rs t) = Text.weight t → ∀ r ∈ rs, r.pattern.hits t = []) := by
  induction rs generalizing t with
  | nil => exact ⟨Nat.le_refl _, by simp⟩
  | cons r rs ih =>
    rw [List.forall_mem_cons] at hrs
    obtain ⟨hr, hrs⟩ := hrs
    simp only [isWatched, Bool.and_eq_true, Bool.not_eq_true', Bool.or_eq_true,
      List.all_eq_true] at hr
    rw [Rule.run_cons]
    obtain ⟨hp, hr | ⟨hgrows, hspares⟩⟩ := hr
    · have hnil := hits_eq_nil_of_takesCalls hp hr ht
      obtain ⟨hle, heq⟩ := ih hrs ht
      rw [Rule.apply_of_hits_eq_nil hnil]
      exact ⟨hle, fun h => List.forall_mem_cons.2 ⟨hnil, heq h⟩⟩
    · have hhits := Rule.weight_add_hits_le hgrows t
      obtain ⟨hle, heq⟩ := ih hrs fun s => Rule.free_apply (hspares s (mem_spaces s)) (ht s)
      refine ⟨by omega, fun h => ?_⟩
      have hnil : r.pattern.hits t = [] := List.eq_nil_of_length_eq_zero (by omega)
      rw [Rule.apply_of_hits_eq_nil hnil] at heq h
      exact List.forall_mem_cons.2 ⟨hnil, heq h⟩

def convertingGroups (f : FormType) : List RuleGroup := documented f.identifier ++ [leftoverGroup]

/-- The groups do not change the text, and no call in it is left over. -/
def LeavesAlone (f : FormType) (t : Text) : Prop :=
  applyAll (convertingGroups f) t = t ∧ leftoverCalls t = []

def triggers : List Text := ["gs.", "g_form.", "current.", "workflow.", "alert", "GlideRecord"]

def isTriggered (r : Rule) : Bool := triggers.any fun w => r.pattern.steps.any fun
  | .literal l => decide (w <:+: l)
  | _ => false

theorem convertingRules_checks :
    ((earlyRules ++ fixedRules ++ leftoverGroup.rules).all fun r =>
      isWatched r && isTriggered r) = true := by decide +kernel

theorem accessRules_checks (f : FormType) : ((accessRules f.identifier).all fun r =>
    isWatched r && isTriggered r) = true := by
  cases f <;> decide +kernel

theorem convertingGroups_rules (f : FormType) : (convertingGroups f).flatMap (·.rules) =
    earlyRules ++ (accessRules f.identifier ++ fixedRules) ++ leftoverGroup.rules := rfl

theorem checks_of_mem {f : FormType} {r : Rule} (hr : r ∈ (convertingGroups f).flatMap (·.rules)) :
    isWatched r = true ∧ isTriggered r = true := by
  have hfixed := List.all_eq_true.1 convertingRules_checks
  have haccess := List.all_eq_true.1 (accessRules_checks f)
  rw [convertingGroups_rules] at hr
  simp only [List.mem_append] at hr hfixed
  rw [← Bool.and_eq_true]
  rcases hr with (hr | hr | hr) | hr
  · exact hfixed r (Or.inl (Or.inl hr))
  · exact haccess r hr
  · exact hfixed r (Or.inl (Or.inr hr))
  · exact hfixed r (Or.inr hr)

theorem inline_of_isWatched {r : Rule} (hr : isWatched r = true) : r.pattern.lineStart = false := by
  simp only [isWatched, Bool.and_eq_true, Bool.not_eq_true'] at hr
  exact hr.1

theorem leavesAlone_iff {f : FormType} {t : Text} : LeavesAlone f t ↔
    ∀ r ∈ (convertingGroups f).flatMap (·.rules), r.pattern.hits t = [] := by
  rw [LeavesAlone, applyAll_eq_run]
  constructor
  · rintro ⟨hsame, hcalls⟩
    refine (run_watched (fun r hr => (checks_of_mem hr).1) (callFree_of_leftoverCalls hcalls)).2 ?_
    rw [hsame]
  · intro h
    constructor
    · refine Rule.run_induction (P := fun u => u = t) (fun r hr u hu => ?_) rfl
      rw [hu, Rule.apply_of_hits_eq_nil (h r hr)]
    · have hcall {p : Pattern} {template : Template} (hr : ⟨p, template⟩ ∈ leftoverGroup.rules) :
          p.hits t = [] :=
        h ⟨p, template⟩ (convertingGroups_rules f ▸ List.mem_append_right _ hr)
      simp only [leftoverCalls, List.flatMap_cons, List.flatMap_nil, List.append_nil,
        hcall List.mem_cons_self, hcall (List.mem_cons_of_mem _ List.mem_cons_self), List.map_nil]

theorem hits_eq_nil_of_isTriggered {r : Rule} (hp : r.pattern.lineStart = false)
    (hr : isTriggered r = true) {t : Text} (ht : ∀ w ∈ triggers, ¬ w <:+: t) :
    r.pattern.hits t = [] := by
  simp only [isTriggered, List.any_eq_true] at hr
  obtain ⟨w, hw, p, hmem, hp'⟩ := hr
  split at hp'
  · next l =>
    refine (Pattern.hits_eq_nil_iff hp).2 fun v hv _ => ?_
    rw [Option.eq_none_iff_forall_ne_some]
    intro h hm
    obtain ⟨u, rfl⟩ := taken_append_of_match hm
    have hl : l <:+: h.taken := (spells_of_match hm).infix_of_literal hmem
    have htaken : h.taken <:+: t := (List.prefix_append _ u).isInfix.trans hv.isInfix
    exact ht w hw ((of_decide_eq_true hp').trans (hl.trans htaken))
  · cases hp'

/-- A text is left alone exactly if no rule has a hit in it, so it is if it has none of the texts
that the rules look for. What stands in front of a hit does not matter: if a text is not left
alone, no text that ends in it is. -/
theorem leavesAlone_of_no_hits (f : FormType) (t : Text) :
    (LeavesAlone f t ↔ ∀ g ∈ convertingGroups f, ∀ r ∈ g.rules, r.pattern.hits t = []) ∧
      ((∀ w ∈ triggers, ¬ w <:+: t) → LeavesAlone f t) ∧
      ∀ w, LeavesAlone f (w ++ t) → LeavesAlone f t := by
  have hinline {r : Rule} (hr : r ∈ (convertingGroups f).flatMap (·.rules)) :=
    inline_of_isWatched (checks_of_mem hr).1
  refine ⟨?_, fun ht => ?_, fun w hw => ?_⟩
  · rw [leavesAlone_iff]
    simp only [List.mem_flatMap, forall_exists_index, and_imp]
    exact ⟨fun h g hg r hr => h r g hg hr, fun h r g hg hr => h g hg r hr⟩
  · exact leavesAlone_iff.2 fun r hr =>
      hits_eq_nil_of_isTriggered (hinline hr) (checks_of_mem hr).2 ht
  · rw [leavesAlone_iff] at hw ⊢
    intro r hr
    have hnone := (Pattern.hits_eq_nil_iff (hinline hr)).1 (hw r hr)
    refine (Pattern.hits_eq_nil_iff (hinline hr)).2 fun v hv => ?_
    exact hnone v (hv.trans (List.suffix_append w t))

theorem leavesAlone_of_no_hits_formula :
    (∀ w ∈ triggers, ¬ w <:+: "args = g_formula(current);".toList) ∧
      LeavesAlone .modifiedFields "args = g_formula(current);" := by
  have h : ∀ w ∈ triggers, ¬ w <:+: "args = g_formula(current);".toList := by decide +kernel
  exact ⟨h, (leavesAlone_of_no_hits .modifiedFields _).2.1 h⟩

def isIdentifierChar (c : Char) : Bool := c.isAlphanum || c == '_' || c == '$'

def OnlyInNames (t : Text) : Prop := ¬ "GlideRecord".toList <:+: t ∧
  ∀ a ∈ t.inits, ∀ w ∈ [("gs." : Text), "g_form.", "current.", "workflow.", "alert"],
    a ++ w <+: t → a.getLast?.any isIdentifierChar = true

/-- The end of a longer name is converted, and reported. -/
theorem exists_name_not_left_alone :
    OnlyInNames "msgs.log(1)" ∧ ¬ LeavesAlone .requestForm "msgs.log(1)" ∧
      applyAll (convertingGroups .requestForm) "msgs.log(1)" = "msconsole.log(1)".toList ∧
      OnlyInNames "msgs.foo(1)" ∧ leftoverCalls "msgs.foo(1)" = ["gs.foo".toList] := by
  have hlog : OnlyInNames "msgs.log(1)" := by
    unfold OnlyInNames
    decide +kernel
  have hfoo : OnlyInNames "msgs.foo(1)" := by
    unfold OnlyInNames
    decide +kernel
  have happly : applyAll (convertingGroups .requestForm) "msgs.log(1)" =
      "msconsole.log(1)".toList := by decide +kernel
  have hne : "msconsole.log(1)".toList ≠ "msgs.log(1)".toList := by decide +kernel
  refine ⟨hlog, fun h => hne ?_, happly, hfoo, by decide +kernel⟩
  rw [← happly]
  exact h.1

end Catalog

end GlideBridge
