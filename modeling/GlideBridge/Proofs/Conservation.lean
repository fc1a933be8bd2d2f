import GlideBridge.FormType
import GlideBridge.Proofs.Rewriting
import Mathlib.Algebra.BigOperators.Group.List.Basic
import Mathlib.Data.List.Infix
import Mathlib.Tactic.Abel

/-! What the catalog leaves alone in every text: the surplus of opening parentheses, and the
braces and the characters beyond ASCII in their order. A rule conserves them when its template
writes each field once, in the order of the pattern, and pays back the parentheses that the
pattern takes. Four calls have templates that repeat or drop a field; none of the rules before
them can bring such a call about, because no text that a template writes can be a part of it. -/

namespace GlideBridge

namespace Text

def balance (t : Text) : ℤ := t.count '(' - t.count ')'

/-- Braces, and all that is neither ASCII nor blank. -/
def isTracked (c : Char) : Bool := c == '{' || c == '}' || (127 < c.toNat && !isBlank c)

def tracked (t : Text) : Text := t.filter isTracked

theorem balance_append (a b : Text) : balance (a ++ b) = balance a + balance b := by
  simp only [balance, List.count_append, Nat.cast_add]
  abel

theorem tracked_append (a b : Text) : tracked (a ++ b) = tracked a ++ tracked b :=
  List.filter_append ..

def isNeutral (c : Char) : Bool := !isTracked c && c != '(' && c != ')'

theorem balance_of_neutral {t : Text} (h : ∀ c ∈ t, isNeutral c = true) : balance t = 0 := by
  have count_eq (d : Char) (hd : isNeutral d = false) : t.count d = 0 := by
    refine List.count_eq_zero.2 fun hm => ?_
    rw [h d hm] at hd
    cases hd
  simp [balance, count_eq '(' (by decide), count_eq ')' (by decide)]

theorem tracked_of_neutral {t : Text} (h : ∀ c ∈ t, isNeutral c = true) : tracked t = [] := by
  refine List.filter_eq_nil_iff.2 fun c hc => ?_
  have := h c hc
  simp only [isNeutral, Bool.and_eq_true] at this
  simpa using this.1.1

end Text

open Text

namespace CharClass

def isNeutral : CharClass → Bool
  | blank | word | fieldName | letter | quote => true
  | notQuote | except _ => false

theorem has_structural {k : CharClass} (hk : k.isNeutral = true) :
    ∀ d ∈ ['{', '}', '(', ')'], k.has d = false := by
  cases k <;> first | decide | cases hk

theorem ascii_or_blank {k : CharClass} (hk : k.isNeutral = true) {c : Char}
    (hc : k.has c = true) : c.toNat ≤ 127 ∨ Text.isBlank c = true := by
  cases k with
  | blank => exact Or.inr hc
  | word => exact Or.inl ((isWord_range hc).2.trans (by decide))
  | fieldName =>
    simp only [has, Bool.or_eq_true, beq_iff_eq] at hc
    rcases hc with hc | rfl
    · exact Or.inl ((isWord_range hc).2.trans (by decide))
    · exact Or.inl (by decide)
  | letter =>
    have hw : isWord c = true := by
      simp only [has] at hc
      simp [isWord, Char.isAlphanum, hc]
    exact Or.inl ((isWord_range hw).2.trans (by decide))
  | quote =>
    simp only [has, isQuote, Bool.or_eq_true, beq_iff_eq] at hc
    rcases hc with rfl | rfl <;> exact Or.inl (by decide)
  | notQuote => cases hk
  | except d => cases hk

theorem isNeutral_has {k : CharClass} (hk : k.isNeutral = true) {c : Char}
    (hc : k.has c = true) : Text.isNeutral c = true := by
  have hne (d : Char) (hd : d ∈ ['{', '}', '(', ')']) : c ≠ d := by
    rintro rfl
    rw [has_structural hk c hd] at hc
    cases hc
  have hplain : isTracked c = false := by
    have hb := ascii_or_blank hk hc
    simp only [isTracked, Bool.or_eq_false_iff, beq_eq_false_iff_ne, Bool.and_eq_false_iff,
      decide_eq_false_iff_not, Bool.not_eq_false', Nat.not_lt]
    exact ⟨⟨hne _ (by simp), hne _ (by simp)⟩, hb⟩
  simp [Text.isNeutral, hplain, hne '(' (by simp), hne ')' (by simp)]

end CharClass

namespace Piece

def isLevel : Piece → Bool
  | literal w => tracked w == []
  | one k | many k => k.isNeutral
  | field _ | lineEnd => true
  | oneOf ws => ws.all fun w => w.all Text.isNeutral
  | optional c => Text.isNeutral c

def balance : Piece → ℤ
  | literal w => Text.balance w
  | _ => 0

end Piece

theorem Piece.Takes.conserves {p : Piece} {w : Text} {fs : List Text} (ht : p.Takes w fs)
    (hp : p.isLevel = true) : tracked w = fs.flatMap tracked ∧
      Text.balance w = p.balance + (fs.map Text.balance).sum := by
  have neutral {w : Text} (hw : ∀ c ∈ w, Text.isNeutral c = true) :
      tracked w = [] ∧ Text.balance w = 0 := ⟨tracked_of_neutral hw, balance_of_neutral hw⟩
  cases ht with
  | literal w => exact ⟨by simpa [isLevel] using hp, (add_zero _).symm⟩
  | one hc => exact neutral (by simpa using CharClass.isNeutral_has hp hc)
  | many hw => exact neutral fun c hc => CharClass.isNeutral_has hp (hw c hc)
  | field _ _ => simp [Piece.balance]
  | oneOf hw => exact neutral (List.all_eq_true.1 (List.all_eq_true.1 hp _ hw))
  | present c => exact neutral (by simpa using show Text.isNeutral c = true from hp)
  | absent c => exact neutral (by simp)
  | lineEnd => exact neutral (by simp)

theorem Spells.conserves {ps : List Piece} {h : Hit} (hs : Spells ps h)
    (hp : ∀ p ∈ ps, p.isLevel = true) :
    tracked h.taken = h.fields.flatMap tracked ∧
      balance h.taken = (ps.map Piece.balance).sum + (h.fields.map balance).sum := by
  induction hs with
  | nil => simp [tracked, balance]
  | cons hw _ ih =>
    rw [List.forall_mem_cons] at hp
    obtain ⟨hwt, hwb⟩ := hw.conserves hp.1
    obtain ⟨ht, hb⟩ := ih hp.2
    refine ⟨?_, ?_⟩
    · rw [Hit.extend_taken, Hit.extend_fields, tracked_append, hwt, ht, List.flatMap_append]
    · rw [Hit.extend_taken, Hit.extend_fields, balance_append, hwb, hb, List.map_append,
        List.sum_append, List.map_cons, List.sum_cons]
      abel

namespace TemplatePart

def isLevel : TemplatePart → Bool
  | text t => tracked t == []
  | field _ => true

def balance : TemplatePart → ℤ
  | text t => Text.balance t
  | field _ => 0

def index? : TemplatePart → Option ℕ
  | text _ => none
  | field i => some i

theorem conserves_fill {template : Template} (ht : ∀ q ∈ template, q.isLevel = true)
    (fields : List Text) :
    tracked (template.flatMap (·.fill fields)) =
        ((template.filterMap index?).map (fields.getD · [])).flatMap tracked ∧
      Text.balance (template.flatMap (·.fill fields)) = (template.map balance).sum +
        (((template.filterMap index?).map (fields.getD · [])).map Text.balance).sum := by
  induction template with
  | nil => simp [tracked, Text.balance]
  | cons q template ih =>
    obtain ⟨hq, ht⟩ := List.forall_mem_cons.1 ht
    obtain ⟨hk, hb⟩ := ih ht
    cases q with
    | text t =>
      have hi : (text t :: template).filterMap index? = template.filterMap index? := rfl
      simp only [isLevel, beq_iff_eq] at hq
      simp only [List.flatMap_cons, fill_text, tracked_append, balance_append, hq, hk, hb, hi,
        List.nil_append, List.map_cons, List.sum_cons, balance, add_assoc]
      exact ⟨trivial, trivial⟩
    | field i =>
      have hi : (field i :: template).filterMap index? = i :: template.filterMap index? := rfl
      simp only [List.flatMap_cons, fill_field, tracked_append, balance_append, hk, hb, hi,
        List.map_cons, List.sum_cons, balance]
      refine ⟨trivial, ?_⟩
      abel

end TemplatePart

theorem Hit.map_getD_range (h : Hit) :
    (List.range h.fields.length).map (h.fields.getD · []) = h.fields := by
  apply List.ext_getElem
  · simp
  · intro i hi _
    simp at hi
    simp [hi]

namespace Rule

/-- The template writes each field once, in the order of the pattern, and pays back the
parentheses that the pattern takes. -/
def conserves (r : Rule) : Bool :=
  !r.pattern.lineStart && r.pattern.steps.all Piece.isLevel &&
    r.template.all TemplatePart.isLevel &&
    r.template.filterMap TemplatePart.index? ==
      List.range (r.pattern.steps.countP Piece.isField) &&
    (r.pattern.steps.map Piece.balance).sum == (r.template.map TemplatePart.balance).sum

theorem fill_conserves {r : Rule} (hr : r.conserves = true) {h : Hit}
    (hs : Spells r.pattern.steps h) :
    tracked (r.fill h) = tracked h.taken ∧ balance (r.fill h) = balance h.taken := by
  simp only [conserves, Bool.and_eq_true, List.all_eq_true, beq_iff_eq] at hr
  obtain ⟨⟨⟨⟨-, hp⟩, ht⟩, hi⟩, hb⟩ := hr
  obtain ⟨hk, hl⟩ := hs.conserves hp
  obtain ⟨hk', hl'⟩ := TemplatePart.conserves_fill ht h.fields
  rw [hi, ← hs.length_fields, h.map_getD_range] at hk' hl'
  exact ⟨hk'.trans hk.symm, by rw [fill, hl', hl, hb]⟩

theorem apply_conserves {r : Rule} (hr : r.conserves = true) (t : Text) :
    tracked (r.apply t) = tracked t ∧ balance (r.apply t) = balance t := by
  have hp : r.pattern.lineStart = false := by
    simp only [conserves, Bool.and_eq_true, Bool.not_eq_true'] at hr
    exact hr.1.1.1.1
  induction t using r.pattern.scan_induction with
  | nil => exact ⟨rfl, rfl⟩
  | kept c t hm ih =>
    rw [apply_kept hp hm, ← List.singleton_append (x := c) (l := t),
      ← List.singleton_append (x := c) (l := r.apply t)]
    simp only [tracked_append, balance_append, ih.1, ih.2]
    exact ⟨trivial, trivial⟩
  | hit h t hm ih =>
    obtain ⟨hk, hb⟩ := fill_conserves hr (spells_of_match hm)
    rw [apply_hit hp hm]
    simp only [tracked_append, balance_append, ih.1, ih.2, hk, hb]
    exact ⟨trivial, trivial⟩

end Rule

/-- No end of one text runs into the beginning of the other, so no text in which `l` stands can
have `w` across it. -/
def Text.apart (w l : Text) : Bool :=
  (l.tails.all fun s => s == [] || !agree s w) && w.tails.all fun s => s == [] || !agree s l

theorem Text.infix_of_apart {w l a b : Text} (hw : w ≠ []) (h : apart w l = true)
    (hi : w <:+: a ++ (l ++ b)) : w <:+: a ∨ w <:+: b := by
  simp only [apart, Bool.and_eq_true, List.all_eq_true, List.mem_tails, Bool.or_eq_true,
    beq_iff_eq, Bool.not_eq_true'] at h
  obtain ⟨hl, hr⟩ := h
  have ends {s : Text} (hs : s <:+ l) (hne : s ≠ []) : agree s w ≠ true := by
    simpa [hne] using hl s hs
  have begins {s : Text} (hs : s <:+ w) (hne : s ≠ []) : agree s l ≠ true := by
    simpa [hne] using hr s hs
  rcases List.infix_append_iff_ne_nil.1 hi with hi | hi | ⟨u, v, -, hv, rfl, -, hp⟩
  · exact Or.inl hi
  · rcases List.infix_append_iff_ne_nil.1 hi with hi | hi | ⟨u, v, hu, -, rfl, hs, -⟩
    · obtain ⟨x, y, rfl⟩ := hi
      have hs : w ++ y <:+ x ++ w ++ y := ⟨x, by simp⟩
      exact absurd (agree_of_isPrefix List.prefix_rfl (List.prefix_append w y))
        (ends hs (by simp [hw]))
    · exact Or.inr hi
    · exact absurd (agree_of_isPrefix (List.prefix_append u v) List.prefix_rfl) (ends hs hu)
  · exact absurd (agree_of_isPrefix hp (List.prefix_append l b)) (begins ⟨u, rfl⟩ hv)

/-- The template begins and ends with texts, has texts between its fields, and all of them are
apart from `w`. -/
def framed (w : Text) : Template → Bool
  | [.text l] => Text.apart w l
  | .text l :: .field _ :: ps => Text.apart w l && framed w ps
  | .text l :: ps => Text.apart w l && framed w ps
  | _ => false

theorem infix_of_framed {w : Text} (hw : w ≠ []) {template : Template}
    (hf : framed w template = true) (fields : List Text) {a b : Text}
    (hi : w <:+: a ++ (template.flatMap (·.fill fields) ++ b)) :
    w <:+: a ∨ (∃ f ∈ fields, w <:+: f) ∨ w <:+: b := by
  fun_induction framed w template generalizing a with
  | case1 l =>
    rw [List.flatMap_singleton, TemplatePart.fill_text] at hi
    exact (Text.infix_of_apart hw hf hi).imp_right Or.inr
  | case2 l i ps ih =>
    rw [Bool.and_eq_true] at hf
    simp only [List.flatMap_cons, TemplatePart.fill_text, TemplatePart.fill_field,
      List.append_assoc] at hi
    rcases Text.infix_of_apart hw hf.1 hi with hi | hi
    · exact Or.inl hi
    · rcases ih hf.2 hi with hi | hi
      · rcases TemplatePart.fill_field_eq_nil_or_mem fields i with hnil | hmem
        · exact absurd (List.infix_nil.1 (hnil ▸ hi)) hw
        · exact Or.inr (Or.inl ⟨_, hmem, hi⟩)
      · exact Or.inr hi
  | case3 l ps _ _ ih =>
    rw [Bool.and_eq_true] at hf
    simp only [List.flatMap_cons, TemplatePart.fill_text, List.append_assoc] at hi
    rcases Text.infix_of_apart hw hf.1 hi with hi | hi
    · exact Or.inl hi
    · rcases ih hf.2 (a := []) hi with hi | hi
      · exact absurd (List.infix_nil.1 hi) hw
      · exact Or.inr hi
  | case4 => cases hf

theorem Rule.infix_of_infix_apply {r : Rule} (hp : r.pattern.lineStart = false) {w : Text}
    (hw : w ≠ []) (hf : framed w r.template = true) {t : Text} (hi : w <:+: r.apply t) :
    w <:+: t := by
  -- The characters kept so far stand in front, since `w` may begin among them.
  suffices ∀ a, w <:+: a ++ r.apply t → w <:+: a ++ t by simpa using this [] hi
  clear hi
  induction t using r.pattern.scan_induction with
  | nil => exact fun a hi => hi
  | kept c t hm ih =>
    intro a hi
    rw [apply_kept hp hm] at hi
    simpa using ih (a ++ [c]) (by simpa using hi)
  | hit h t hm ih =>
    intro a hi
    rw [apply_hit hp hm] at hi
    rcases infix_of_framed hw hf h.fields hi with hi | ⟨f, hfield, hi⟩ | hi
    · exact List.infix_append_of_infix_left hi
    · have ht := hi.trans ((spells_of_match hm).infix_taken f hfield)
      exact List.infix_append_of_infix_right (List.infix_append_of_infix_left ht)
    · have ht : w <:+: t := by simpa using ih [] hi
      exact List.infix_append_of_infix_right (List.infix_append_of_infix_right ht)

namespace Catalog

/-- The calls whose templates repeat or drop an argument. -/
def reshapingCalls : List Text :=
  ["gs.nil(", "gs.isValid(", "g_form.setDisplay(", "g_form.setReadOnly("]

def modeRules : List Rule := fixedRules.take 5

def lateRules : List Rule := fixedRules.drop 5 ++ closingRules

theorem rules_eq (form : Text) : (documented form ++ closingGroups).flatMap (·.rules) =
    (earlyRules ++ accessRules form ++ modeRules) ++ lateRules := rfl

def isHarmless (r : Rule) : Bool :=
  !r.pattern.lineStart && (reshapingCalls.contains r.pattern.opening ||
    r.conserves && reshapingCalls.all fun w => framed w r.template)

theorem plainRules_harmless : (earlyRules ++ modeRules).all isHarmless = true := by decide +kernel

theorem accessRules_harmless (f : FormType) : (accessRules f.identifier).all isHarmless = true := by
  cases f <;> decide +kernel

theorem frontRules_harmless (f : FormType) :
    (earlyRules ++ accessRules f.identifier ++ modeRules).all isHarmless = true := by
  have hplain := plainRules_harmless
  rw [List.all_append, Bool.and_eq_true] at hplain
  simp only [List.all_append, hplain.1, accessRules_harmless, hplain.2, Bool.and_self]

theorem lateRules_conserve : lateRules.all Rule.conserves = true := by decide +kernel

theorem run_conserves {rs : List Rule} (hrs : rs.all Rule.conserves = true) (t : Text) :
    tracked (Rule.run rs t) = tracked t ∧ balance (Rule.run rs t) = balance t := by
  refine Rule.run_induction (P := fun u => tracked u = tracked t ∧ balance u = balance t)
    (fun r hr u hu => ?_) ⟨rfl, rfl⟩
  obtain ⟨hk, hb⟩ := r.apply_conserves (List.all_eq_true.1 hrs r hr) u
  exact ⟨hk.trans hu.1, hb.trans hu.2⟩

theorem apply_harmless {r : Rule} (hr : isHarmless r = true) {t : Text}
    (ht : ∀ w ∈ reshapingCalls, ¬ w <:+: t) :
    (∀ w ∈ reshapingCalls, ¬ w <:+: r.apply t) ∧
      tracked (r.apply t) = tracked t ∧ balance (r.apply t) = balance t := by
  simp only [isHarmless, Bool.and_eq_true, Bool.not_eq_true', Bool.or_eq_true,
    List.contains_iff_mem, List.all_eq_true] at hr
  obtain ⟨hp, ho | ⟨hc, hf⟩⟩ := hr
  · have heq : r.apply t = t := Rule.apply_of_not_isInfix hp (ht _ ho)
    rw [heq]
    exact ⟨ht, rfl, rfl⟩
  · refine ⟨fun w hw hi => ht w hw ?_, r.apply_conserves hc t⟩
    have hne : w ≠ [] := by rintro rfl; revert hw; decide
    exact Rule.infix_of_infix_apply hp hne (hf w hw) hi

theorem run_harmless {rs : List Rule} (hrs : rs.all isHarmless = true) {t : Text}
    (ht : ∀ w ∈ reshapingCalls, ¬ w <:+: t) :
    tracked (Rule.run rs t) = tracked t ∧ balance (Rule.run rs t) = balance t := by
  -- that there are no reshaping calls is kept along with what is conserved
  refine (Rule.run_induction (P := fun u => (∀ w ∈ reshapingCalls, ¬ w <:+: u) ∧
    tracked u = tracked t ∧ balance u = balance t) (fun r hr u hu => ?_) ⟨ht, rfl, rfl⟩).2
  obtain ⟨hi, hk, hb⟩ := apply_harmless (List.all_eq_true.1 hrs r hr) hu.1
  exact ⟨hi, hk.trans hu.2.1, hb.trans hu.2.2⟩

/-- A text without reshaping calls keeps its surplus of parentheses, and its braces and
characters beyond ASCII in their order, through all groups of the catalog. -/
theorem applyAll_conserves (f : FormType) (t : Text) (ht : ∀ w ∈ reshapingCalls, ¬ w <:+: t) :
    balance (applyAll (documented f.identifier ++ closingGroups) t) = balance t ∧
      tracked (applyAll (documented f.identifier ++ closingGroups) t) = tracked t := by
  obtain ⟨hk, hb⟩ := run_harmless (frontRules_harmless f) ht
  obtain ⟨hks, hbs⟩ := run_conserves lateRules_conserve
    (Rule.run (earlyRules ++ accessRules f.identifier ++ modeRules) t)
  rw [applyAll_eq_run, rules_eq, Rule.run_append]
  exact ⟨hbs.trans hb, hks.trans hk⟩

theorem applyAll_conserves_nested_call :
    (∀ w ∈ reshapingCalls, ¬ w <:+: "gs.log((é \x7b g_form.getValue('a'));\x7d".toList) ∧
      tracked (applyAll (documented FormType.mainFormGroup.identifier ++ closingGroups)
        "gs.log((é \x7b g_form.getValue('a'));\x7d") = ['é', '{', '}'] := by
  have h : ∀ w ∈ reshapingCalls, ¬ w <:+: "gs.log((é \x7b g_form.getValue('a'));\x7d".toList := by
    decide +kernel
  exact ⟨h, (applyAll_conserves .mainFormGroup _ h).2.trans (by decide +kernel)⟩

end Catalog

end GlideBridge
