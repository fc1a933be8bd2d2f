import GlideBridge.Conversion.Basic
import GlideBridge.Proofs.CallSites

/-! Changes of layout: semicolons and blanks that go at the ends of lines, and blanks that come in
front of lines. They leave every text of one line that ends in a parenthesis where it was, so all
calls of a text are still there, in the same order, and a comment mark in front of a call stays
in front of it. -/

namespace GlideBridge

namespace Text

theorem infix_append_cons {x : Char} {w a b : Text} (hw : x ∉ w) (h : w <:+: a ++ x :: b) :
    w <:+: a ∨ w <:+: b := by
  have hcons {v y : Text} (hv : v ≠ []) (hx : x ∉ v) : ¬ v <+: x :: y := by
    obtain ⟨c, v, rfl⟩ := List.exists_cons_of_ne_nil hv
    intro hp
    exact hx ((List.cons_prefix_cons.1 hp).1 ▸ List.mem_cons_self)
  rcases List.infix_append_iff_ne_nil.1 h with h | h | ⟨u, v, -, hv, rfl, -, hp⟩
  · exact Or.inl h
  · by_cases hne : w = []
    · exact Or.inl (hne ▸ List.nil_infix)
    · exact Or.inr ((List.infix_cons_iff.1 h).resolve_left (hcons hne hw))
  · exact absurd hp (hcons hv fun hx => hw (List.mem_append_right u hx))

theorem infix_of_infix_append {w a b : Text} (hw : ∀ c ∈ a, c ∉ w) (h : w <:+: a ++ b) :
    w <:+: b := by
  induction a with
  | nil => exact h
  | cons c a ih =>
    rcases infix_append_cons (a := []) (hw c List.mem_cons_self) h with h | h
    · exact List.infix_nil.1 h ▸ List.nil_infix
    · exact ih (fun d hd => hw d (List.mem_cons_of_mem c hd)) h

end Text

inductive Relaid : Text → Text → Prop
  | nil : Relaid [] []
  | keep {t u : Text} (c : Char) : Relaid t u → Relaid (c :: t) (c :: u)
  | drop {c : Char} {t u : Text} : c = ';' ∨ Text.isBlank c = true → (∀ d ∈ u.head?, d = '\n') →
      Relaid t u → Relaid (c :: t) u
  | indent {unit t u : Text} : (∀ c ∈ unit, Text.isBlank c = true) → Relaid t u →
      Relaid ('\n' :: t) ('\n' :: (unit ++ u))

namespace Relaid

theorem prefix_iff {t u : Text} (h : Relaid t u) {w : Text} (hsemi : ';' ∉ w) (hline : '\n' ∉ w) :
    w ++ ['('] <+: t ↔ w ++ ['('] <+: u := by
  induction h generalizing w with
  | nil => rfl
  | @keep t u c _ ih =>
    cases w with
    | nil => simp [List.cons_prefix_cons]
    | cons d w =>
      rw [List.cons_append, List.cons_prefix_cons, List.cons_prefix_cons,
        ih (fun h => hsemi (List.mem_cons_of_mem d h)) (fun h => hline (List.mem_cons_of_mem d h))]
  | @drop c t u hc hu _ ih =>
    -- a line break or nothing stands behind what is dropped
    have hnot {v : Text} (hv : '\n' ∉ v) : ¬ v ++ ['('] <+: u := by
      rintro ⟨x, rfl⟩
      cases v with
      | nil => exact absurd (hu _ rfl) (by decide)
      | cons d v => exact hv ((hu d rfl) ▸ List.mem_cons_self)
    refine iff_of_false (fun hp => ?_) (hnot hline)
    cases w with
    | nil =>
      obtain rfl := (List.cons_prefix_cons.1 hp).1
      exact absurd hc (by decide)
    | cons d w =>
      obtain ⟨rfl, hp'⟩ := List.cons_prefix_cons.1 hp
      have hline : '\n' ∉ w := fun h => hline (List.mem_cons_of_mem d h)
      exact hnot hline ((ih (fun h => hsemi (List.mem_cons_of_mem d h)) hline).1 hp')
  | @indent unit t u _ _ _ =>
    cases w with
    | nil => simp [List.cons_prefix_cons]
    | cons d w =>
      have hd : d ≠ '\n' := fun h => hline (h ▸ List.mem_cons_self)
      simp [List.cons_prefix_cons, hd]

theorem callText_prefix_iff {t u : Text} (h : Relaid t u) {s : CallSpace} {name : Text}
    (hn : CallSpace.IsName name) : s.callText name <+: t ↔ s.callText name <+: u := by
  have hout (c : Char) (hc : c.isAlpha = false) (ho : c ∉ s.opening) : c ∉ s.opening ++ name := by
    simp [ho, CallSpace.not_mem_name hn hc]
  rw [CallSpace.callText, ← List.append_assoc]
  exact h.prefix_iff (hout ';' (by decide) (by cases s <;> decide))
    (hout '\n' (by decide) (by cases s <;> decide))

theorem callAt?_eq {t u : Text} (h : Relaid t u) (s : CallSpace) : s.callAt? t = s.callAt? u :=
  CallSpace.callAt?_congr fun _ hn => h.callText_prefix_iff hn

theorem ne_of_blank {c : Char} (hc : Text.isBlank c = true) : c ≠ 'g' := by
  rintro rfl
  exact absurd hc (by decide)

theorem calls_blank_append {s : CallSpace} {w : Text} (hw : ∀ c ∈ w, Text.isBlank c = true)
    (t : Text) : s.calls (w ++ t) = s.calls t := by
  induction w with
  | nil => rfl
  | cons c w ih =>
    rw [List.cons_append, CallSpace.calls_cons_of_ne (ne_of_blank (hw c List.mem_cons_self)),
      ih fun d hd => hw d (List.mem_cons_of_mem c hd)]

theorem calls_eq {t u : Text} (h : Relaid t u) (s : CallSpace) : s.calls t = s.calls u := by
  induction h with
  | nil => rfl
  | @keep t u c h ih => rw [CallSpace.calls, CallSpace.calls, (h.keep c).callAt?_eq s, ih]
  | @drop c t u hc _ _ ih =>
    have hg : c ≠ 'g' := hc.elim (fun h => h ▸ by decide) ne_of_blank
    rw [CallSpace.calls_cons_of_ne hg, ih]
  | @indent unit t u hunit _ ih =>
    rw [CallSpace.calls_cons_of_ne (by decide), CallSpace.calls_cons_of_ne (by decide),
      calls_blank_append hunit, ih]

theorem starts_iff {t u : Text} (h : Relaid t u) (s : CallSpace) : s.Starts t ↔ s.Starts u := by
  constructor
  · rintro ⟨name, hn, hp⟩
    exact ⟨name, hn, (h.callText_prefix_iff hn).1 hp⟩
  · rintro ⟨name, hn, hp⟩
    exact ⟨name, hn, (h.callText_prefix_iff hn).2 hp⟩

theorem marked_blank_append {s : CallSpace} {w : Text} (hw : ∀ c ∈ w, Text.isBlank c = true)
    {t : Text} (ht : s.Marked t) : s.Marked (w ++ t) := by
  induction w with
  | nil => exact ht
  | cons c w ih =>
    exact .plain (CallSpace.not_starts_cons (ne_of_blank (hw c List.mem_cons_self)) _)
      (ih fun d hd => hw d (List.mem_cons_of_mem c hd))

theorem of_cons {c : Char} (hsemi : c ≠ ';') (hblank : Text.isBlank c = false) {t u : Text}
    (h : Relaid (c :: t) u) : ∃ v, u = c :: v ∧ Relaid t v := by
  cases h with
  | keep _ h => exact ⟨_, rfl, h⟩
  | drop hc => simp [hsemi, hblank] at hc
  | indent => exact absurd hblank (by decide)

theorem of_space {t u : Text} (h : Relaid (' ' :: 'g' :: t) u) :
    ∃ v, u = ' ' :: 'g' :: v ∧ Relaid t v := by
  cases h with
  | keep _ h =>
    obtain ⟨v, rfl, hv⟩ := h.of_cons (by decide) (by decide)
    exact ⟨v, rfl, hv⟩
  | drop _ hu h =>
    obtain ⟨v, rfl, -⟩ := h.of_cons (by decide) (by decide)
    exact absurd (hu 'g' rfl) (by decide)

theorem marked {s : CallSpace} {t u : Text} (ht : s.Marked t) (h : Relaid t u) : s.Marked u := by
  induction ht generalizing u with
  | nil => cases h; exact .nil
  | @plain c t hc _ ih =>
    cases h with
    | keep _ h => exact .plain (fun hs => hc (((h.keep c).starts_iff s).2 hs)) (ih h)
    | drop _ _ h => exact ih h
    | indent hunit h =>
      exact .plain (CallSpace.not_starts_cons (by decide) _) (marked_blank_append hunit (ih h))
  | @call t _ ih =>
    obtain ⟨v, rfl, h₁⟩ := h.of_cons (by decide) (by decide)
    obtain ⟨w, rfl, h₂⟩ := h₁.of_cons (by decide) (by decide)
    obtain ⟨x, rfl, h₃⟩ := h₂.of_space
    exact .call (ih h₃)

theorem drop_append {w t u : Text} (hw : ∀ c ∈ w, c = ';' ∨ Text.isBlank c = true)
    (hu : ∀ d ∈ u.head?, d = '\n') (h : Relaid t u) : Relaid (w ++ t) u := by
  induction w with
  | nil => exact h
  | cons c w ih =>
    exact .drop (hw c List.mem_cons_self) hu (ih fun d hd => hw d (List.mem_cons_of_mem c hd))

theorem isPrefix_back {t u w : Text} (h : Relaid t u) (hw : ∀ c ∈ w, Text.isBlank c = false)
    (hp : w <+: u) : w <+: t := by
  induction h generalizing w with
  | nil => exact hp
  | @keep t u c _ ih =>
    cases w with
    | nil => exact List.nil_prefix
    | cons d w =>
      obtain ⟨rfl, hp'⟩ := List.cons_prefix_cons.1 hp
      exact List.cons_prefix_cons.2 ⟨rfl, ih (fun c hc => hw c (List.mem_cons_of_mem d hc)) hp'⟩
  | @drop c t u _ hu _ _ =>
    cases w with
    | nil => exact List.nil_prefix
    | cons d w =>
      obtain ⟨v, rfl⟩ := hp
      obtain rfl : d = '\n' := hu d rfl
      exact absurd (hw '\n' List.mem_cons_self) (by decide)
  | indent _ _ _ =>
    cases w with
    | nil => exact List.nil_prefix
    | cons d w =>
      obtain ⟨rfl, -⟩ := List.cons_prefix_cons.1 hp
      exact absurd (hw '\n' List.mem_cons_self) (by decide)

theorem isInfix_back {t u w : Text} (h : Relaid t u) (hw : ∀ c ∈ w, Text.isBlank c = false)
    (hi : w <:+: u) : w <:+: t := by
  induction h with
  | nil => exact hi
  | @keep t u c h ih =>
    rcases List.infix_cons_iff.1 hi with hp | hi
    · exact ((h.keep c).isPrefix_back hw hp).isInfix
    · exact (ih hi).trans (List.suffix_cons c t).isInfix
  | @drop c t u _ _ _ ih => exact (ih hi).trans (List.suffix_cons c t).isInfix
  | @indent unit t u hunit _ ih =>
    have hblank : ∀ c ∈ '\n' :: unit, c ∉ w := by
      intro c hc hm
      have : Text.isBlank c = true := (List.mem_cons.1 hc).elim (fun h => h ▸ by decide) (hunit c)
      rw [hw c hm] at this
      cases this
    have hu : w <:+: u := Text.infix_of_infix_append (a := '\n' :: unit) hblank hi
    exact (ih hu).trans (List.suffix_cons '\n' t).isInfix

end Relaid

namespace Catalog

def cleanupRule : Rule := ⟨{ opening := [';'], pieces := [.many .blank, .lineEnd] }, []⟩

theorem cleanupGroup_apply (t : Text) : cleanupGroup.apply t = cleanupRule.apply t := rfl

theorem cleanup_hit {t : Text} {h : Hit}
    (hm : matchPieces cleanupRule.pattern.steps t = some h) :
    ∃ w u, t = ';' :: (w ++ u) ∧ (∀ c ∈ w, Text.isBlank c = true) ∧ (∀ d ∈ u.head?, d = '\n') ∧
      h = ⟨';' :: w, []⟩ := by
  obtain ⟨v, g, rfl, hg, rfl⟩ := matchPieces_literal_eq_some_iff.1 hm
  obtain ⟨w, u, f, rfl, hw, hf, rfl⟩ := exists_of_matchPieces_many hg
  refine ⟨w, u, rfl, hw, ?_⟩
  cases u with
  | nil => cases hf; exact ⟨by simp, by simp [Hit.after, cleanupRule]⟩
  | cons d u =>
    rw [matchPieces] at hf
    split at hf
    · next hd => cases hf; exact ⟨by simpa using hd, by simp [Hit.after, cleanupRule]⟩
    · cases hf

theorem cleanup_head {t u : Text} (h : cleanupRule.Rewrites t u) (ht : ∀ d ∈ t.head?, d = '\n') :
    ∀ d ∈ u.head?, d = '\n' := by
  cases h with
  | nil => simp
  | kept _ _ => simpa using ht
  | hit hm _ =>
    obtain ⟨w, v, hv, -⟩ := cleanup_hit hm
    rw [hv] at ht
    exact absurd (ht ';' rfl) (by decide)

theorem relaid_cleanup (t : Text) : Relaid t (cleanupGroup.apply t) := by
  rw [cleanupGroup_apply]
  have h := Rule.rewrites_apply (r := cleanupRule) rfl t
  generalize cleanupRule.apply t = u at h ⊢
  induction h with
  | nil => exact .nil
  | @kept c t u _ _ ih => exact .keep c ih
  | @hit h t u hm hr ih =>
    obtain ⟨w, v, ht, hw, hv, rfl⟩ := cleanup_hit hm
    obtain rfl := List.append_cancel_left (show ';' :: w ++ t = ';' :: w ++ v from ht)
    refine Relaid.drop_append (fun c hc => ?_) (cleanup_head hr hv) ih
    rcases List.mem_cons.1 hc with rfl | hc
    · exact Or.inl rfl
    · exact Or.inr (hw c hc)

end Catalog

namespace Text

theorem joinLines_append_cons (a l : Text) (ls : List Text) :
    joinLines ((a ++ l) :: ls) = a ++ joinLines (l :: ls) := by
  cases ls with
  | nil => simp [joinLines]
  | cons m ls => simp [joinLines_cons]

theorem indent_eq (unit t : Text) :
    indent unit t = unit ++ t.flatMap fun c => if c = '\n' then '\n' :: unit else [c] := by
  induction t with
  | nil => simp [indent, lines, joinLines]
  | cons c t ih =>
    rw [indent] at ih ⊢
    rw [lines, List.flatMap_cons]
    split
    · next hc =>
      rw [List.map_cons, joinLines_cons _ (by simp [lines_ne_nil]), ih]
      simp
    · cases hl : lines t with
      | nil => exact absurd hl (lines_ne_nil t)
      | cons l ls =>
        rw [hl, List.map_cons, joinLines_append_cons] at ih
        have ht := List.append_cancel_left ih
        have hc := joinLines_append_cons [c] l (ls.map (unit ++ ·))
        rw [ht] at hc
        simp only [List.map_cons, joinLines_append_cons]
        exact congrArg (unit ++ ·) hc

theorem relaid_flatMap {unit : Text} (hunit : ∀ c ∈ unit, isBlank c = true) (t : Text) :
    Relaid t (t.flatMap fun c => if c = '\n' then '\n' :: unit else [c]) := by
  induction t with
  | nil => exact .nil
  | cons c t ih =>
    rw [List.flatMap_cons]
    split
    · next hc =>
      subst hc
      exact .indent hunit ih
    · exact .keep c ih

/-- The line break in front stands for the one that a heading leaves. -/
theorem relaid_indent {unit : Text} (hunit : ∀ c ∈ unit, isBlank c = true) (t : Text) :
    Relaid ('\n' :: t) ('\n' :: indent unit t) := by
  rw [indent_eq]
  exact .indent hunit (relaid_flatMap hunit t)

theorem infix_of_infix_indent {unit w t : Text} (hunit : ∀ c ∈ unit, isBlank c = true)
    (hw : ∀ c ∈ w, isBlank c = false) (h : w <:+: indent unit t) : w <:+: t := by
  have hline : ∀ c ∈ ['\n'], c ∉ w := by
    intro c hc hm
    obtain rfl := List.mem_singleton.1 hc
    exact absurd (hw _ hm) (by decide)
  refine infix_of_infix_append (a := ['\n']) hline ((relaid_indent hunit t).isInfix_back hw ?_)
  exact h.trans (List.suffix_cons '\n' _).isInfix

end Text

end GlideBridge
