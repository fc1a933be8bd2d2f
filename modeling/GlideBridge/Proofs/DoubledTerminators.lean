import GlideBridge.Proofs.Terminators
import Mathlib.Logic.Function.Iterate

/-! Cleaning up once and again. A text stays as it is exactly if none of its semicolons ends its
line. A semicolon that stands in front of another one, with only blanks of their line between them,
does not end the line as long as the other one is there. When that one goes, it does, and goes the
next time; so one time is enough exactly if no line ends in two semicolons. -/

namespace GlideBridge

open Text

namespace Text

/-- No semicolon of the text ends its line. -/
def Settled (t : Text) : Prop := ∀ before after, t = before ++ ';' :: after → ¬ EndsLine after

def LeadsToEnd (t : Text) : Prop := ∃ w after, t = w ++ ';' :: after ∧
  (∀ c ∈ w, isBlank c = true) ∧ '\n' ∉ w ∧ EndsLine after

/-- A semicolon that ends its line stands behind another one, with only blanks between them. -/
def Doubled (t : Text) : Prop := ∃ before after, t = before ++ ';' :: after ∧ LeadsToEnd after

theorem endsLine_cons_blank_iff {c : Char} (hc : isBlank c = true) (hne : c ≠ '\n') {t : Text} :
    EndsLine (c :: t) ↔ EndsLine t := by
  simp [EndsLine, leading, hc, Ne.symm hne]

theorem endsLine_line_break (t : Text) : EndsLine ('\n' :: t) :=
  endsLine_append_line_break (w := []) (by simp) t

theorem settled_nil : Settled [] := by
  rintro before after h
  simp at h

theorem settled_cons_iff {c : Char} {t : Text} :
    Settled (c :: t) ↔ (c = ';' → ¬ EndsLine t) ∧ Settled t := by
  constructor
  · refine fun h => ⟨fun hc => h [] t (by rw [hc, List.nil_append]), fun before after ht => ?_⟩
    exact h (c :: before) after (by rw [ht, List.cons_append])
  · rintro ⟨hhead, htail⟩ before after h
    cases before with
    | nil =>
      obtain ⟨rfl, rfl⟩ := List.cons.inj h
      exact hhead rfl
    | cons d before => exact htail before after (List.cons.inj h).2

theorem settled_of_not_mem {t : Text} (ht : ';' ∉ t) : Settled t := by
  rintro before after rfl
  exact absurd (by simp) ht

theorem doubled_cons_iff {c : Char} {t : Text} :
    Doubled (c :: t) ↔ (c = ';' ∧ LeadsToEnd t) ∨ Doubled t := by
  constructor
  · rintro ⟨before, after, h, hend⟩
    cases before with
    | nil =>
      obtain ⟨rfl, rfl⟩ := List.cons.inj h
      exact Or.inl ⟨rfl, hend⟩
    | cons d before => exact Or.inr ⟨before, after, (List.cons.inj h).2, hend⟩
  · rintro (⟨rfl, hend⟩ | ⟨before, after, rfl, hend⟩)
    · exact ⟨[], t, rfl, hend⟩
    · exact ⟨c :: before, after, rfl, hend⟩

theorem doubled_append_iff {w : Text} (hw : ';' ∉ w) (t : Text) :
    Doubled (w ++ t) ↔ Doubled t := by
  induction w with
  | nil => rfl
  | cons c w ih =>
    rw [List.mem_cons, not_or] at hw
    rw [List.cons_append, doubled_cons_iff, ih hw.2]
    exact or_iff_right fun h => hw.1 h.1.symm

theorem not_doubled_of_not_mem {t : Text} (ht : ';' ∉ t) : ¬ Doubled t := by
  rintro ⟨before, after, rfl, -⟩
  exact absurd (by simp) ht

theorem leadsToEnd_cons_semicolon_iff {t : Text} : LeadsToEnd (';' :: t) ↔ EndsLine t := by
  constructor
  · rintro ⟨w, after, h, hw, -, hend⟩
    cases w with
    | nil => exact (List.cons.inj h).2 ▸ hend
    | cons c w =>
      obtain rfl := (List.cons.inj h).1
      exact absurd List.mem_cons_self (semicolon_not_mem_of_blank hw)
  · exact fun h => ⟨[], t, rfl, by simp, by simp, h⟩

theorem leadsToEnd_cons_blank_iff {c : Char} (hc : isBlank c = true) (hne : c ≠ '\n') {t : Text} :
    LeadsToEnd (c :: t) ↔ LeadsToEnd t := by
  constructor
  · rintro ⟨w, after, h, hw, hline, hend⟩
    cases w with
    | nil =>
      obtain rfl := (List.cons.inj h).1
      exact absurd hc (by decide)
    | cons d w =>
      exact ⟨w, after, (List.cons.inj h).2, fun e he => hw e (List.mem_cons_of_mem d he),
        fun he => hline (List.mem_cons_of_mem d he), hend⟩
  · rintro ⟨w, after, rfl, hw, hline, hend⟩
    refine ⟨c :: w, after, rfl, List.forall_mem_cons.2 ⟨hc, hw⟩, ?_, hend⟩
    rw [List.mem_cons, not_or]
    exact ⟨Ne.symm hne, hline⟩

theorem LeadsToEnd.opensLine {t : Text} (h : LeadsToEnd t) : OpensLine t := by
  obtain ⟨w, after, rfl, hw, hline, -⟩ := h
  exact opensLine_append hw hline (by decide) after

end Text

namespace Catalog

theorem Cleans.eq_self_iff {t u : Text} (h : Cleans t u) : u = t ↔ Settled t := by
  induction h with
  | nil => simp [settled_nil]
  | other hc _ ih => simp [settled_cons_iff, hc, ih]
  | inner ht _ ih => simp [settled_cons_iff, ht.not_endsLine, ih]
  | last hw =>
    refine iff_of_false (by simp) fun h => ?_
    exact (settled_cons_iff.1 h).1 rfl (Or.inl hw)
  | line hw _ _ _ =>
    refine iff_of_false (by simp) fun h => ?_
    exact (settled_cons_iff.1 h).1 rfl (endsLine_append_line_break hw _)

theorem cleanup_eq_self_iff {t : Text} : cleanupRule.apply t = t ↔ Settled t :=
  (cleans t).eq_self_iff

theorem Cleans.endsLine_iff {t u : Text} (h : Cleans t u) (ht : OpensLine t) :
    EndsLine u ↔ LeadsToEnd t := by
  -- On the blanks in front of the first visible character, which decides the rest.
  induction ht generalizing u with
  | @visible c t hc =>
    cases h with
    | other hne _ =>
      refine iff_of_false (OpensLine.visible hc).not_endsLine ?_
      rintro ⟨w, after, h, hw, -, -⟩
      cases w with
      | nil => exact hne (List.cons.inj h).1
      | cons d w =>
        obtain rfl := (List.cons.inj h).1
        rw [hw c List.mem_cons_self] at hc
        cases hc
    | inner ht _ =>
      rw [leadsToEnd_cons_semicolon_iff]
      exact iff_of_false (OpensLine.visible (by decide)).not_endsLine ht.not_endsLine
    | last hw =>
      rw [leadsToEnd_cons_semicolon_iff]
      exact iff_of_true (Or.inl (by simp)) (Or.inl hw)
    | line hw _ _ =>
      rw [leadsToEnd_cons_semicolon_iff]
      exact iff_of_true (endsLine_line_break _) (endsLine_append_line_break hw _)
  | blank hc hne _ ih =>
    cases h with
    | other _ h =>
      rw [endsLine_cons_blank_iff hc hne, leadsToEnd_cons_blank_iff hc hne]
      exact ih h
    | inner _ _ | last _ | line _ _ _ => exact absurd hc (by decide)

theorem Cleans.settled_iff {t u : Text} (h : Cleans t u) : Settled u ↔ ¬ Doubled t := by
  induction h with
  | nil => exact iff_of_true settled_nil (not_doubled_of_not_mem (by simp))
  | other hc _ ih => simp [settled_cons_iff, doubled_cons_iff, hc, ih]
  | @inner t u ht h ih =>
    rw [settled_cons_iff, doubled_cons_iff, h.endsLine_iff ht]
    simp [ih]
  | @last w hw =>
    refine iff_of_true settled_nil fun h => ?_
    rcases doubled_cons_iff.1 h with ⟨-, hend⟩ | h
    · exact hend.opensLine.not_endsLine (Or.inl hw)
    · exact not_doubled_of_not_mem (semicolon_not_mem_of_blank hw) h
  | @line w v u hw hv _ ih =>
    have hhead : ¬ LeadsToEnd (w ++ '\n' :: v) := fun h =>
      h.opensLine.not_endsLine (endsLine_append_line_break hw v)
    rw [settled_cons_iff, doubled_cons_iff, doubled_append_iff (semicolon_not_mem_of_blank hw),
      doubled_cons_iff]
    simp [hhead, ih]

theorem Cleans.count_le {t u : Text} (h : Cleans t u) : u.count ';' ≤ t.count ';' := by
  rw [h.eq_dropPlaces]
  exact (dropPlaces_sublist _ t).count_le ';'

theorem Cleans.count_lt {t u : Text} (h : Cleans t u) (ht : ¬ Settled t) :
    u.count ';' < t.count ';' := by
  induction h with
  | nil => exact absurd settled_nil ht
  | other hc _ ih =>
    rw [List.count_cons_of_ne hc, List.count_cons_of_ne hc]
    exact ih fun h => ht (settled_cons_iff.2 ⟨fun h => absurd h hc, h⟩)
  | inner hopen _ ih =>
    rw [List.count_cons_self, List.count_cons_self]
    exact Nat.succ_lt_succ (ih fun h => ht (settled_cons_iff.2 ⟨fun _ => hopen.not_endsLine, h⟩))
  | last _ =>
    rw [List.count_cons_self]
    exact Nat.succ_pos _
  | line _ _ h _ =>
    rw [List.count_cons_self, List.count_append, List.count_cons_of_ne (by decide),
      List.count_cons_of_ne (by decide)]
    exact Nat.lt_succ_of_le (Nat.le_add_left_of_le h.count_le)

theorem settled_iterate_cleanup {n : ℕ} {t : Text} (ht : t.count ';' ≤ n) :
    Settled (cleanupRule.apply^[n] t) := by
  induction n generalizing t with
  | zero => exact settled_of_not_mem (List.count_eq_zero.1 (Nat.le_zero.1 ht))
  | succ n ih =>
    by_cases h : Settled t
    · rwa [Function.iterate_fixed (cleanup_eq_self_iff.2 h)]
    · have hlt := (cleans t).count_lt h
      exact ih (by omega)

/-- Cleaning up a second time changes nothing exactly if the first time has left no semicolon at
the end of a line, which is so exactly if no line of the text ends in two semicolons with only
blanks between them. As many times as the text has semicolons are always enough. -/
theorem cleanupGroup_idempotent_iff (t : Text) :
    (cleanupGroup.apply (cleanupGroup.apply t) = cleanupGroup.apply t ↔
        Settled (cleanupGroup.apply t)) ∧
      (Settled (cleanupGroup.apply t) ↔ ¬ Doubled t) ∧
      Settled (cleanupGroup.apply^[t.count ';'] t) :=
  ⟨cleanup_eq_self_iff, (cleans t).settled_iff, settled_iterate_cleanup (Nat.le_refl _)⟩

/-- Of two semicolons at the end of a line, each time takes one. -/
theorem cleanup_twice_ne_once :
    cleanupGroup.apply "f();;" = "f();".toList ∧
      cleanupGroup.apply (cleanupGroup.apply "f();;") = "f()".toList ∧
      cleanupGroup.apply (cleanupGroup.apply "f();;") ≠ cleanupGroup.apply "f();;" ∧
      ¬ Settled (cleanupGroup.apply "f();;") := by
  have honce : cleanupGroup.apply "f();;" = "f();".toList := by decide +kernel
  have htwice : cleanupGroup.apply "f();" = "f()".toList := by decide +kernel
  have hne : "f()".toList ≠ "f();".toList := by decide +kernel
  rw [honce]
  exact ⟨rfl, htwice, htwice ▸ hne, fun h => hne (htwice ▸ cleanup_eq_self_iff.2 h)⟩

end Catalog

end GlideBridge
