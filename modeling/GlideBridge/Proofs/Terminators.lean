import GlideBridge.Proofs.CommentLines

/-! Semicolons at the ends of lines. Cleaning up drops each semicolon that has nothing but blanks
behind it up to a line break or to the end of the text, with those of the blanks that stand in front
of the last line break among them. So blank lines behind a semicolon go as well, but a line with
something on it stays a line of its own, with the blanks that it begins with. -/

namespace GlideBridge

open Text

namespace Text

def leading (t : Text) : Text := t.takeWhile isBlank

/-- A semicolon in front of the text ends its line: the blanks behind it reach the end of the text
or hold a line break. -/
def EndsLine (t : Text) : Prop := (∀ c ∈ t, isBlank c = true) ∨ '\n' ∈ leading t

instance (t : Text) : Decidable (EndsLine t) :=
  inferInstanceAs (Decidable ((∀ c ∈ t, isBlank c = true) ∨ '\n' ∈ leading t))

def beforeLastBreak : Text → Text
  | [] => []
  | c :: t => if '\n' ∈ t then c :: beforeLastBreak t else []

/-- The blanks that go with a semicolon in front of the text: all of them at the end of the text,
otherwise those in front of the last line break. -/
def lostBlanks (t : Text) : Text :=
  if ∀ c ∈ t, isBlank c = true then t else beforeLastBreak (leading t)

/-- The place is that of a semicolon that ends its line, or of a blank that goes with one. -/
def IsDropped (t : Text) (i : ℕ) : Prop :=
  ∃ j ≤ i, t[j]? = some ';' ∧ EndsLine (t.drop (j + 1)) ∧
    i ≤ j + (lostBlanks (t.drop (j + 1))).length

instance (t : Text) (i : ℕ) : Decidable (IsDropped t i) :=
  inferInstanceAs (Decidable (∃ j ≤ i, t[j]? = some ';' ∧ EndsLine (t.drop (j + 1)) ∧
    i ≤ j + (lostBlanks (t.drop (j + 1))).length))

def dropPlaces (p : ℕ → Prop) [DecidablePred p] (t : Text) : Text :=
  (t.zipIdx.filter fun x => ¬ p x.2).map Prod.fst

theorem beforeLastBreak_append {y : Text} (hy : '\n' ∉ y) (x : Text) :
    beforeLastBreak (x ++ '\n' :: y) = x := by
  induction x with
  | nil => exact if_neg hy
  | cons c x ih => rw [List.cons_append, beforeLastBreak, if_pos (by simp), ih]

inductive OpensLine : Text → Prop
  | visible {c : Char} {t : Text} : isBlank c = false → OpensLine (c :: t)
  | blank {c : Char} {t : Text} : isBlank c = true → c ≠ '\n' → OpensLine t → OpensLine (c :: t)

theorem opensLine_append {w : Text} (hw : ∀ c ∈ w, isBlank c = true) (hline : '\n' ∉ w) {c : Char}
    (hc : isBlank c = false) (t : Text) : OpensLine (w ++ c :: t) := by
  induction w with
  | nil => exact .visible hc
  | cons d w ih =>
    rw [List.forall_mem_cons] at hw
    rw [List.mem_cons, not_or] at hline
    exact .blank hw.1 (Ne.symm hline.1) (ih hw.2 hline.2)

theorem OpensLine.append {t : Text} (h : OpensLine t) (u : Text) : OpensLine (t ++ u) := by
  induction h with
  | visible hc => exact .visible hc
  | blank hc hne _ ih => exact .blank hc hne ih

theorem OpensLine.exists_visible {t : Text} (h : OpensLine t) : ∃ c ∈ t, isBlank c = false := by
  induction h with
  | @visible c t hc => exact ⟨c, List.mem_cons_self, hc⟩
  | @blank c t _ _ _ ih =>
    obtain ⟨d, hd, hvisible⟩ := ih
    exact ⟨d, List.mem_cons_of_mem c hd, hvisible⟩

theorem OpensLine.line_not_mem_leading {t : Text} (h : OpensLine t) : '\n' ∉ leading t := by
  induction h with
  | visible hc => simp [leading, hc]
  | blank hc hne _ ih => simpa [leading, hc, Ne.symm hne] using ih

theorem OpensLine.not_endsLine {t : Text} (h : OpensLine t) : ¬ EndsLine t := by
  rintro (hblank | hline)
  · obtain ⟨c, hc, hvisible⟩ := h.exists_visible
    rw [hblank c hc] at hvisible
    cases hvisible
  · exact h.line_not_mem_leading hline

theorem blank_or_opensLine (t : Text) : (∀ c ∈ t, isBlank c = true) ∨ OpensLine t ∨
    ∃ w v, t = w ++ '\n' :: v ∧ (∀ c ∈ w, isBlank c = true) ∧ OpensLine v := by
  induction t with
  | nil => exact Or.inl (by simp)
  | cons c t ih =>
    cases hc : isBlank c with
    | false => exact Or.inr (Or.inl (.visible hc))
    | true =>
      rcases ih with hblank | hopen | ⟨w, v, rfl, hw, hv⟩
      · exact Or.inl (List.forall_mem_cons.2 ⟨hc, hblank⟩)
      · by_cases hne : c = '\n'
        · exact Or.inr (Or.inr ⟨[], t, by rw [hne, List.nil_append], by simp, hopen⟩)
        · exact Or.inr (Or.inl (.blank hc hne hopen))
      · exact Or.inr (Or.inr ⟨c :: w, v, rfl, List.forall_mem_cons.2 ⟨hc, hw⟩, hv⟩)

section Ends

variable {w v : Text} (hw : ∀ c ∈ w, isBlank c = true)

include hw

theorem semicolon_not_mem_of_blank : ';' ∉ w := fun h => absurd (hw ';' h) (by decide)

theorem leading_append_line_break (v : Text) :
    leading (w ++ '\n' :: v) = w ++ '\n' :: leading v := by
  rw [leading, List.takeWhile_append_of_pos hw, List.takeWhile_cons_of_pos (by decide), leading]

theorem endsLine_append_line_break (v : Text) : EndsLine (w ++ '\n' :: v) :=
  Or.inr (by simp [leading_append_line_break hw])

theorem lostBlanks_of_blank : lostBlanks w = w := if_pos hw

theorem lostBlanks_append_line_break (hv : OpensLine v) : lostBlanks (w ++ '\n' :: v) = w := by
  obtain ⟨c, hc, hvisible⟩ := hv.exists_visible
  have hnot : ¬ ∀ c ∈ w ++ '\n' :: v, isBlank c = true := fun h => by
    rw [h c (by simp [hc])] at hvisible
    cases hvisible
  rw [lostBlanks, if_neg hnot, leading_append_line_break hw,
    beforeLastBreak_append hv.line_not_mem_leading]

end Ends

section Places

variable {p q : ℕ → Prop} [DecidablePred p] [DecidablePred q]

theorem dropPlaces_cons (p : ℕ → Prop) [DecidablePred p] (c : Char) (t : Text) :
    dropPlaces p (c :: t) =
      if p 0 then dropPlaces (fun i => p (i + 1)) t
      else c :: dropPlaces (fun i => p (i + 1)) t := by
  have hshift : ((t.zipIdx 1).filter fun x => ¬ p x.2).map Prod.fst =
      dropPlaces (fun i => p (i + 1)) t := by
    rw [List.zipIdx_succ, List.filter_map, List.map_map]
    rfl
  rw [dropPlaces, List.zipIdx_cons, List.filter_cons, ← hshift]
  by_cases h : p 0 <;> simp [h]

theorem dropPlaces_congr {t : Text} (h : ∀ i, p i ↔ q i) : dropPlaces p t = dropPlaces q t := by
  simp only [dropPlaces, h]

theorem dropPlaces_append_of_dropped {w : Text} (hw : ∀ i < w.length, p i) (t : Text) :
    dropPlaces p (w ++ t) = dropPlaces (fun i => p (w.length + i)) t := by
  induction w generalizing p with
  | nil => exact dropPlaces_congr fun i => by simp
  | cons c w ih =>
    rw [List.cons_append, dropPlaces_cons, if_pos (hw 0 (by simp)),
      ih fun i hi => hw (i + 1) (by simpa using hi)]
    exact dropPlaces_congr fun i => by
      rw [List.length_cons, Nat.add_right_comm]

theorem dropPlaces_sublist (p : ℕ → Prop) [DecidablePred p] (t : Text) :
    (dropPlaces p t).Sublist t := by
  have h := (List.filter_sublist (p := fun x => ¬ p x.2) (l := t.zipIdx)).map Prod.fst
  rwa [List.zipIdx_map_fst] at h

end Places

theorem isDropped_cons_zero_iff {c : Char} {t : Text} :
    IsDropped (c :: t) 0 ↔ c = ';' ∧ EndsLine t := by
  constructor
  · rintro ⟨j, hj, hc, hend, -⟩
    obtain rfl : j = 0 := Nat.le_zero.1 hj
    exact ⟨by simpa using hc, hend⟩
  · rintro ⟨rfl, hend⟩
    exact ⟨0, Nat.le_refl 0, rfl, hend, Nat.zero_le _⟩

theorem isDropped_cons_succ_iff {c : Char} {t : Text} {i : ℕ} : IsDropped (c :: t) (i + 1) ↔
    (c = ';' ∧ EndsLine t ∧ i < (lostBlanks t).length) ∨ IsDropped t i := by
  constructor
  · rintro ⟨j, hj, hc, hend, hi⟩
    cases j with
    | zero => exact Or.inl ⟨by simpa using hc, hend, Nat.lt_of_succ_le (by simpa using hi)⟩
    | succ j =>
      rw [List.drop_succ_cons] at hi
      exact Or.inr ⟨j, by omega, hc, hend, by omega⟩
  · rintro (⟨rfl, hend, hi⟩ | ⟨j, hj, hc, hend, hi⟩)
    · exact ⟨0, by omega, rfl, hend, by simpa using Nat.succ_le_of_lt hi⟩
    · refine ⟨j + 1, by omega, hc, hend, ?_⟩
      rw [List.drop_succ_cons]
      omega

theorem isDropped_append_iff {w : Text} (hw : ';' ∉ w) (t : Text) (i : ℕ) :
    IsDropped (w ++ t) (w.length + i) ↔ IsDropped t i := by
  induction w with
  | nil => simp
  | cons c w ih =>
    rw [List.mem_cons, not_or] at hw
    rw [List.cons_append, List.length_cons, Nat.add_right_comm, isDropped_cons_succ_iff, ih hw.2]
    exact or_iff_right fun h => hw.1 h.1.symm

theorem dropPlaces_isDropped_cons {c : Char} {t : Text} (h : c = ';' → ¬ EndsLine t) :
    dropPlaces (IsDropped (c :: t)) (c :: t) = c :: dropPlaces (IsDropped t) t := by
  rw [dropPlaces_cons,
    if_neg fun hd => h (isDropped_cons_zero_iff.1 hd).1 (isDropped_cons_zero_iff.1 hd).2]
  exact congrArg (c :: ·) (dropPlaces_congr fun i =>
    isDropped_cons_succ_iff.trans (or_iff_right fun hd => h hd.1 hd.2.1))

theorem isDropped_of_lt {t : Text} (ht : EndsLine t) :
    ∀ i < (';' :: lostBlanks t).length, IsDropped (';' :: t) i := fun i hi =>
  ⟨0, Nat.zero_le i, rfl, ht, by simpa [Nat.lt_succ_iff] using hi⟩

theorem dropPlaces_isDropped_last {w : Text} (hw : ∀ c ∈ w, isBlank c = true) :
    dropPlaces (IsDropped (';' :: w)) (';' :: w) = [] := by
  have hall := isDropped_of_lt (t := w) (Or.inl hw)
  rw [lostBlanks_of_blank hw] at hall
  have h := dropPlaces_append_of_dropped hall []
  rwa [List.append_nil] at h

theorem dropPlaces_isDropped_line {w v : Text} (hw : ∀ c ∈ w, isBlank c = true)
    (hv : OpensLine v) :
    dropPlaces (IsDropped (';' :: (w ++ '\n' :: v))) (';' :: (w ++ '\n' :: v)) =
      '\n' :: dropPlaces (IsDropped v) v := by
  have hall := isDropped_of_lt (endsLine_append_line_break hw v)
  rw [lostBlanks_append_line_break hw hv] at hall
  -- No semicolon stands among the blanks, so from the line break on only those of `v` count.
  have hshift (i : ℕ) : IsDropped (';' :: (w ++ '\n' :: v)) ((';' :: w).length + i) ↔
      IsDropped ('\n' :: v) i := by
    rw [List.length_cons, Nat.add_right_comm, isDropped_cons_succ_iff,
      isDropped_append_iff (semicolon_not_mem_of_blank hw), lostBlanks_append_line_break hw hv]
    exact or_iff_right fun h => by omega
  have h := dropPlaces_append_of_dropped hall ('\n' :: v)
  rw [List.cons_append] at h
  rw [h, dropPlaces_congr hshift, dropPlaces_isDropped_cons fun hc => absurd hc (by decide)]

end Text

namespace Catalog

theorem longest_of_opensLine {t : Text} (h : OpensLine t) :
    longest .blank (matchPieces [.lineEnd]) t = none := by
  induction h with
  | @visible c t hc =>
    have hne : c ≠ '\n' := fun h => absurd hc (by rw [h]; decide)
    simp [longest, CharClass.has, hc, matchPieces, hne]
  | blank hc hne _ ih => simp [longest, CharClass.has, hc, matchPieces, hne, ih]

theorem longest_of_blank {w : Text} (hw : ∀ c ∈ w, isBlank c = true) :
    longest .blank (matchPieces [.lineEnd]) w = some (w, ⟨[], []⟩) := by
  have h : longest .blank (matchPieces [.lineEnd]) (w ++ []) = some (w, ⟨[], []⟩) :=
    longest_of_maximal hw (by simp) rfl
  rwa [List.append_nil] at h

theorem longest_append_line_break {w v : Text} (hw : ∀ c ∈ w, isBlank c = true)
    (hv : OpensLine v) :
    longest .blank (matchPieces [.lineEnd]) (w ++ '\n' :: v) = some (w, ⟨[], []⟩) := by
  have hbreak : CharClass.blank.has '\n' = true := by decide
  induction w with
  | nil => simp [longest, hbreak, longest_of_opensLine hv, matchPieces]
  | cons c w ih =>
    rw [List.forall_mem_cons] at hw
    have hc : CharClass.blank.has c = true := hw.1
    rw [List.cons_append, longest, if_pos hc, ih hw.2]

theorem match_cleanup (t : Text) : matchPieces cleanupRule.pattern.steps (';' :: t) =
    (longest .blank (matchPieces [.lineEnd]) t).map fun r => (r.2.after r.1).after [';'] := by
  have hrun : matchPieces [.many .blank, .lineEnd] t =
      (longest .blank (matchPieces [.lineEnd]) t).map fun r => r.2.after r.1 := rfl
  have h := matchPieces_literal_append [';'] [.many .blank, .lineEnd] t
  rw [hrun, Option.map_map] at h
  exact h

theorem cleanup_cons {c : Char} (hc : c ≠ ';') (t : Text) :
    cleanupRule.apply (c :: t) = c :: cleanupRule.apply t :=
  cleanup_append (t := [c]) (u := t) (by simpa using Ne.symm hc)

theorem cleanup_inner {t : Text} (ht : OpensLine t) :
    cleanupRule.apply (';' :: t) = ';' :: cleanupRule.apply t := by
  refine Rule.apply_kept (r := cleanupRule) rfl ?_
  rw [match_cleanup, longest_of_opensLine ht, Option.map_none]

theorem cleanup_last {w : Text} (hw : ∀ c ∈ w, isBlank c = true) :
    cleanupRule.apply (';' :: w) = [] := by
  have hm := match_cleanup w
  rw [longest_of_blank hw, Option.map_some] at hm
  have h := Rule.apply_hit (r := cleanupRule) (h := ⟨';' :: w, []⟩) (t := []) rfl
    (by simpa [Hit.after] using hm)
  rwa [List.append_nil] at h

theorem cleanup_line {w v : Text} (hw : ∀ c ∈ w, isBlank c = true) (hv : OpensLine v) :
    cleanupRule.apply (';' :: (w ++ '\n' :: v)) = '\n' :: cleanupRule.apply v := by
  have hm := match_cleanup (w ++ '\n' :: v)
  rw [longest_append_line_break hw hv, Option.map_some] at hm
  have h := Rule.apply_hit (r := cleanupRule) (h := ⟨';' :: w, []⟩) (t := '\n' :: v) rfl
    (by simpa [Hit.after] using hm)
  rw [cleanup_line_break] at h
  exact h

theorem cleanup_of_blank {w : Text} (hw : ∀ c ∈ w, isBlank c = true) : cleanupRule.apply w = w := by
  have h := cleanup_append (t := w) (u := []) (semicolon_not_mem_of_blank hw)
  rwa [List.append_nil, Rule.apply_nil, List.append_nil] at h

/-- What cleaning up does, semicolon by semicolon. -/
inductive Cleans : Text → Text → Prop
  | nil : Cleans [] []
  | other {c : Char} {t u : Text} : c ≠ ';' → Cleans t u → Cleans (c :: t) (c :: u)
  | inner {t u : Text} : OpensLine t → Cleans t u → Cleans (';' :: t) (';' :: u)
  | last {w : Text} : (∀ c ∈ w, isBlank c = true) → Cleans (';' :: w) []
  | line {w v u : Text} : (∀ c ∈ w, isBlank c = true) → OpensLine v → Cleans v u →
      Cleans (';' :: (w ++ '\n' :: v)) ('\n' :: u)

theorem cleans (t : Text) : Cleans t (cleanupRule.apply t) := by
  -- On the length: a semicolon that ends its line takes a whole run of blanks with it.
  induction hn : t.length using Nat.strongRecOn generalizing t with
  | ind n ih =>
    cases t with
    | nil => exact .nil
    | cons c t =>
      by_cases hc : c = ';'
      · subst hc
        rcases blank_or_opensLine t with hblank | hopen | ⟨w, v, rfl, hw, hv⟩
        · rw [cleanup_last hblank]
          exact .last hblank
        · rw [cleanup_inner hopen]
          exact .inner hopen (ih t.length (by simp [← hn]) t rfl)
        · rw [cleanup_line hw hv]
          exact .line hw hv (ih v.length (by simp [← hn]; omega) v rfl)
      · rw [cleanup_cons hc]
        exact .other hc (ih t.length (by simp [← hn]) t rfl)

theorem Cleans.eq_dropPlaces {t u : Text} (h : Cleans t u) : u = dropPlaces (IsDropped t) t := by
  induction h with
  | nil => rfl
  | other hc _ ih => rw [dropPlaces_isDropped_cons fun h => absurd h hc, ← ih]
  | inner ht _ ih => rw [dropPlaces_isDropped_cons fun _ => ht.not_endsLine, ← ih]
  | last hw => rw [dropPlaces_isDropped_last hw]
  | line hw hv _ ih => rw [dropPlaces_isDropped_line hw hv, ← ih]

end Catalog

end GlideBridge
