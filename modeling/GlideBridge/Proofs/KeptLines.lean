import GlideBridge.Proofs.Terminators

/-! Lines that stay when a text is cleaned up. A line with something on it is cleaned up by itself,
whatever stands in front of it and behind it, and keeps the line break in front of it and the blanks
that it begins with. Only blank lines go, so no two lines with something on them come together. -/

namespace GlideBridge

open Text

namespace Text

/-- Cleaning up never drops the character. -/
def isContent (c : Char) : Bool := c != ';' && !isBlank c

def isFilled (l : Text) : Bool := l.any (!isBlank ·)

def filledLines (t : Text) : List Text := (lines t).filter isFilled

theorem filledLines_append_line_break (t u : Text) :
    filledLines (t ++ '\n' :: u) = filledLines t ++ filledLines u := by
  rw [filledLines, lines_append_line_break, List.filter_append, filledLines, filledLines]

theorem filledLines_of_line {l : Text} (hl : '\n' ∉ l) : filledLines l = [l].filter isFilled := by
  rw [filledLines, lines_of_not_mem hl]

theorem filledLines_of_blank {w : Text} (hw : ∀ c ∈ w, isBlank c = true) : filledLines w = [] := by
  refine List.filter_eq_nil_iff.2 fun l hl => ?_
  obtain ⟨a, b, hab, -⟩ := exists_joinLines_eq_of_mem hl
  rw [joinLines_lines] at hab
  have hblank : ∀ c ∈ l, isBlank c = true := fun c hc => hw c (by simp [hab, hc])
  simpa [isFilled] using hblank

end Text

namespace Catalog

theorem cleanup_sublist (t : Text) : (cleanupRule.apply t).Sublist t := by
  rw [(cleans t).eq_dropPlaces]
  exact dropPlaces_sublist _ t

theorem Cleans.filter_isContent {t u : Text} (h : Cleans t u) :
    u.filter isContent = t.filter isContent := by
  have hblank {w : Text} (hw : ∀ c ∈ w, isBlank c = true) : w.filter isContent = [] :=
    List.filter_eq_nil_iff.2 fun c hc => by simp [isContent, hw c hc]
  have hsemi (t : Text) : (';' :: t).filter isContent = t.filter isContent :=
    List.filter_cons_of_neg (by decide)
  induction h with
  | nil => rfl
  | other _ _ ih => rw [List.filter_cons, List.filter_cons, ih]
  | inner _ _ ih => rw [hsemi, hsemi, ih]
  | last hw => rw [hsemi, hblank hw, List.filter_nil]
  | line hw _ _ ih =>
    rw [hsemi, List.filter_append, hblank hw, List.nil_append, List.filter_cons, List.filter_cons,
      ih]

theorem cleanup_append_line {v : Text} (hv : OpensLine v) (t : Text) :
    cleanupRule.apply (t ++ '\n' :: v) = cleanupRule.apply t ++ '\n' :: cleanupRule.apply v := by
  have h := cleans t
  generalize cleanupRule.apply t = u at h ⊢
  induction h with
  | nil => exact cleanup_line_break v
  | other hc _ ih => rw [List.cons_append, cleanup_cons hc, ih, List.cons_append]
  | inner ht _ ih => rw [List.cons_append, cleanup_inner (ht.append _), ih, List.cons_append]
  | last hw => exact cleanup_line hw hv
  | line hw hv' _ ih =>
    have h := cleanup_line hw (hv'.append ('\n' :: v))
    rw [ih] at h
    simpa using h

theorem cleanup_append_blank {w : Text} (hw : ∀ c ∈ w, isBlank c = true) (t : Text) :
    cleanupRule.apply (t ++ w) = cleanupRule.apply t ∨
      cleanupRule.apply (t ++ w) = cleanupRule.apply t ++ w := by
  have h := cleans t
  generalize cleanupRule.apply t = u at h ⊢
  induction h with
  | nil => exact Or.inr (cleanup_of_blank hw)
  | @other c t u hc _ ih =>
    rw [List.cons_append, cleanup_cons hc]
    exact ih.imp (congrArg (c :: ·)) (congrArg (c :: ·))
  | inner ht _ ih =>
    rw [List.cons_append, cleanup_inner (ht.append _)]
    exact ih.imp (congrArg (';' :: ·)) (congrArg (';' :: ·))
  | last hw' =>
    refine Or.inl (cleanup_last fun c hc => ?_)
    exact (List.mem_append.1 hc).elim (hw' c) (hw c)
  | @line w' v u hw' hv' _ ih =>
    have h := cleanup_line hw' (hv'.append w)
    rw [show ';' :: (w' ++ '\n' :: v) ++ w = ';' :: (w' ++ '\n' :: (v ++ w)) by simp, h]
    exact ih.imp (congrArg ('\n' :: ·)) (congrArg ('\n' :: ·))

theorem filledLines_cleanup_append (t u : Text) :
    filledLines (cleanupRule.apply (t ++ '\n' :: u)) =
      filledLines (cleanupRule.apply t) ++ filledLines (cleanupRule.apply u) := by
  have hblank {w : Text} (hw : ∀ c ∈ w, isBlank c = true) :
      filledLines (cleanupRule.apply (t ++ '\n' :: w)) = filledLines (cleanupRule.apply t) := by
    have hbreak : ∀ c ∈ '\n' :: w, isBlank c = true := List.forall_mem_cons.2 ⟨by decide, hw⟩
    rcases cleanup_append_blank hbreak t with h | h
    · rw [h]
    · rw [h, filledLines_append_line_break, filledLines_of_blank hw, List.append_nil]
  rcases blank_or_opensLine u with hu | hu | ⟨w, v, rfl, hw, hv⟩
  · rw [hblank hu, cleanup_of_blank hu, filledLines_of_blank hu, List.append_nil]
  · rw [cleanup_append_line hu, filledLines_append_line_break]
  · -- The blank lines go with `t`: a semicolon at its end takes them, otherwise they stay.
    have hsplit : t ++ '\n' :: (w ++ '\n' :: v) = (t ++ '\n' :: w) ++ '\n' :: v := by simp
    rw [hsplit, cleanup_append_line hv, filledLines_append_line_break, hblank hw,
      cleanup_append_line hv, filledLines_append_line_break, cleanup_of_blank hw,
      filledLines_of_blank hw, List.nil_append]

theorem filledLines_cleanup_of_line {l : Text} (hl : '\n' ∉ l) :
    filledLines (cleanupRule.apply l) = [cleanupRule.apply l].filter isFilled :=
  filledLines_of_line fun h => hl ((cleanup_sublist l).subset h)

theorem filledLines_cleanup (t : Text) :
    filledLines (cleanupRule.apply t) = ((lines t).map cleanupRule.apply).filter isFilled := by
  induction t using lines_induction with
  | line l hl => rw [lines_of_not_mem hl, filledLines_cleanup_of_line hl, List.map_singleton]
  | more l t hl ih =>
    rw [filledLines_cleanup_append, ih, filledLines_cleanup_of_line hl, lines_append_line_break,
      lines_of_not_mem hl, List.map_append, List.map_singleton, List.filter_append]

/-- Cleaning up drops the semicolons that end their lines and the blanks that go with them, and no
other character. So everything but semicolons and blanks stays in its order, a line with something
on it is cleaned up behind its line break and its own indentation, and the lines with something on
them are those of the text, each cleaned up by itself. -/
theorem cleanupGroup_drops (t : Text) :
    cleanupGroup.apply t = dropPlaces (IsDropped t) t ∧
      (cleanupGroup.apply t).filter isContent = t.filter isContent ∧
      (∀ before indentation c after, t = before ++ '\n' :: (indentation ++ c :: after) →
        (∀ d ∈ indentation, isBlank d = true) → '\n' ∉ indentation → isBlank c = false →
        cleanupGroup.apply t =
          cleanupGroup.apply before ++ '\n' :: (indentation ++ cleanupGroup.apply (c :: after))) ∧
      filledLines (cleanupGroup.apply t) = ((lines t).map cleanupGroup.apply).filter isFilled := by
  refine ⟨(cleans t).eq_dropPlaces, (cleans t).filter_isContent, ?_, filledLines_cleanup t⟩
  rintro before indentation c after rfl hblank hline hc
  simp only [cleanupGroup_apply]
  rw [cleanup_append_line (opensLine_append hblank hline hc after),
    cleanup_append (semicolon_not_mem_of_blank hblank)]

theorem cleanupGroup_drops_blank_lines :
    cleanupGroup.apply "a; ;\u2028\n \n\n\tb;;\r\n".toList = "a; \n\tb;".toList ∧
      cleanupGroup.apply "a; ;\u2028\n \n\n\tb;;\r\n".toList =
        cleanupGroup.apply "a; ;\u2028\n \n".toList ++
          '\n' :: (['\t'] ++ cleanupGroup.apply "b;;\r\n".toList) := by
  have h := cleanupGroup_drops "a; ;\u2028\n \n\n\tb;;\r\n".toList
  have hsplit : "a; ;\u2028\n \n\n\tb;;\r\n".toList =
      "a; ;\u2028\n \n".toList ++ '\n' :: (['\t'] ++ 'b' :: ";;\r\n".toList) := by decide +kernel
  exact ⟨by rw [h.1]; decide +kernel,
    h.2.2.1 _ ['\t'] 'b' _ hsplit (by decide) (by decide) (by decide)⟩

end Catalog

end GlideBridge
