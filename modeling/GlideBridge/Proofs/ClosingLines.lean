import GlideBridge.Proofs.Lines
import GlideBridge.Proofs.RecordLines

/-! The closing steps on lines. A call that is left over gets its comment mark, the semicolons at
the ends of the lines go, and the indentation comes in front of each line. Cleaning up looks
across a line break only where the next line begins with a blank, and no translation does. -/

namespace GlideBridge

open Text Catalog OpenText

namespace Text

/-- A line that begins with a character that is not blank, and has no semicolon. -/
structure Tidy (t : Text) : Prop where
  head : ∃ c ∈ t.head?, isBlank c = false
  line : '\n' ∉ t
  semicolon : ';' ∉ t

end Text

namespace Catalog

theorem cleanup_append {t u : Text} (ht : ';' ∉ t) :
    cleanupRule.apply (t ++ u) = t ++ cleanupRule.apply u := by
  refine Rule.apply_append_of_no_hit rfl fun v hv hne => ?_
  rw [Option.eq_none_iff_forall_ne_some]
  intro h hm
  obtain ⟨w, x, hw, -⟩ := cleanup_hit hm
  obtain ⟨c, v, rfl⟩ := List.exists_cons_of_ne_nil hne
  obtain rfl : c = ';' := (List.cons.inj hw).1
  exact ht (hv.subset List.mem_cons_self)

theorem cleanup_semicolon {u : Text}
    (hu : u = [] ∨ ∃ c t, u = '\n' :: c :: t ∧ isBlank c = false) :
    cleanupRule.apply (';' :: u) = cleanupRule.apply u := by
  have hm : matchPieces cleanupRule.pattern.steps ([';'] ++ u) = some ⟨[';'], []⟩ := by
    refine matchPieces_literal_some (h := ⟨[], []⟩) [';'] ?_
    rcases hu with rfl | ⟨c, t, rfl, hc⟩
    · rfl
    · have hline : c ≠ '\n' := fun h => absurd hc (by rw [h]; decide)
      have hbreak : CharClass.blank.has '\n' = true := by decide
      have hblank : CharClass.blank.has c = false := hc
      simp [cleanupRule, matchPieces, longest, hbreak, hblank, hline, Hit.after]
  exact Rule.apply_hit (r := cleanupRule) (h := ⟨[';'], []⟩) rfl hm

theorem cleanup_line_break (t : Text) :
    cleanupRule.apply ('\n' :: t) = '\n' :: cleanupRule.apply t :=
  Rule.apply_line_break (r := cleanupRule) rfl t

theorem cleanup_joinLines {ι : Type} {f e : ι → Text} (hf : ∀ i, Tidy (f i))
    (he : ∀ i, e i = [] ∨ e i = [';']) (is : List ι) :
    cleanupRule.apply (joinLines (is.map fun i => f i ++ e i)) = joinLines (is.map f) := by
  have hend (i : ι) {u : Text} (hu : u = [] ∨ ∃ c t, u = '\n' :: c :: t ∧ isBlank c = false) :
      cleanupRule.apply ((f i ++ e i) ++ u) = f i ++ cleanupRule.apply u := by
    rw [List.append_assoc, cleanup_append (hf i).semicolon]
    rcases he i with h | h
    · rw [h, List.nil_append]
    · rw [h, List.cons_append, List.nil_append, cleanup_semicolon hu]
  induction is with
  | nil => rfl
  | cons i is ih =>
    cases is with
    | nil => simpa [joinLines, Rule.apply_nil] using hend i (Or.inl rfl)
    | cons j is =>
      have hjoin (g : ι → Text) : joinLines ((i :: j :: is).map g) =
          g i ++ '\n' :: joinLines ((j :: is).map g) := joinLines_cons _ (by simp)
      obtain ⟨c, hc, hblank⟩ := (hf j).head
      obtain ⟨t, ht⟩ := List.head?_eq_some_iff.1 hc
      have hnext : ∃ v, joinLines ((j :: is).map fun i => f i ++ e i) = c :: v := by
        rw [List.map_cons, ht, List.cons_append]
        exact ⟨_, joinLines_append_cons [c] _ _⟩
      obtain ⟨v, hv⟩ := hnext
      have hu := hend i (Or.inr ⟨c, v, congrArg ('\n' :: ·) hv, hblank⟩)
      rw [hjoin, hjoin, hu, cleanup_line_break, ih]

end Catalog

namespace CallSpace

variable {s : CallSpace} {name q l : Text}

theorem leftoverRule_inline (s : CallSpace) : s.leftoverRule.isInline = true := by
  obtain ⟨o, ho, -⟩ := s.opening_eq
  exact Rule.isInline_of_opening s.pattern_inline (s.pattern_opening.trans ho) (by decide)

theorem leftoverRule_sends_of_not_isInfix (hl : ¬ s.opening <:+: l) : s.leftoverRule.Sends l l :=
  Rule.sends_of_not_isInfix s.leftoverRule_inline (s.pattern_opening ▸ List.prefix_rfl)
    s.line_not_mem_opening hl

theorem not_infix_of_dot_not_mem (hl : '.' ∉ l) : ¬ s.opening <:+: l :=
  (rootless_of_dot_not_mem hl).not_isInfix s

theorem leftoverRule_sends (hn : IsName name) (hq : '.' ∉ q) :
    s.leftoverRule.Sends (s.callText name ++ q) ('/' :: '/' :: ' ' :: (s.callText name ++ q)) := by
  have hm (t : Text) : matchPieces s.leftoverRule.pattern.steps (s.callText name ++ (q ++ t)) =
      some ⟨s.callText name, [name]⟩ :=
    match_eq_some_iff.2 ⟨name, hn, List.prefix_append _ _, rfl⟩
  have h := Rule.sends_hit s.leftoverRule_inline (fun t _ => hm t)
    (leftoverRule_sends_of_not_isInfix (not_infix_of_dot_not_mem hq))
  rwa [leftoverRule_fill] at h

theorem not_infix_mark {o : CallSpace} (ho : o ≠ s) (hn : IsName name) (hq : '.' ∉ q) :
    ¬ o.opening <:+: '/' :: '/' :: ' ' :: (s.callText name ++ q) := by
  intro h
  have hdot : '.' ∉ name ++ '(' :: q := by simp [hq, not_mem_name hn (c := '.') (by decide)]
  rw [callText_append, opening_eq_root] at h
  have hroot : o.root <:+ '/' :: '/' :: ' ' :: s.root :=
    suffix_of_infix_dot (by cases s <;> decide) hdot h
  cases s <;> cases o <;> first | exact ho rfl | exact absurd hroot (by decide)

theorem leads_leftover (s : CallSpace) (hn : IsName name) (hq : '.' ∉ q) :
    Rule.Leads leftoverGroup.rules (s.callText name ++ q)
      ('/' :: '/' :: ' ' :: (s.callText name ++ q)) := by
  have hmark := leftoverRule_sends (s := s) hn hq
  cases s with
  | form =>
    have hsystem := leftoverRule_sends_of_not_isInfix
      (not_infix_mark (show system ≠ .form by decide) hn hq)
    exact .cons form.leftoverRule_inline hmark (.cons system.leftoverRule_inline hsystem .nil)
  | system =>
    have hform : ¬ form.opening <:+: system.callText name ++ q := by
      rw [opening_eq_root]
      exact fun h => absurd (suffix_of_isInfix hn hq h) (by decide)
    exact .cons form.leftoverRule_inline (leftoverRule_sends_of_not_isInfix hform)
      (.cons system.leftoverRule_inline hmark .nil)

theorem leads_leftover_of_not_isInfix (hl : ∀ s : CallSpace, ¬ s.opening <:+: l) :
    Rule.Leads leftoverGroup.rules l l :=
  .cons form.leftoverRule_inline (leftoverRule_sends_of_not_isInfix (hl .form))
    (.cons system.leftoverRule_inline (leftoverRule_sends_of_not_isInfix (hl .system)) .nil)

theorem calls_of_not_isInfix (hl : ¬ s.opening <:+: l) : s.calls l = [] := by
  have h := calls_append_of_not_starts (s := s) (w := l) (t := []) fun v hv _ => ?_
  · rwa [List.append_nil] at h
  · rintro ⟨name, -, hp⟩
    rw [List.append_nil] at hp
    have hv' : s.opening <+: v := (List.prefix_append _ _).trans hp
    exact hl (hv'.isInfix.trans hv.isInfix)

theorem calls_joinLines (s : CallSpace) (ls : List Text) :
    s.calls (joinLines ls) = ls.flatMap s.calls := by
  induction ls with
  | nil => rfl
  | cons l ls ih =>
    by_cases h : ls = []
    · subst h
      simp [joinLines_singleton]
    · rw [joinLines_cons l h, calls_append_line, ih, List.flatMap_cons]

end CallSpace

namespace Statement

variable {form : Text}

theorem unknown_line (form : Text) (c : UnknownCall) : (unknown c).line form =
    c.space.callText c.name ++ ((joinWith [',', ' '] [c.argument.text] ++ [')']) ++ [';']) :=
  IsCall.line_eq ..

theorem leads_leftover (hf : IsRoot form) (s : Statement) :
    Rule.Leads leftoverGroup.rules (s.line form) (s.translation form ++ s.terminator) := by
  cases s with
  | unknown c =>
    have hrest := c.isCall.not_mem_rest (c := '.') (by decide) (by decide)
    have hlead := CallSpace.leads_leftover c.space c.isName hrest
    rw [← unknown_line form] at hlead
    exact hlead
  | _ =>
    exact CallSpace.leads_leftover_of_not_isInfix (l := line form _)
      (not_infix_line hf fun _ h => Statement.noConfusion h)

theorem calls_line (hf : IsRoot form) (s : Statement) (o : CallSpace) :
    o.calls (s.line form) = (s.leftover? o).toList := by
  cases s with
  | unknown c =>
    by_cases ho : c.space = o
    · subst ho
      have hrest := c.isCall.not_mem_rest (c := '.') (by decide) (by decide)
      rw [unknown_line, CallSpace.calls_callText_append c.isName,
        CallSpace.calls_of_dot_not_mem hrest, leftover?, if_pos rfl]
      rfl
    · rw [leftover?, if_neg ho]
      exact CallSpace.calls_of_not_isInfix (c.isCall.not_infix_of_ne c.space (Ne.symm ho))
  | _ =>
    exact CallSpace.calls_of_not_isInfix (not_infix_line hf (fun _ h => Statement.noConfusion h) o)

theorem terminator_eq (s : Statement) : s.terminator = [] ∨ s.terminator = [';'] := by
  cases s with
  | system c => cases c <;> first | exact Or.inr rfl | exact Or.inl rfl
  | declare w q => exact Or.inl rfl
  | _ => exact Or.inr rfl

end Statement

end GlideBridge
