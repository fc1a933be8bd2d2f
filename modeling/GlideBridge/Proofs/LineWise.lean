import GlideBridge.Proofs.Layout

/-! Rules that work line by line. When a rule sends every line of a text to some line, whatever
line follows it, it sends the joined lines to the joined lines, and so does a list of rules in
which each goes on from what the one before has left. -/

namespace GlideBridge

open Text

def Follows (t : Text) : Prop := ∀ c ∈ t.head?, c = '\n'

namespace Follows

theorem nil : Follows [] := by simp [Follows]

theorem line_break (t : Text) : Follows ('\n' :: t) := by simp [Follows]

theorem prefix_iff {t : Text} (ht : Follows t) {w : Text} (hw : '\n' ∉ w) (v : Text) :
    w <+: v ++ t ↔ w <+: v := by
  cases t with
  | nil => rw [List.append_nil]
  | cons c t =>
    obtain rfl := ht c rfl
    exact prefix_append_cons_iff hw v t

end Follows

namespace Rule

/-- The rule works on lines: it does not look for their beginnings, and no line break begins a
hit. -/
def isInline (r : Rule) : Bool := !r.pattern.lineStart && r.pattern.opening.head? != some '\n'

variable {r : Rule} {l l' : Text}

theorem lineStart_of_isInline (hr : r.isInline = true) : r.pattern.lineStart = false := by
  simp only [isInline, Bool.and_eq_true, Bool.not_eq_true'] at hr
  exact hr.1

theorem isInline_of_opening {c : Char} {w : Text} (hr : r.pattern.lineStart = false)
    (ho : r.pattern.opening = c :: w) (hc : c ≠ '\n') : r.isInline = true := by
  simp [isInline, hr, ho, hc]

/-- The rule turns the line `l` into `l'`, whatever line follows. -/
def Sends (r : Rule) (l l' : Text) : Prop := ∀ t, Follows t → r.apply (l ++ t) = l' ++ r.apply t

theorem sends_of_no_hit (hr : r.isInline = true)
    (hl : ∀ v, v <:+ l → v ≠ [] → ∀ t, Follows t → matchPieces r.pattern.steps (v ++ t) = none) :
    r.Sends l l := fun t ht =>
  apply_append_of_no_hit (lineStart_of_isInline hr) fun v hv hne => hl v hv hne t ht

theorem sends_hit (hr : r.isInline = true) {taken : Text} {fields : List Text}
    (hm : ∀ t, Follows t →
      matchPieces r.pattern.steps (taken ++ (l ++ t)) = some ⟨taken, fields⟩)
    (hl : r.Sends l l') : r.Sends (taken ++ l) (r.fill ⟨taken, fields⟩ ++ l') := by
  intro t ht
  have happly := apply_hit (h := ⟨taken, fields⟩) (lineStart_of_isInline hr) (hm t ht)
  rw [List.append_assoc, List.append_assoc, ← hl t ht]
  exact happly

theorem matchPieces_line_break (hr : r.isInline = true) (t : Text) :
    matchPieces r.pattern.steps ('\n' :: t) = none := by
  rw [Option.eq_none_iff_forall_ne_some]
  intro h hm
  obtain ⟨u, -, hu, -⟩ := matchPieces_literal_eq_some_iff.1 hm
  obtain ⟨c, w, hw⟩ := List.exists_cons_of_ne_nil r.pattern.opening_ne
  rw [hw, List.cons_append] at hu
  rw [isInline, hw, ← (List.cons.inj hu).1] at hr
  simp at hr

theorem apply_line_break (hr : r.isInline = true) (t : Text) :
    r.apply ('\n' :: t) = '\n' :: r.apply t :=
  apply_kept (lineStart_of_isInline hr) (matchPieces_line_break hr t)

theorem apply_joinLines {ι : Type} (hr : r.isInline = true) {f g : ι → Text}
    (hsend : ∀ i, r.Sends (f i) (g i)) (is : List ι) :
    r.apply (joinLines (is.map f)) = joinLines (is.map g) := by
  induction is with
  | nil => rfl
  | cons i is ih =>
    cases is with
    | nil => simpa [joinLines, apply_nil] using hsend i [] Follows.nil
    | cons j is =>
      have hjoin (f : ι → Text) : joinLines ((i :: j :: is).map f) =
          f i ++ '\n' :: joinLines ((j :: is).map f) := joinLines_cons _ (by simp)
      rw [hjoin, hjoin, hsend i _ (Follows.line_break _), apply_line_break hr, ih]

inductive Leads : List Rule → Text → Text → Prop
  | nil {l : Text} : Leads [] l l
  | cons {r : Rule} {rs : List Rule} {l l' l'' : Text} : r.isInline = true → r.Sends l l' →
      Leads rs l' l'' → Leads (r :: rs) l l''

theorem Leads.append {rs ss : List Rule} {l'' : Text} (h : Leads rs l l') (h' : Leads ss l' l'') :
    Leads (rs ++ ss) l l'' := by
  induction h with
  | nil => exact h'
  | cons hr hs _ ih => exact .cons hr hs (ih h')

theorem Leads.eq_of_nil (h : Leads [] l l') : l = l' := by
  cases h
  rfl

theorem run_joinLines {ι : Type} {rs : List Rule} {f g : ι → Text}
    (h : ∀ i, Leads rs (f i) (g i)) (is : List ι) :
    run rs (joinLines (is.map f)) = joinLines (is.map g) := by
  induction rs generalizing f with
  | nil =>
    rw [show f = g from funext fun i => (h i).eq_of_nil]
    rfl
  | cons r rs ih =>
    have hstep (i : ι) : ∃ l, r.isInline = true ∧ r.Sends (f i) l ∧ Leads rs l (g i) := by
      cases h i with
      | cons hr hs hrest => exact ⟨_, hr, hs, hrest⟩
    choose m hr hs hrest using hstep
    cases is with
    | nil => exact ih hrest
    | cons i is =>
      have happly := apply_joinLines (hr i) hs (i :: is)
      exact (congrArg (run rs) happly).trans (ih hrest)

end Rule

end GlideBridge
