import GlideBridge.Proofs.Rewriting

/-! Texts in which the accessor of a form is left open. Closing such a text writes the accessor
for a form into every gap. A form that could be the root of an accessor has none of the characters
that the patterns look for, so a pattern that cannot begin or end inside an accessor meets each
accessor as a whole, and whether it hits a closed text does not depend on the form. -/

namespace GlideBridge

/-- A form whose accessor no rule takes apart. -/
structure IsRoot (form : Text) : Prop where
  plain : ∀ c ∈ form, Text.isBlank c = false ∧ c ∉ ['.', ',', ';', '(', ')', '"', '\'']
  not_system : ¬ ['g', 's'] <:+ form
  not_form : ¬ ['g', '_', 'f', 'o', 'r', 'm'] <:+ form

/-- A gap stands for the accessor of the form. -/
abbrev OpenText := List (Option Char)

namespace OpenText

def accessor (form : Text) : Text := ['e', 'l', 'e', '.'] ++ (form ++ ['.'])

def close (form : Text) (t : OpenText) : Text :=
  t.flatMap fun
    | some c => [c]
    | none => accessor form

variable {form : Text} {t u : OpenText} {k : CharClass} {ps : List Piece}

theorem close_nil (form : Text) : close form [] = [] := rfl

theorem close_char (form : Text) (c : Char) (t : OpenText) :
    close form (some c :: t) = c :: close form t := rfl

theorem close_gap (form : Text) (t : OpenText) :
    close form (none :: t) = accessor form ++ close form t := rfl

theorem close_append (form : Text) (t u : OpenText) :
    close form (t ++ u) = close form t ++ close form u := List.flatMap_append

theorem close_map_some (form w : Text) : close form (w.map some) = w := by
  induction w with
  | nil => rfl
  | cons c w ih => rw [List.map_cons, close_char, ih]

theorem close_eq_nil_iff : close form t = [] ↔ t = [] := by
  cases t with
  | nil => simp [close_nil]
  | cons x t => cases x <;> simp [close_char, close_gap, accessor]

/-- Whether there is a hit does not depend on the form, nor do the places where it and its fields
end. -/
def Settled (t : OpenText) (r : Text → Option Hit) : Prop :=
  (∀ form, IsRoot form → r form = none) ∨
    ∃ (taken rest : OpenText) (fields : List OpenText), t = taken ++ rest ∧
      ∀ form, IsRoot form → r form = some ⟨close form taken, fields.map (close form)⟩

def SettledRun (t : OpenText) (r : Text → Option (Text × Hit)) : Prop :=
  (∀ form, IsRoot form → r form = none) ∨
    ∃ (run taken rest : OpenText) (fields : List OpenText), t = run ++ (taken ++ rest) ∧
      ∀ form, IsRoot form →
        r form = some (close form run, ⟨close form taken, fields.map (close form)⟩)

theorem Settled.congr {r r' : Text → Option Hit} (h : Settled t r)
    (he : ∀ form, IsRoot form → r' form = r form) : Settled t r' := by
  rcases h with h | ⟨taken, rest, fields, ht, h⟩
  · exact Or.inl fun form hf => (he form hf).trans (h form hf)
  · exact Or.inr ⟨taken, rest, fields, ht, fun form hf => (he form hf).trans (h form hf)⟩

theorem SettledRun.congr {r r' : Text → Option (Text × Hit)} (h : SettledRun t r)
    (he : ∀ form, IsRoot form → r' form = r form) : SettledRun t r' := by
  rcases h with h | ⟨run, taken, rest, fields, ht, h⟩
  · exact Or.inl fun form hf => (he form hf).trans (h form hf)
  · exact Or.inr ⟨run, taken, rest, fields, ht, fun form hf => (he form hf).trans (h form hf)⟩

theorem settled_none : Settled t fun _ => none := Or.inl fun _ _ => rfl

theorem Settled.after {r : Text → Option Hit} (h : Settled t r) (w : OpenText) :
    Settled (w ++ t) fun form => (r form).map (Hit.after (close form w)) := by
  rcases h with h | ⟨taken, rest, fields, rfl, h⟩
  · exact Or.inl fun form hf => by simp only [h form hf, Option.map_none]
  · refine Or.inr ⟨w ++ taken, rest, fields, by simp, fun form hf => ?_⟩
    simp only [h form hf, Option.map_some, Hit.after, close_append]

theorem Settled.run_nil {r : Text → Option Hit} (h : Settled t r) :
    SettledRun t fun form => (r form).map ([], ·) := by
  rcases h with h | ⟨taken, rest, fields, rfl, h⟩
  · exact Or.inl fun form hf => by simp only [h form hf, Option.map_none]
  · refine Or.inr ⟨[], taken, rest, fields, rfl, fun form hf => ?_⟩
    simp only [h form hf, Option.map_some, close_nil]

theorem SettledRun.append {r : Text → Option (Text × Hit)} (h : SettledRun t r) (w : OpenText) :
    SettledRun (w ++ t) fun form => (r form).map fun x => (close form w ++ x.1, x.2) := by
  rcases h with h | ⟨run, taken, rest, fields, rfl, h⟩
  · exact Or.inl fun form hf => by simp only [h form hf, Option.map_none]
  · refine Or.inr ⟨w ++ run, taken, rest, fields, by simp, fun form hf => ?_⟩
    simp only [h form hf, Option.map_some, close_append]

theorem SettledRun.or {r r' : Text → Option (Text × Hit)} (h : SettledRun t r)
    (h' : SettledRun t r') : SettledRun t fun form => (r form).or (r' form) := by
  rcases h with h | ⟨run, taken, rest, fields, ht, h⟩
  · exact h'.congr fun form hf => by simp only [h form hf, Option.none_or]
  · refine Or.inr ⟨run, taken, rest, fields, ht, fun form hf => ?_⟩
    simp only [h form hf, Option.some_or]

theorem SettledRun.many {r : Text → Option (Text × Hit)} (h : SettledRun t r) :
    Settled t fun form => (r form).map fun x => x.2.after x.1 := by
  rcases h with h | ⟨run, taken, rest, fields, rfl, h⟩
  · exact Or.inl fun form hf => by simp only [h form hf, Option.map_none]
  · refine Or.inr ⟨run ++ taken, rest, fields, by simp, fun form hf => ?_⟩
    simp only [h form hf, Option.map_some, Hit.after, close_append]

theorem SettledRun.field {r : Text → Option (Text × Hit)} (h : SettledRun t r) :
    Settled t fun form =>
      (r form).bind fun x => if x.1 = [] then none else some (x.2.capture x.1) := by
  rcases h with h | ⟨run, taken, rest, fields, rfl, h⟩
  · exact Or.inl fun form hf => by simp only [h form hf, Option.bind_none]
  · by_cases hrun : run = []
    · refine Or.inl fun form hf => ?_
      simp only [h form hf, Option.bind_some, if_pos (close_eq_nil_iff.2 hrun)]
    · refine Or.inr ⟨run ++ taken, rest, run :: fields, by simp, fun form hf => ?_⟩
      have hclose : close form run ≠ [] := fun he => hrun (close_eq_nil_iff.1 he)
      simp only [h form hf, Option.bind_some, if_neg hclose, Hit.capture, close_append,
        List.map_cons]

def isOutside (c : Char) : Bool := [',', ';', '(', ')', '"', '\''].contains c

def endsAt (k : CharClass) : List Piece → Bool
  | .literal (d :: _) :: _ => isOutside d && !k.has d
  | .one .quote :: _ => !k.has '"' && !k.has '\''
  | _ => false

def takesAccessor : CharClass → Bool
  | .except d => isOutside d
  | .notQuote => true
  | _ => false

def stopsOrTakes (k : CharClass) : Bool := !k.has '.' || takesAccessor k

def missesAccessor : Text → Bool
  | [] => true
  | d :: w => !Text.agree (d :: w) ['e', 'l', 'e', '.'] && missesAccessor w

/-- Pieces that meet an accessor as a whole or not at all. -/
def isSteady : List Piece → Bool
  | [] => true
  | .literal w :: ps => missesAccessor w && isSteady ps
  | .one k :: ps => !k.has 'e' && isSteady ps
  | .many k :: ps => !k.has 'e' && isSteady ps
  | .field k :: ps => endsAt k ps && stopsOrTakes k && isSteady ps
  | .lineEnd :: ps => isSteady ps
  | _ => false

theorem mem_accessor {c : Char} (hc : c ∈ accessor form) :
    c ∈ ['e', 'l', '.'] ∨ c ∈ form := by
  simp only [accessor, List.mem_append, List.mem_cons, List.not_mem_nil, or_false] at hc ⊢
  tauto

theorem not_isOutside_of_mem (hf : IsRoot form) {c : Char} (hc : c ∈ accessor form) :
    isOutside c = false := by
  rcases mem_accessor hc with hc | hc
  · exact (by decide : ∀ c ∈ ['e', 'l', '.'], isOutside c = false) c hc
  · have h := (hf.plain c hc).2
    simp only [isOutside, List.contains_eq_mem, decide_eq_false_iff_not]
    exact fun hm => h (List.mem_cons_of_mem _ hm)

theorem endsAt_closed (h : endsAt k ps = true) (hf : IsRoot form) {c : Char}
    (hc : c ∈ accessor form) : mayOpen ps c = false := by
  have ho := not_isOutside_of_mem hf hc
  unfold endsAt at h
  split at h
  · next d w qs =>
    simp only [Bool.and_eq_true] at h
    have hne : c ≠ d := by rintro rfl; rw [h.1] at ho; cases ho
    simpa [mayOpen] using hne
  · by_contra hq
    simp only [mayOpen, CharClass.has, CharClass.isQuote, Bool.not_eq_false, Bool.or_eq_true,
      beq_iff_eq] at hq
    rcases hq with rfl | rfl <;> exact absurd ho (by decide)
  · cases h

theorem accessor_takes (hf : IsRoot form) {d : Char} (hd : isOutside d = true) :
    ∀ c ∈ accessor form, c ≠ d := by
  rintro c hc rfl
  rw [not_isOutside_of_mem hf hc] at hd
  cases hd

end OpenText

theorem matchPieces_literal_cons (d : Char) (w : Text) (ps : List Piece) (c : Char) (t : Text) :
    matchPieces (.literal (d :: w) :: ps) (c :: t) =
      if d = c then (matchPieces (.literal w :: ps) t).map (Hit.after [d]) else none := by
  by_cases hd : d = c
  · rw [matchPieces, matchPieces, Text.dropPrefix?, if_pos hd, if_pos hd]
    cases Text.dropPrefix? w t with
    | none => rfl
    | some u => rw [Option.map_map, Hit.after_comp_after, List.singleton_append]
  · rw [matchPieces, Text.dropPrefix?, if_neg hd, if_neg hd]

theorem matchPieces_field_eq_bind (k : CharClass) (ps : List Piece) (t : Text) :
    matchPieces (.field k :: ps) t = (longest k (matchPieces ps) t).bind fun x =>
      if x.1 = [] then none else some (x.2.capture x.1) := by
  cases t with
  | nil =>
    rw [matchPieces, longest]
    cases matchPieces ps [] with
    | none => rfl
    | some h => simp
  | cons c t =>
    rw [matchPieces, longest]
    split
    · cases longest k (matchPieces ps) t with
      | none => cases matchPieces ps (c :: t) <;> simp
      | some x => simp
    · cases matchPieces ps (c :: t) <;> simp

theorem longest_append_of_taken {k : CharClass} {next : Text → Option Hit} {w : Text}
    (hw : ∀ c ∈ w, k.has c = true ∧ ∀ t, next (c :: t) = none) (t : Text) :
    longest k next (w ++ t) = (longest k next t).map fun x => (w ++ x.1, x.2) := by
  induction w with
  | nil => simp
  | cons c w ih =>
    obtain ⟨hk, hn⟩ := hw c List.mem_cons_self
    rw [List.cons_append, longest, if_pos hk, ih fun d hd => hw d (List.mem_cons_of_mem c hd)]
    cases longest k next t with
    | none => simp [hn]
    | some x => rfl

theorem longest_eq_none {k : CharClass} {next : Text → Option Hit} {w : Text}
    (hw : ∀ c ∈ w, ∀ t, next (c :: t) = none) {d : Char} (hd : d ∈ w) (hk : k.has d = false)
    (t : Text) : longest k next (w ++ t) = none := by
  induction w with
  | nil => cases hd
  | cons c w ih =>
    rw [List.cons_append, longest, hw c List.mem_cons_self]
    by_cases hc : k.has c = true
    · have hdw : d ∈ w := (List.mem_cons.1 hd).resolve_left fun h => by simp [← h, hk] at hc
      rw [if_pos hc, ih (fun e he => hw e (List.mem_cons_of_mem c he)) hdw]
      rfl
    · rw [if_neg hc, Option.map_none]

namespace OpenText

variable {form : Text} {t u : OpenText} {k : CharClass} {ps : List Piece}

theorem settledRun_longest (hps : ∀ t, Settled t fun form => matchPieces ps (close form t))
    (hgap : ∀ t, SettledRun t (fun form => longest k (matchPieces ps) (close form t)) →
      SettledRun (none :: t) fun form =>
        longest k (matchPieces ps) (accessor form ++ close form t))
    (t : OpenText) : SettledRun t fun form => longest k (matchPieces ps) (close form t) := by
  induction t with
  | nil => exact (hps []).run_nil
  | cons x t ih =>
    cases x with
    | none => exact hgap t ih
    | some c =>
      by_cases hc : k.has c = true
      · refine ((ih.append [some c]).or (hps (some c :: t)).run_nil).congr fun form _ => ?_
        rw [close_char, longest, if_pos hc]
        cases longest k (matchPieces ps) (close form t) <;> rfl
      · refine (hps (some c :: t)).run_nil.congr fun form _ => ?_
        rw [close_char, longest, if_neg hc]

theorem settledRun_gap_of_stop (hk : k.has 'e' = false)
    (hps : ∀ t, Settled t fun form => matchPieces ps (close form t)) (t : OpenText) :
    SettledRun (none :: t) fun form =>
      longest k (matchPieces ps) (accessor form ++ close form t) := by
  refine (hps (none :: t)).run_nil.congr fun form _ => ?_
  rw [close_gap]
  simp [accessor, longest, hk]

theorem settledRun_gap_of_endsAt (he : endsAt k ps = true) (hk : stopsOrTakes k = true)
    {t : OpenText} (ht : SettledRun t fun form => longest k (matchPieces ps) (close form t)) :
    SettledRun (none :: t) fun form =>
      longest k (matchPieces ps) (accessor form ++ close form t) := by
  have hnext (form : Text) (hf : IsRoot form) : ∀ c ∈ accessor form, ∀ u,
      matchPieces ps (c :: u) = none :=
    fun c hc u => matchPieces_eq_none_of_mayOpen u (endsAt_closed he hf hc)
  rw [stopsOrTakes, Bool.or_eq_true, Bool.not_eq_true'] at hk
  rcases hk with hk | hk
  · refine Or.inl fun form hf => ?_
    exact longest_eq_none (hnext form hf) (by simp [accessor]) hk _
  · refine (ht.append [none]).congr fun form hf => ?_
    have hhas : ∀ c ∈ accessor form, k.has c = true := by
      intro c hc
      cases k with
      | except d => simpa [CharClass.has] using accessor_takes hf hk c hc
      | notQuote =>
        have h₁ := accessor_takes hf (d := '"') (by decide) c hc
        have h₂ := accessor_takes hf (d := '\'') (by decide) c hc
        simp [CharClass.has, CharClass.isQuote, h₁, h₂]
      | _ => cases hk
    rw [longest_append_of_taken fun c hc => ⟨hhas c hc, hnext form hf c hc⟩, close_gap, close_nil,
      List.append_nil]

theorem settled_literal {w : Text} (hw : missesAccessor w = true)
    (hps : ∀ t, Settled t fun form => matchPieces ps (close form t)) (t : OpenText) :
    Settled t fun form => matchPieces (.literal w :: ps) (close form t) := by
  induction w generalizing t with
  | nil =>
    refine (hps t).congr fun form _ => ?_
    simp [matchPieces, Text.dropPrefix?]
  | cons d w ih =>
    rw [missesAccessor, Bool.and_eq_true, Bool.not_eq_true'] at hw
    cases t with
    | nil => exact settled_none
    | cons x t =>
      cases x with
      | some c =>
        by_cases hd : d = c
        · refine ((ih hw.2 t).after [some c]).congr fun form _ => ?_
          rw [close_char, matchPieces_literal_cons, if_pos hd, hd]
          rfl
        · refine settled_none.congr fun form _ => ?_
          rw [close_char, matchPieces_literal_cons, if_neg hd]
      | none =>
        -- a literal that met the accessor would agree with its beginning
        refine settled_none.congr fun form _ => ?_
        rw [Option.eq_none_iff_forall_ne_some]
        intro h hm
        obtain ⟨u, -, hu, -⟩ := matchPieces_literal_eq_some_iff.1 hm
        rw [close_gap, accessor, List.append_assoc] at hu
        have hagree := Text.agree_of_isPrefix (⟨u, rfl⟩ : d :: w <+: (d :: w) ++ u)
          (b := ['e', 'l', 'e', '.']) ⟨_, hu⟩
        rw [hagree] at hw
        cases hw.1

theorem settled_matchPieces (h : isSteady ps = true) (t : OpenText) :
    Settled t fun form => matchPieces ps (close form t) := by
  induction ps generalizing t with
  | nil => exact Or.inr ⟨[], t, [], rfl, fun _ _ => rfl⟩
  | cons p ps ih =>
    cases p with
    | literal w =>
      rw [isSteady, Bool.and_eq_true] at h
      exact settled_literal h.1 (ih h.2) t
    | one k =>
      rw [isSteady, Bool.and_eq_true, Bool.not_eq_true'] at h
      rcases t with _ | ⟨_ | c, t⟩
      · exact settled_none
      · -- the first character of an accessor is not in the class
        refine settled_none.congr fun form _ => ?_
        simp [close_gap, accessor, matchPieces, h.1]
      · by_cases hc : k.has c = true
        · refine ((ih h.2 t).after [some c]).congr fun form _ => ?_
          rw [close_char, matchPieces, if_pos hc]
          rfl
        · refine settled_none.congr fun form _ => ?_
          rw [close_char, matchPieces, if_neg hc]
    | many k =>
      rw [isSteady, Bool.and_eq_true, Bool.not_eq_true'] at h
      have hrun := settledRun_longest (ih h.2)
        (fun t _ => settledRun_gap_of_stop h.1 (ih h.2) t) t
      exact hrun.many.congr fun form _ => by rw [matchPieces]
    | field k =>
      simp only [isSteady, Bool.and_eq_true] at h
      obtain ⟨⟨he, hk⟩, hps⟩ := h
      have hrun := settledRun_longest (ih hps) (fun t => settledRun_gap_of_endsAt he hk) t
      exact hrun.field.congr fun form _ => matchPieces_field_eq_bind k ps _
    | lineEnd =>
      rcases t with _ | ⟨_ | c, t⟩
      · exact ih h []
      · refine settled_none.congr fun form _ => ?_
        simp [close_gap, accessor, matchPieces]
      · by_cases hc : c = '\n'
        · refine (ih h (some c :: t)).congr fun form _ => ?_
          rw [close_char, matchPieces, if_pos hc]
        · refine settled_none.congr fun form _ => ?_
          rw [close_char, matchPieces, if_neg hc]
    | oneOf ws => cases h
    | optional d => cases h

end OpenText

end GlideBridge
