import GlideBridge.Proofs.OpenText
import Mathlib.Data.List.Infix

/-! Reading a text with the pieces of a pattern, one character at a time. Behind each character
stand the pieces that are still to be read, in all ways in which the character can be taken. A
pattern has a hit at the start of a text exactly if some way of reading comes to an end, and the
ways that are under way in the middle of a text are among a finite list, so it can be computed
whether a fixed text lets any of them through. -/

namespace GlideBridge

namespace Pieces

def afterWord (c : Char) (ps : List Piece) (rest : List (List Piece)) : Text → List (List Piece)
  | [] => rest
  | d :: w => if d = c then [.literal w :: ps] else []

/-- What is left to read behind the character, in each way of taking it. -/
def after (c : Char) : List Piece → List (List Piece)
  | [] => []
  | .literal w :: ps => afterWord c ps (after c ps) w
  | .one k :: ps => if k.has c then [ps] else []
  | .many k :: ps => (if k.has c then [.many k :: ps] else []) ++ after c ps
  | .field k :: ps => if k.has c then [.many k :: ps] else []
  | .oneOf ws :: ps => ws.flatMap (afterWord c ps (after c ps))
  | .optional d :: ps => (if d = c then [ps] else []) ++ after c ps
  | .lineEnd :: _ => []

def done : List Piece → Bool
  | [] => true
  | .literal w :: ps => w.isEmpty && done ps
  | .many _ :: ps | .optional _ :: ps => done ps
  | .oneOf ws :: ps => ws.contains [] && done ps
  | .one _ :: _ | .field _ :: _ | .lineEnd :: _ => false

def reads : List Piece → Text → Bool
  | ps, [] => done ps
  | ps, c :: t => done ps || (after c ps).any fun qs => reads qs t

variable {ps qs : List Piece} {c : Char} {t : Text}

theorem reads_cons : reads ps (c :: t) = (done ps || (after c ps).any fun qs => reads qs t) := rfl

theorem reads_of_done (h : done ps = true) (t : Text) : reads ps t = true := by
  cases t with
  | nil => exact h
  | cons c t => rw [reads_cons, h, Bool.true_or]

theorem reads_nil_pieces (t : Text) : reads [] t = true := reads_of_done rfl t

theorem reads_literal_nil (ps : List Piece) (t : Text) :
    reads (.literal [] :: ps) t = reads ps t := by
  cases t <;> rfl

theorem reads_literal_cons (d : Char) (w : Text) (ps : List Piece) (t : Text) :
    reads (.literal (d :: w) :: ps) (c :: t) = (decide (d = c) && reads (.literal w :: ps) t) := by
  by_cases h : d = c <;> simp [reads_cons, done, after, afterWord, h]

theorem reads_literal_append (w : Text) (ps : List Piece) (t : Text) :
    reads (.literal w :: ps) (w ++ t) = reads ps t := by
  induction w with
  | nil => exact reads_literal_nil ps t
  | cons c w ih => simp [reads_literal_cons, ih]

theorem reads_one_cons (k : CharClass) (ps : List Piece) (c : Char) (t : Text) :
    reads (.one k :: ps) (c :: t) = (k.has c && reads ps t) := by
  by_cases h : k.has c = true <;> simp [reads_cons, done, after, h]

theorem reads_many_cons (k : CharClass) (ps : List Piece) (c : Char) (t : Text) :
    reads (.many k :: ps) (c :: t) = (k.has c && reads (.many k :: ps) t || reads ps (c :: t)) := by
  by_cases h : k.has c = true
  · simp only [reads_cons, done, after, h, if_true, List.any_append, List.any_cons, List.any_nil,
      Bool.or_false, Bool.true_and]
    exact Bool.or_left_comm ..
  · simp [reads_cons, done, after, h]

theorem reads_field_cons (k : CharClass) (ps : List Piece) (c : Char) (t : Text) :
    reads (.field k :: ps) (c :: t) = (k.has c && reads (.many k :: ps) t) := by
  by_cases h : k.has c = true <;> simp [reads_cons, done, after, h]

theorem reads_optional_cons (d : Char) (ps : List Piece) (c : Char) (t : Text) :
    reads (.optional d :: ps) (c :: t) = (decide (d = c) && reads ps t || reads ps (c :: t)) := by
  by_cases h : d = c
  · simp only [reads_cons, done, after, h, if_true, List.any_append, List.any_cons, List.any_nil,
      Bool.or_false, decide_true, Bool.true_and]
    exact Bool.or_left_comm ..
  · simp [reads_cons, done, after, h]

theorem reads_oneOf (ws : List Text) (ps : List Piece) (t : Text) :
    reads (.oneOf ws :: ps) t = ws.any fun w => reads (.literal w :: ps) t := by
  cases t with
  | nil =>
    induction ws with
    | nil => rfl
    | cons w ws ih =>
      rw [List.any_cons, ← ih]
      cases w <;> simp [reads, done]
  | cons c t =>
    induction ws with
    | nil => rfl
    | cons w ws ih =>
      rw [List.any_cons, ← ih]
      simp only [reads_cons, done, after, List.flatMap_cons, List.any_append]
      cases w with
      | nil => cases done ps <;> simp [afterWord]
      | cons d w => simp [Bool.or_left_comm]

theorem isSome_map {α β : Type} (o : Option α) (f : α → β) : (o.map f).isSome = o.isSome := by
  cases o <;> rfl

theorem isSome_literal (hps : ∀ t, (matchPieces ps t).isSome = reads ps t) (w t : Text) :
    (matchPieces (.literal w :: ps) t).isSome = reads (.literal w :: ps) t := by
  induction w generalizing t with
  | nil => simp [matchPieces, Text.dropPrefix?, hps, reads_literal_nil]
  | cons d w ih =>
    cases t with
    | nil => simp [matchPieces, Text.dropPrefix?, reads, done]
    | cons c t =>
      rw [matchPieces_literal_cons, reads_literal_cons, ← ih]
      by_cases h : d = c <;> simp [h]

theorem isSome_longest (k : CharClass) (hps : ∀ t, (matchPieces ps t).isSome = reads ps t)
    (t : Text) : (longest k (matchPieces ps) t).isSome = reads (.many k :: ps) t := by
  induction t with
  | nil => rw [longest, isSome_map, hps]; rfl
  | cons c t ih =>
    rw [longest, reads_many_cons, ← ih, ← hps]
    by_cases h : k.has c = true
    · cases longest k (matchPieces ps) t <;> simp [h]
    · simp [h]

theorem isSome_matchPieces (hps : .lineEnd ∉ ps) (t : Text) :
    (matchPieces ps t).isSome = reads ps t := by
  induction ps generalizing t with
  | nil => rw [reads_nil_pieces]; rfl
  | cons p ps ih =>
    rw [List.mem_cons, not_or] at hps
    replace ih := ih hps.2
    cases p with
    | literal w => exact isSome_literal ih w t
    | one k =>
      cases t with
      | nil => rfl
      | cons c t =>
        rw [matchPieces, reads_one_cons, ← ih]
        by_cases h : k.has c = true <;> simp [h]
    | many k => rw [matchPieces, isSome_map, isSome_longest k ih]
    | field k =>
      cases t with
      | nil => rfl
      | cons c t =>
        rw [matchPieces, reads_field_cons, ← isSome_longest k ih]
        by_cases h : k.has c = true <;> simp [h]
    | oneOf ws =>
      rw [reads_oneOf, matchPieces]
      -- on the words: a later one is tried where the pieces fail behind an earlier one
      induction ws with
      | nil => rfl
      | cons w ws ihws =>
        have hw := isSome_literal ih w t
        rw [matchPieces] at hw
        rw [List.any_cons, ← ihws ⟨by simp, hps.2⟩, ← hw, List.findSome?_cons]
        split <;> simp_all
    | optional d =>
      cases t with
      | nil => exact ih []
      | cons c t =>
        rw [matchPieces, reads_optional_cons, ← ih, ← ih]
        by_cases h : c = d
        · cases matchPieces ps t <;> simp [h]
        · simp [h, Ne.symm h]
    | lineEnd => exact absurd rfl hps.1

def afterAll : Text → List Piece → List (List Piece)
  | [], ps => [ps]
  | c :: t, ps => (after c ps).flatMap (afterAll t)

theorem reads_append (ps : List Piece) (a b : Text) :
    reads ps (a ++ b) = (reads ps a || (afterAll a ps).any fun qs => reads qs b) := by
  induction a generalizing ps with
  | nil =>
    rw [List.nil_append, reads, afterAll, List.any_cons, List.any_nil, Bool.or_false]
    cases h : done ps with
    | true => rw [reads_of_done h, Bool.true_or]
    | false => rw [Bool.false_or]
  | cons c a ih =>
    rw [List.cons_append, reads_cons, reads_cons, Bool.or_assoc, afterAll, List.any_flatMap]
    congr 1
    simp only [ih]
    induction after c ps with
    | nil => rfl
    | cons qs l ihl =>
      simp only [List.any_cons, ihl]
      ac_rfl

theorem reads_append_of_reads (h : reads ps t = true) (u : Text) : reads ps (t ++ u) = true := by
  rw [reads_append, h, Bool.true_or]

def later : List Piece → List (List Piece)
  | [] | .lineEnd :: _ => []
  | .literal w :: ps => w.tail.tails.map (.literal · :: ps) ++ later ps
  | .oneOf ws :: ps => (ws.flatMap fun w => w.tail.tails.map (.literal · :: ps)) ++ later ps
  | .one _ :: ps | .optional _ :: ps => ps :: later ps
  | .many k :: ps | .field k :: ps => (.many k :: ps) :: later ps

theorem mem_afterWord {w : Text} {rest : List (List Piece)} :
    qs ∈ afterWord c ps rest w ↔
      (w = [] ∧ qs ∈ rest) ∨ ∃ v, w = c :: v ∧ qs = .literal v :: ps := by
  cases w with
  | nil => simp [afterWord]
  | cons d w =>
    rw [afterWord]
    split
    · next h => simp [h]
    · next h => simp [h]

theorem mem_later_of_after (h : qs ∈ after c ps) : qs ∈ later ps := by
  induction ps with
  | nil => cases h
  | cons p ps ih =>
    cases p with
    | literal w =>
      rcases mem_afterWord.1 h with ⟨-, h⟩ | ⟨v, rfl, rfl⟩
      · exact List.mem_append_right _ (ih h)
      · exact List.mem_append_left _ (by simp)
    | oneOf ws =>
      obtain ⟨w, hw, h⟩ := List.mem_flatMap.1 h
      rcases mem_afterWord.1 h with ⟨-, h⟩ | ⟨v, rfl, rfl⟩
      · exact List.mem_append_right _ (ih h)
      · exact List.mem_append_left _ (List.mem_flatMap.2 ⟨_, hw, by simp⟩)
    | one k | field k =>
      obtain ⟨-, h⟩ := List.mem_ite_nil_right.1 h
      exact List.mem_cons.2 (Or.inl (List.mem_singleton.1 h))
    | many k | optional d =>
      rcases List.mem_append.1 h with h | h
      · obtain ⟨-, h⟩ := List.mem_ite_nil_right.1 h
        exact List.mem_cons.2 (Or.inl (List.mem_singleton.1 h))
      · exact List.mem_cons_of_mem _ (ih h)
    | lineEnd => cases h

theorem later_of_literal {w : Text} {rs : List Piece}
    (hw : qs ∈ w.tail.tails.map (.literal · :: ps))
    (h : rs ∈ after c qs) : rs ∈ w.tail.tails.map (.literal · :: ps) ∨ rs ∈ later ps := by
  obtain ⟨v, hv, rfl⟩ := List.mem_map.1 hw
  rcases mem_afterWord.1 h with ⟨-, h⟩ | ⟨u, rfl, rfl⟩
  · exact Or.inr (mem_later_of_after h)
  · have hu : u <:+ w.tail := (List.suffix_cons c u).trans ((List.mem_tails _ _).1 hv)
    exact Or.inl (List.mem_map_of_mem ((List.mem_tails _ _).2 hu))

theorem mem_later_of_later {rs : List Piece} (hq : qs ∈ later ps) (h : rs ∈ after c qs) :
    rs ∈ later ps := by
  induction ps with
  | nil => cases hq
  | cons p ps ih =>
    cases p with
    | literal w =>
      refine List.mem_append.2 ?_
      rcases List.mem_append.1 hq with hq | hq
      · exact later_of_literal hq h
      · exact Or.inr (ih hq)
    | oneOf ws =>
      refine List.mem_append.2 ?_
      rcases List.mem_append.1 hq with hq | hq
      · obtain ⟨w, hw, hq⟩ := List.mem_flatMap.1 hq
        exact (later_of_literal hq h).imp_left fun h => List.mem_flatMap.2 ⟨w, hw, h⟩
      · exact Or.inr (ih hq)
    | one k | optional d =>
      rcases List.mem_cons.1 hq with rfl | hq
      · exact List.mem_cons_of_mem _ (mem_later_of_after h)
      · exact List.mem_cons_of_mem _ (ih hq)
    | many k | field k =>
      rcases List.mem_cons.1 hq with rfl | hq
      · -- behind a character of a run the run goes on, or the pieces behind it begin
        rcases List.mem_append.1 h with h | h
        · obtain ⟨-, h⟩ := List.mem_ite_nil_right.1 h
          exact List.mem_cons.2 (Or.inl (List.mem_singleton.1 h))
        · exact List.mem_cons_of_mem _ (mem_later_of_after h)
      · exact List.mem_cons_of_mem _ (ih hq)
    | lineEnd => cases hq

theorem mem_later_of_afterAll (h : qs ∈ afterAll (c :: t) ps) : qs ∈ later ps := by
  suffices ∀ rs ∈ later ps, ∀ t, qs ∈ afterAll t rs → qs ∈ later ps by
    obtain ⟨rs, hr, hq⟩ := List.mem_flatMap.1 h
    exact this rs (mem_later_of_after hr) t hq
  intro rs hr t hq
  induction t generalizing rs with
  | nil => exact List.mem_singleton.1 hq ▸ hr
  | cons d t ih =>
    obtain ⟨rs', hr', hq⟩ := List.mem_flatMap.1 hq
    exact ih rs' (mem_later_of_later hr hr') hq

theorem reads_of_done_of_afterAll (h : qs ∈ afterAll t ps) (hd : done qs = true) :
    reads ps t = true := by
  rw [← List.append_nil t, reads_append, Bool.or_eq_true, List.any_eq_true]
  exact Or.inr ⟨qs, h, hd⟩

/-- No way of reading comes through the text, and none comes to an end in it. -/
def refuses (ps : List Piece) (l : Text) : Bool := !reads ps l && (afterAll l ps).isEmpty

theorem reads_append_of_refuses {l : Text} (h : refuses ps l = true) (t : Text) :
    reads ps (l ++ t) = false := by
  simp only [refuses, Bool.and_eq_true, Bool.not_eq_true', List.isEmpty_iff] at h
  rw [reads_append, h.1, h.2]
  rfl

/-- No hit begins in the text, whatever follows it. -/
def silent (ps : List Piece) (l : Text) : Bool := l.tails.all fun v => v.isEmpty || refuses ps v

def refusesRec : List Piece → Text → Bool
  | _, [] => false
  | ps, c :: t => !done ps && (after c ps).all fun qs => refusesRec qs t

def silentRec (ps : List Piece) : Text → Bool
  | [] => true
  | c :: t => refusesRec ps (c :: t) && silentRec ps t

theorem all_refuses (xs : List (List Piece)) (l : Text) : (xs.all fun qs => refuses qs l) =
    (!(xs.any fun qs => reads qs l) && (xs.flatMap (afterAll l)).isEmpty) := by
  induction xs with
  | nil => rfl
  | cons qs xs ih =>
    have happend : (afterAll l qs ++ xs.flatMap (afterAll l)).isEmpty =
        ((afterAll l qs).isEmpty && (xs.flatMap (afterAll l)).isEmpty) := by
      cases afterAll l qs <;> rfl
    rw [List.all_cons, ih, refuses, List.any_cons, List.flatMap_cons, happend, Bool.not_or]
    ac_rfl

theorem refusesRec_eq (ps : List Piece) (l : Text) : refusesRec ps l = refuses ps l := by
  induction l generalizing ps with
  | nil => exact (Bool.and_false _).symm
  | cons c l ih =>
    have hfun : (fun qs => refusesRec qs l) = fun qs => refuses qs l := funext ih
    rw [refusesRec, hfun, all_refuses, refuses, reads_cons, afterAll, Bool.not_or, Bool.and_assoc]

theorem silentRec_eq (ps : List Piece) (l : Text) : silentRec ps l = silent ps l := by
  induction l with
  | nil => rfl
  | cons c l ih =>
    rw [silentRec, refusesRec_eq, ih, silent, silent, List.tails, List.all_cons,
      List.isEmpty_cons, Bool.false_or]

/-- No hit that begins in front of the text goes into it. -/
def cuts (ps : List Piece) (l : Text) : Bool := (later ps).all fun qs => done qs || refuses qs l

theorem reads_suffix_append {l v : Text} (h : silent ps l = true) (hv : v <:+ l) (hne : v ≠ [])
    (t : Text) : reads ps (v ++ t) = false := by
  have hall := List.all_eq_true.1 h v ((List.mem_tails _ _).2 hv)
  simp only [Bool.or_eq_true, List.isEmpty_iff, hne, false_or] at hall
  exact reads_append_of_refuses hall t

theorem reads_or_of_append {a b : Text} (hne : a ≠ []) (h : reads ps (a ++ b) = true) :
    reads ps a = true ∨
      ∃ qs ∈ later ps, qs ∈ afterAll a ps ∧ done qs = false ∧ reads qs b = true := by
  obtain ⟨c, a, rfl⟩ := List.exists_cons_of_ne_nil hne
  rw [reads_append, Bool.or_eq_true, List.any_eq_true] at h
  rcases h with h | ⟨qs, hq, h⟩
  · exact Or.inl h
  · cases hd : done qs with
    | true => exact Or.inl (reads_of_done_of_afterAll hq hd)
    | false => exact Or.inr ⟨qs, mem_later_of_afterAll hq, hq, hd, h⟩

theorem reads_append_of_cuts {l a : Text} (h : cuts ps l = true) (hne : a ≠ []) (t : Text) :
    reads ps (a ++ (l ++ t)) = reads ps a := by
  rw [Bool.eq_iff_iff]
  refine ⟨fun hr => ?_, fun hr => reads_append_of_reads hr _⟩
  refine (reads_or_of_append hne hr).resolve_right ?_
  rintro ⟨qs, hq, -, hd, hr⟩
  have hall := List.all_eq_true.1 h qs hq
  rw [hd, Bool.false_or] at hall
  rw [reads_append_of_refuses hall] at hr
  cases hr

end Pieces

end GlideBridge
