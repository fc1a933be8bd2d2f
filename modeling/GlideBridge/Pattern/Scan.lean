import GlideBridge.Pattern.Basic

/-!
Cutting a text into the hits of a pattern and the characters between them. The scan goes from
left to right, takes each hit at the first place where one starts and goes on behind it, so hits
never overlap; `source_scan` says that the segments put together are the text again.
-/

namespace GlideBridge

inductive Segment where
  | kept (c : Char)
  | hit (h : Hit)
  deriving DecidableEq, Repr

namespace Segment

def source : Segment → Text
  | kept c => [c]
  | hit h => h.taken

def hit? : Segment → Option Hit
  | kept _ => none
  | hit h => some h

end Segment

namespace Pattern

/-- The segments behind the next `skip` characters, which belong to a hit already taken. -/
def scanFrom (p : Pattern) : Bool → Nat → Text → List Segment
  | _, _, [] => []
  | _, skip + 1, c :: t => scanFrom p (c == '\n') skip t
  | fresh, 0, c :: t =>
    match p.matchAt fresh (c :: t) with
    | some h => .hit h :: scanFrom p (c == '\n') (h.taken.length - 1) t
    | none => .kept c :: scanFrom p (c == '\n') 0 t

def scan (p : Pattern) (t : Text) : List Segment := p.scanFrom true 0 t

def hits (p : Pattern) (t : Text) : List Hit := (p.scan t).filterMap Segment.hit?

theorem taken_of_matchAt {p : Pattern} {fresh : Bool} {t : Text} {h : Hit}
    (hm : p.matchAt fresh t = some h) : h.taken ≠ [] ∧ ∃ u, t = h.taken ++ u := by
  rw [matchAt] at hm
  split at hm
  · cases hm
  · refine ⟨?_, taken_append_of_match hm⟩
    rw [matchPieces] at hm
    split at hm
    · obtain ⟨h', -, rfl⟩ := Option.map_eq_some_iff.1 hm
      simp [Hit.after, p.opening_ne]
    · cases hm

def freshAfter (fresh : Bool) (w : Text) : Bool := (w.getLast?.map (· == '\n')).getD fresh

theorem scanFrom_append (p : Pattern) (fresh : Bool) (w u : Text) :
    p.scanFrom fresh w.length (w ++ u) = p.scanFrom (freshAfter fresh w) 0 u := by
  induction w generalizing fresh with
  | nil => simp [freshAfter]
  | cons c w ih =>
    rw [List.cons_append, List.length_cons, scanFrom, ih]
    cases w with
    | nil => simp [freshAfter]
    | cons d w => simp [freshAfter, List.getLast?_cons]

theorem scanFrom_of_hit {p : Pattern} {fresh : Bool} {h : Hit} {u : Text}
    (hm : p.matchAt fresh (h.taken ++ u) = some h) :
    p.scanFrom fresh 0 (h.taken ++ u) = .hit h :: p.scanFrom (freshAfter fresh h.taken) 0 u := by
  obtain ⟨c, w, hw⟩ := List.exists_cons_of_ne_nil (taken_of_matchAt hm).1
  rw [hw, List.cons_append] at hm ⊢
  rw [scanFrom, hm]
  have := scanFrom_append p fresh (c :: w) u
  rw [List.cons_append, List.length_cons, scanFrom] at this
  simp [hw, this]

theorem scanFrom_of_miss {p : Pattern} {fresh : Bool} {c : Char} {t : Text}
    (hm : p.matchAt fresh (c :: t) = none) :
    p.scanFrom fresh 0 (c :: t) = .kept c :: p.scanFrom (c == '\n') 0 t := by
  rw [scanFrom, hm]

theorem scanFrom_fresh_irrelevant {p : Pattern} (h : p.lineStart = false) (a b : Bool)
    (skip : Nat) (t : Text) : p.scanFrom a skip t = p.scanFrom b skip t := by
  have matchAt_eq (u : Text) : p.matchAt a u = p.matchAt b u := by simp [matchAt, h]
  cases t with
  | nil => rw [scanFrom, scanFrom]
  | cons c t =>
    cases skip with
    | zero => rw [scanFrom, scanFrom, matchAt_eq]
    | succ skip => rw [scanFrom, scanFrom]

theorem source_scanFrom (p : Pattern) (fresh : Bool) (skip : Nat) (t : Text) :
    (p.scanFrom fresh skip t).flatMap Segment.source = t.drop skip := by
  induction t generalizing fresh skip with
  | nil => simp [scanFrom]
  | cons c t ih =>
    cases skip with
    | succ skip => simpa [scanFrom] using ih (c == '\n') skip
    | zero =>
      rw [scanFrom]
      split
      · next h hm =>
        obtain ⟨hne, u, hu⟩ := taken_of_matchAt hm
        obtain ⟨d, w, hw⟩ := List.exists_cons_of_ne_nil hne
        rw [hw, List.cons_append] at hu
        obtain ⟨rfl, ht⟩ := List.cons.inj hu
        simp only [List.flatMap_cons, Segment.source, ih, hw, List.length_cons,
          Nat.add_sub_cancel, List.drop_zero]
        simp [ht]
      · simpa [Segment.source] using ih (c == '\n') 0

theorem source_scan (p : Pattern) (t : Text) : (p.scan t).flatMap Segment.source = t :=
  source_scanFrom p true 0 t

end Pattern

end GlideBridge
