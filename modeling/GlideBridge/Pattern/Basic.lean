import GlideBridge.Text.Basic

/-!
Patterns for call texts. A pattern opens with a fixed non-empty text and goes on with pieces;
pieces that repeat take as much as they can and give characters back one at a time when the rest
does not follow. A hit holds the text taken, which `taken_append_of_match` shows to be a
beginning of the text read, and the captured fields in the order of their pieces.
-/

namespace GlideBridge

inductive CharClass where
  | blank
  /-- ASCII letters, digits and the underscore. -/
  | word
  | fieldName
  | letter
  | quote
  | notQuote
  | except (c : Char)
  deriving DecidableEq, Repr

namespace CharClass

def isWord (c : Char) : Bool := c.isAlphanum || c == '_'

def isQuote (c : Char) : Bool := c == '"' || c == '\''

def has : CharClass → Char → Bool
  | blank, c => Text.isBlank c
  | word, c => isWord c
  | fieldName, c => isWord c || c == '-'
  | letter, c => c.isAlpha
  | quote, c => isQuote c
  | notQuote, c => !isQuote c
  | except d, c => c != d

end CharClass

inductive Piece where
  | literal (text : Text)
  | one (k : CharClass)
  | many (k : CharClass)
  /-- A captured run of at least one character. -/
  | field (k : CharClass)
  | oneOf (words : List Text)
  | optional (c : Char)
  /-- Takes nothing; holds at the end of the text and before a newline. -/
  | lineEnd
  deriving DecidableEq, Repr

instance : Coe String Piece := ⟨fun s => .literal s⟩

structure Hit where
  taken : Text
  fields : List Text
  deriving DecidableEq, Repr

namespace Hit

def after (w : Text) (h : Hit) : Hit := { h with taken := w ++ h.taken }

def capture (w : Text) (h : Hit) : Hit := ⟨w ++ h.taken, w :: h.fields⟩

end Hit

def longest (k : CharClass) (next : Text → Option Hit) : Text → Option (Text × Hit)
  | [] => (next []).map ([], ·)
  | c :: t =>
    if k.has c then
      match longest k next t with
      | some (run, h) => some (c :: run, h)
      | none => (next (c :: t)).map ([], ·)
    else (next (c :: t)).map ([], ·)

def matchPieces : List Piece → Text → Option Hit
  | [], _ => some ⟨[], []⟩
  | .literal w :: ps, t =>
    match Text.dropPrefix? w t with
    | some r => (matchPieces ps r).map (Hit.after w)
    | none => none
  | .one _ :: _, [] => none
  | .one k :: ps, c :: t => if k.has c then (matchPieces ps t).map (Hit.after [c]) else none
  | .many k :: ps, t => (longest k (matchPieces ps) t).map fun r => r.2.after r.1
  | .field _ :: _, [] => none
  | .field k :: ps, c :: t =>
    if k.has c then (longest k (matchPieces ps) t).map fun r => r.2.capture (c :: r.1) else none
  | .oneOf ws :: ps, t =>
    ws.findSome? fun w =>
      match Text.dropPrefix? w t with
      | some r => (matchPieces ps r).map (Hit.after w)
      | none => none
  | .optional _ :: ps, [] => matchPieces ps []
  | .optional d :: ps, c :: t =>
    if c = d then
      match matchPieces ps t with
      | some h => some (h.after [c])
      | none => matchPieces ps (c :: t)
    else matchPieces ps (c :: t)
  | .lineEnd :: ps, [] => matchPieces ps []
  | .lineEnd :: ps, c :: t => if c = '\n' then matchPieces ps (c :: t) else none

structure Pattern where
  opening : Text
  pieces : List Piece := []
  /-- Hits start only at the start of a line. -/
  lineStart : Bool := false
  opening_ne : opening ≠ [] := by decide

namespace Pattern

/-- The hit at the start of `t`; `fresh` tells that a line starts there. -/
def matchAt (p : Pattern) (fresh : Bool) (t : Text) : Option Hit :=
  if p.lineStart && !fresh then none else matchPieces (.literal p.opening :: p.pieces) t

end Pattern

theorem longest_run {k : CharClass} {next : Text → Option Hit} {t : Text} {r : Text × Hit}
    (h : longest k next t = some r) :
    (∀ c ∈ r.1, k.has c = true) ∧ ∃ u, t = r.1 ++ u ∧ next u = some r.2 := by
  have stop {t : Text} {r : Text × Hit} (h : (next t).map ([], ·) = some r) :
      (∀ c ∈ r.1, k.has c = true) ∧ ∃ u, t = r.1 ++ u ∧ next u = some r.2 := by
    obtain ⟨g, hg, rfl⟩ := Option.map_eq_some_iff.1 h
    exact ⟨by simp, t, rfl, hg⟩
  induction t generalizing r with
  | nil => exact stop h
  | cons c t ih =>
    rw [longest] at h
    split at h
    · next hc =>
      split at h
      · next run g hrun =>
        cases h
        obtain ⟨hall, u, ht, hu⟩ := ih hrun
        exact ⟨List.forall_mem_cons.2 ⟨hc, hall⟩, u, by simp [ht], hu⟩
      · exact stop h
    · exact stop h

inductive Piece.Takes : Piece → Text → List Text → Prop
  | literal (w : Text) : Takes (.literal w) w []
  | one {k : CharClass} {c : Char} : k.has c = true → Takes (.one k) [c] []
  | many {k : CharClass} {w : Text} : (∀ c ∈ w, k.has c = true) → Takes (.many k) w []
  | field {k : CharClass} {w : Text} :
      w ≠ [] → (∀ c ∈ w, k.has c = true) → Takes (.field k) w [w]
  | oneOf {ws : List Text} {w : Text} : w ∈ ws → Takes (.oneOf ws) w []
  | present (c : Char) : Takes (.optional c) [c] []
  | absent (c : Char) : Takes (.optional c) [] []
  | lineEnd : Takes .lineEnd [] []

def Hit.extend (w : Text) (fs : List Text) (h : Hit) : Hit := ⟨w ++ h.taken, fs ++ h.fields⟩

theorem exists_of_matchPieces_cons {p : Piece} {ps : List Piece} {t : Text} {h : Hit}
    (hm : matchPieces (p :: ps) t = some h) :
    ∃ w fs u g, p.Takes w fs ∧ t = w ++ u ∧ matchPieces ps u = some g ∧ h = g.extend w fs := by
  have step {w u : Text} {fs : List Text} (hp : p.Takes w fs) (ht : t = w ++ u)
      (hu : (matchPieces ps u).map (Hit.extend w fs) = some h) :
      ∃ w fs u g, p.Takes w fs ∧ t = w ++ u ∧ matchPieces ps u = some g ∧ h = g.extend w fs := by
    obtain ⟨g, hg, rfl⟩ := Option.map_eq_some_iff.1 hu
    exact ⟨w, fs, u, g, hp, ht, hg, rfl⟩
  cases p with
  | literal w =>
    rw [matchPieces] at hm
    split at hm
    · next u hu => exact step (.literal w) (Text.dropPrefix?_eq_some_iff.1 hu) hm
    · cases hm
  | one k =>
    cases t with
    | nil => cases hm
    | cons c t =>
      rw [matchPieces] at hm
      split at hm
      · next hc => exact step (.one hc) rfl hm
      · cases hm
  | many k =>
    rw [matchPieces] at hm
    obtain ⟨r, hr, rfl⟩ := Option.map_eq_some_iff.1 hm
    obtain ⟨hrun, u, ht, hu⟩ := longest_run hr
    exact ⟨r.1, [], u, r.2, .many hrun, ht, hu, rfl⟩
  | field k =>
    cases t with
    | nil => cases hm
    | cons c t =>
      rw [matchPieces] at hm
      split at hm
      · next hc =>
        obtain ⟨r, hr, rfl⟩ := Option.map_eq_some_iff.1 hm
        obtain ⟨hrun, u, ht, hu⟩ := longest_run hr
        have hfield : Piece.Takes (.field k) (c :: r.1) [c :: r.1] :=
          .field (by simp) (List.forall_mem_cons.2 ⟨hc, hrun⟩)
        exact ⟨_, _, u, r.2, hfield, by simp [ht], hu, rfl⟩
      · cases hm
  | oneOf ws =>
    rw [matchPieces] at hm
    obtain ⟨w, hw, hm⟩ := List.exists_of_findSome?_eq_some hm
    split at hm
    · next u hu => exact step (.oneOf hw) (Text.dropPrefix?_eq_some_iff.1 hu) hm
    · cases hm
  | optional d =>
    have absent (hm : matchPieces ps t = some h) := step (.absent d) rfl (by rw [hm]; rfl)
    cases t with
    | nil => exact absent hm
    | cons c t =>
      rw [matchPieces] at hm
      split at hm
      · next hc =>
        split at hm
        · next g hg =>
          cases hm
          exact ⟨[d], [], t, g, .present d, by simp [hc], hg, by rw [hc]; rfl⟩
        · exact absent hm
      · exact absent hm
  | lineEnd =>
    have atEnd (hm : matchPieces ps t = some h) := step .lineEnd rfl (by rw [hm]; rfl)
    cases t with
    | nil => exact atEnd hm
    | cons c t =>
      rw [matchPieces] at hm
      split at hm
      · exact atEnd hm
      · cases hm

theorem taken_append_of_match {ps : List Piece} {t : Text} {h : Hit}
    (hm : matchPieces ps t = some h) : ∃ u, t = h.taken ++ u := by
  induction ps generalizing t h with
  | nil => cases hm; exact ⟨t, rfl⟩
  | cons p ps ih =>
    obtain ⟨w, fs, u, g, -, rfl, hg, rfl⟩ := exists_of_matchPieces_cons hm
    obtain ⟨v, rfl⟩ := ih hg
    exact ⟨v, by simp [Hit.extend]⟩

end GlideBridge
