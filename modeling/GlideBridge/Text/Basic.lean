/-!
Texts as sequences of Unicode code points: blank characters, trimming, lines and indentation.
Lines are separated by the newline character alone, so a text has one line more than it has
newlines, and joining the lines again gives the text back.
-/

namespace GlideBridge

abbrev Text := List Char

instance : Coe String Text := ⟨String.toList⟩

namespace Text

def blankRanges : List (Nat × Nat) :=
  [(0x09, 0x0D), (0x1C, 0x20), (0x85, 0x85), (0xA0, 0xA0), (0x1680, 0x1680), (0x2000, 0x200A),
    (0x2028, 0x2029), (0x202F, 0x202F), (0x205F, 0x205F), (0x3000, 0x3000)]

def isBlank (c : Char) : Bool :=
  blankRanges.any fun r => r.1 ≤ c.toNat && c.toNat ≤ r.2

def trimLeft (t : Text) : Text := t.dropWhile isBlank

def trimRight (t : Text) : Text := (t.reverse.dropWhile isBlank).reverse

def trim (t : Text) : Text := trimRight (trimLeft t)

def lines : Text → List Text
  | [] => [[]]
  | c :: t =>
    if c = '\n' then [] :: lines t
    else
      match lines t with
      | [] => [[c]]
      | l :: ls => (c :: l) :: ls

def joinLines (ls : List Text) : Text := ['\n'].intercalate ls

theorem lines_ne_nil (t : Text) : lines t ≠ [] := by
  cases t with
  | nil => simp [lines]
  | cons c t =>
    rw [lines]
    repeat' split
    all_goals simp

theorem joinLines_cons {ls : List Text} (l : Text) (h : ls ≠ []) :
    joinLines (l :: ls) = l ++ '\n' :: joinLines ls := by
  cases ls with
  | nil => exact absurd rfl h
  | cons m ls => simp [joinLines, List.intercalate, List.intersperse]

theorem joinLines_lines (t : Text) : joinLines (lines t) = t := by
  induction t with
  | nil => rfl
  | cons c t ih =>
    have hne := lines_ne_nil t
    rw [lines]
    split
    · next hc => simp [joinLines_cons _ hne, ih, hc]
    · split
      · next hl => exact absurd hl hne
      · next l ls hl =>
        rw [hl] at ih
        rw [← ih]
        cases ls with
        | nil => rfl
        | cons m ls => simp [joinLines_cons]

/-- Every line gets the unit in front, empty lines too. -/
def indent (unit t : Text) : Text := joinLines ((lines t).map (unit ++ ·))

def joinWith (sep : Text) (ts : List Text) : Text := sep.intercalate ts

def dropPrefix? : Text → Text → Option Text
  | [], t => some t
  | _ :: _, [] => none
  | w :: ws, c :: t => if w = c then dropPrefix? ws t else none

theorem dropPrefix?_eq_some_iff {w t r : Text} : dropPrefix? w t = some r ↔ t = w ++ r := by
  induction w generalizing t with
  | nil => simp [dropPrefix?, eq_comm]
  | cons a w ih =>
    cases t with
    | nil => simp [dropPrefix?]
    | cons c t =>
      by_cases h : a = c
      · simp [dropPrefix?, h, ih]
      · simp [dropPrefix?, h, Ne.symm h]

end Text

end GlideBridge
