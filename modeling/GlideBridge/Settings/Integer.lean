import GlideBridge.Text.Digits

/-!
Integers as settings may spell them: blanks around the number, a sign, zeros in front, single
underscores between digits and a fraction of zeros are allowed.
-/

namespace GlideBridge.Settings.Integer

/-- The separators of files, groups, records and units are no blanks here. -/
def isBlank (c : Char) : Bool := Text.isBlank c && !(0x1C ≤ c.toNat && c.toNat ≤ 0x1F)

def trim (t : Text) : Text := ((t.dropWhile isBlank).reverse.dropWhile isBlank).reverse

def splitSign : Text → Bool × Text
  | '-' :: t => (true, t)
  | '+' :: t => (false, t)
  | t => (false, t)

/-- What stands behind zeros and underscores, with the last of them where no digit follows. -/
def dropZeros (last : Char) : Text → Option Text
  | [] => some [last]
  | c :: t =>
    if c = '0' ∨ c = '_' then dropZeros c t
    else if c.isDigit then some (c :: t)
    else if c = '.' then some (last :: c :: t)
    else none

def dropLeadingZeros : Text → Option Text
  | '0' :: t => dropZeros '0' t
  | c :: t => if c.isDigit then some (c :: t) else none
  | [] => none

def dropFraction (t : Text) : Text :=
  match t.dropWhile (· != '.') with
  | '.' :: '0' :: zeros => if zeros.all (· == '0') then t.takeWhile (· != '.') else t
  | _ => t

def digits? : Text → Option Text
  | [] => none
  | [c] => if c.isDigit then some [c] else none
  | c :: '_' :: t => if c.isDigit then (digits? t).map (c :: ·) else none
  | c :: t => if c.isDigit then (digits? t).map (c :: ·) else none

def parse? (t : Text) : Option Int := do
  let (negative, u) := splitSign (trim t)
  let v ← dropLeadingZeros u
  let ds ← digits? (dropFraction v)
  let n : Int := Digits.toNat ds
  return if negative then -n else n

end GlideBridge.Settings.Integer
