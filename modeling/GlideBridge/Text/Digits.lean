import GlideBridge.Text.Basic

/-! Numerals: decimal digits of naturals and integers, and hexadecimal digits of fixed width. -/

namespace GlideBridge.Digits

def ofNat (n : Nat) : Text := Nat.toDigits 10 n

def ofInt : Int → Text
  | .ofNat n => ofNat n
  | .negSucc n => '-' :: ofNat (n + 1)

def value (c : Char) : Nat := c.toNat - '0'.toNat

def toNat (digits : Text) : Nat := digits.foldl (fun n c => 10 * n + value c) 0

def hexValue? (c : Char) : Option Nat :=
  if c.isDigit then some (value c)
  else if 'a' ≤ c ∧ c ≤ 'f' then some (c.toNat - 'a'.toNat + 10)
  else if 'A' ≤ c ∧ c ≤ 'F' then some (c.toNat - 'A'.toNat + 10)
  else none

def hexDigit (n : Nat) : Char := Nat.digitChar (n % 16)

/-- The last `width` hexadecimal digits of `n`. -/
def hex : Nat → Nat → Text
  | 0, _ => []
  | width + 1, n => hex width (n / 16) ++ [hexDigit n]

end GlideBridge.Digits
