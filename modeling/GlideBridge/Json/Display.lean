import GlideBridge.Json.Basic
import GlideBridge.Text.Digits
import GlideBridge.Text.Visible

/-!
How messages and outputs show a JSON value: a text as it is where the value itself is asked for,
and in quotes inside other values and in messages.
-/

namespace GlideBridge.Json

def kindName : Json → Text
  | null => "NoneType"
  | bool _ => "bool"
  | integer _ => "int"
  | decimal _ => "float"
  | text _ => "str"
  | list _ => "list"
  | object _ => "dict"

def quoteFor (t : Text) : Char := if t.contains '\'' && !t.contains '"' then '"' else '\''

def hexEscape (n : Nat) : Text :=
  if n ≤ 0xFF then "\\x" ++ Digits.hex 2 n
  else if n ≤ 0xFFFF then "\\u" ++ Digits.hex 4 n
  else "\\U" ++ Digits.hex 8 n

def displayChar (quote c : Char) : Text :=
  if c = quote ∨ c = '\\' then ['\\', c]
  else if c = '\n' then "\\n"
  else if c = '\r' then "\\r"
  else if c = '\t' then "\\t"
  else if Text.isVisible c then [c]
  else hexEscape c.toNat

def displayText (t : Text) : Text :=
  let quote := quoteFor t
  quote :: t.flatMap (displayChar quote) ++ [quote]

mutual

def display : Json → Text
  | null => "None"
  | bool true => "True"
  | bool false => "False"
  | integer n => Digits.ofInt n
  | decimal w => w
  | text t => displayText t
  | list items => '[' :: Text.joinWith ", " (displayItems items) ++ [']']
  | object members => '{' :: Text.joinWith ", " (displayMembers members) ++ ['}']

def displayItems : List Json → List Text
  | [] => []
  | v :: vs => display v :: displayItems vs

def displayMembers : List (Text × Json) → List Text
  | [] => []
  | m :: ms => (displayText m.1 ++ ": " ++ display m.2) :: displayMembers ms

end

def plain : Json → Text
  | text t => t
  | v => v.display

end GlideBridge.Json
