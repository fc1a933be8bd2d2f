import GlideBridge.Json.Basic
import GlideBridge.Text.Digits

/-! Writing JSON documents without gaps and in ASCII characters only. -/

namespace GlideBridge.Json

def unicodeEscapeOf (n : Nat) : Text := "\\u" ++ Digits.hex 4 n

def escaped (c : Char) : Text :=
  if c = '"' then "\\\""
  else if c = '\\' then "\\\\"
  else if c.toNat < 0x20 ∨ 0x7E < c.toNat then
    if c.toNat < 0x10000 then unicodeEscapeOf c.toNat
    else
      let n := c.toNat - 0x10000
      unicodeEscapeOf (0xD800 + n / 0x400) ++ unicodeEscapeOf (0xDC00 + n % 0x400)
  else [c]

def quoted (t : Text) : Text := '"' :: t.flatMap escaped ++ ['"']

mutual

def render : Json → Text
  | null => "null"
  | bool true => "true"
  | bool false => "false"
  | integer n => Digits.ofInt n
  | decimal w => w
  | text t => quoted t
  | list items => '[' :: Text.joinWith "," (renderItems items) ++ [']']
  | object members => '{' :: Text.joinWith "," (renderMembers members) ++ ['}']

def renderItems : List Json → List Text
  | [] => []
  | v :: vs => render v :: renderItems vs

def renderMembers : List (Text × Json) → List Text
  | [] => []
  | m :: ms => (quoted m.1 ++ ':' :: render m.2) :: renderMembers ms

end

end GlideBridge.Json
