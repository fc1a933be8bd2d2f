import GlideBridge.Text.Basic

/-!
JSON documents. Objects keep their members in the order in which they stand; where a name
stands twice, the last member counts.
-/

namespace GlideBridge

inductive Json where
  | null
  | bool (b : Bool)
  | integer (n : Int)
  /-- A number with a fraction or an exponent, as it is written. -/
  | decimal (written : Text)
  | text (t : Text)
  | list (items : List Json)
  | object (members : List (Text × Json))
  deriving Repr

instance : Coe String Json := ⟨fun s => .text s⟩

namespace Json

def lookup (name : Text) (members : List (Text × Json)) : Option Json :=
  (members.reverse.find? (·.1 = name)).map Prod.snd

def field? (name : Text) : Json → Option Json
  | object members => lookup name members
  | _ => none

def asText? : Json → Option Text
  | text t => some t
  | _ => none

def texts (ts : List Text) : Json := .list (ts.map .text)

end Json

end GlideBridge
