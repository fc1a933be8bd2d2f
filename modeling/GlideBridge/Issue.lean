import GlideBridge.FormType

/-!
What can be wrong with a value that settings or a request give, where it stands, and how the
cause is worded. A checked value is the value or all the issues that were found in it.
-/

namespace GlideBridge

inductive Cause where
  | missing
  | notInteger
  | notText
  | notList
  | notObject
  | notJson
  | unknownForm
  deriving DecidableEq, Repr

inductive Place where
  | name (t : Text)
  | index (n : Nat)
  deriving DecidableEq, Repr

structure Issue where
  cause : Cause
  location : List Place
  deriving DecidableEq, Repr

namespace Cause

def code : Cause → Text
  | missing => "missing"
  | notInteger => "int_parsing"
  | notText => "string_type"
  | notList => "list_type"
  | notObject => "model_attributes_type"
  | notJson => "json_invalid"
  | unknownForm => "enum"

def inQuotes (f : FormType) : Text := "'" ++ f.identifier ++ "'"

def choices : List Text → Text
  | [] => []
  | [a] => a
  | [a, b] => a ++ " or " ++ b
  | a :: rest => a ++ ", " ++ choices rest

def message : Cause → Text
  | missing => "Field required"
  | notInteger => "Input should be a valid integer, unable to parse string as an integer"
  | notText => "Input should be a valid string"
  | notList => "Input should be a valid list"
  | notObject => "Input should be a valid dictionary or object to extract fields from"
  | notJson => "JSON decode error"
  | unknownForm => "Input should be " ++ choices (FormType.all.map inQuotes)

end Cause

abbrev Checked (α : Type) := Except (List Issue) α

namespace Checked

def issues {α : Type} : Checked α → List Issue
  | .ok _ => []
  | .error es => es

def form (location : List Place) (t : Text) : Checked FormType :=
  match FormType.ofIdentifier? t with
  | some f => .ok f
  | none => .error [⟨.unknownForm, location⟩]

end Checked

end GlideBridge
