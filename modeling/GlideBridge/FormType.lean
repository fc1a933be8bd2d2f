import GlideBridge.Text.Basic

/-! The form objects that a generated handler can address. -/

namespace GlideBridge

inductive FormType where
  | requestForm
  | modifiedFields
  | mainFormGroup
  deriving DecidableEq, Repr

namespace FormType

def all : List FormType := [requestForm, modifiedFields, mainFormGroup]

theorem mem_all (f : FormType) : f ∈ all := by cases f <;> decide

def identifier : FormType → Text
  | requestForm => "requestForm"
  | modifiedFields => "modifiedFields"
  | mainFormGroup => "mainFormGroup"

def constantName : FormType → Text
  | requestForm => "REQUEST_FORM"
  | modifiedFields => "MODIFIED_FIELDS"
  | mainFormGroup => "MAIN_FORM_GROUP"

def label : FormType → Text
  | requestForm => "Request Creation"
  | modifiedFields => "Request Summary"
  | mainFormGroup => "Task Summary"

def ofIdentifier? (t : Text) : Option FormType := all.find? fun f => f.identifier = t

theorem ofIdentifier?_identifier (f : FormType) : ofIdentifier? f.identifier = some f := by
  cases f <;> decide

theorem ofIdentifier?_eq_some_iff {t : Text} {f : FormType} :
    ofIdentifier? t = some f ↔ t = f.identifier := by
  constructor
  · intro h
    have := List.find?_some h
    simpa [eq_comm] using this
  · rintro rfl
    exact ofIdentifier?_identifier f

end FormType

end GlideBridge
