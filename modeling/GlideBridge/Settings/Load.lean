import GlideBridge.Issue
import GlideBridge.Json.Reader
import GlideBridge.Settings.Basic
import GlideBridge.Settings.Dotenv
import GlideBridge.Settings.Integer

/-!
Loading settings from the environment and from a file of assignments. The environment beats the
file and the file beats the default, for each field on its own. All invalid values are reported
together, in the order of the fields; origins that are no JSON stop the loading before that.
-/

namespace GlideBridge.Settings

inductive Source where
  | environment
  | file
  deriving DecidableEq, Repr

inductive LoadError where
  | unreadable (field : Field) (source : Source)
  | invalid (issues : List Issue)
  deriving DecidableEq, Repr

def Source.name : Source → Text
  | environment => "EnvSettingsSource"
  | file => "DotEnvSettingsSource"

def unreadableMessage (field : Field) (source : Source) : Text :=
  "error parsing value for field \"" ++ field.name ++ "\" from source \"" ++ source.name ++ "\""

/-- Names that differ only in the case of their letters name the same field; the last counts. -/
def given (values : List Dotenv.Assignment) (field : Field) : Option Text :=
  (values.reverse.find? fun a => a.1.map Char.toLower = field.name.map Char.toLower).bind
    Prod.snd

/-- The JSON value of the origins; null counts as not given. -/
def originsValue (source : Source) (values : List Dotenv.Assignment) :
    Except LoadError (Option Json) :=
  match given values .origins with
  | none => .ok none
  | some t =>
    match Json.read t with
    | .ok .null => .ok none
    | .ok v => .ok (some v)
    | .error _ => .error (.unreadable .origins source)

def Field.place (field : Field) : Place := .name field.name

def checkPort (t : Text) : Checked Int :=
  match Integer.parse? t with
  | some n => .ok n
  | none => .error [⟨.notInteger, [Field.servicePort.place]⟩]

def itemIssues (items : List Json) : List Issue :=
  (items.mapIdx fun i v =>
    match v with
    | .text _ => []
    | _ => [⟨.notText, [Field.origins.place, .index i]⟩]).flatten

def checkOrigins (v : Json) : Checked (List Text) :=
  match v with
  | .list items =>
    match itemIssues items with
    | [] => .ok (items.filterMap Json.asText?)
    | issues => .error issues
  | _ => .error [⟨.notList, [Field.origins.place]⟩]

def checkForm (t : Text) : Checked FormType := Checked.form [Field.defaultForm.place] t

def orDefault {α β : Type} (check : α → Checked β) (default : β) : Option α → Checked β
  | some v => check v
  | none => .ok default

def load (environment : List (Text × Text)) (dotenv : Option Text) :
    Except LoadError Settings := do
  let outer := environment.map fun a => (a.1, some a.2)
  let inner := (dotenv.map (Dotenv.read environment)).getD []
  let outerOrigins ← originsValue .environment outer
  let innerOrigins ← originsValue .file inner
  let value (field : Field) : Option Text := given outer field <|> given inner field
  let defaults : Settings := {}
  let servicePort := orDefault checkPort defaults.servicePort (value .servicePort)
  let origins := orDefault checkOrigins defaults.origins (outerOrigins <|> innerOrigins)
  let form := orDefault checkForm defaults.defaultForm (value .defaultForm)
  match servicePort, origins, form with
  | .ok servicePort, .ok origins, .ok defaultForm =>
    return {
      serviceName := (value .serviceName).getD defaults.serviceName
      servicePort
      logLevel := (value .logLevel).getD defaults.logLevel
      origins
      defaultForm
      defaultEvent := (value .defaultEvent).getD defaults.defaultEvent
      unit := (value .unit).getD defaults.unit }
  | _, _, _ => throw (.invalid (servicePort.issues ++ origins.issues ++ form.issues))

end GlideBridge.Settings
