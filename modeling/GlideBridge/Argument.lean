import GlideBridge.Conversion.Session
import GlideBridge.Conversion.Trace
import GlideBridge.Json.Display

/-!
Operations on arguments that are JSON values. A script has to be a text and so has a unit of
indentation; forms and events may be any values and are then used as they are shown. The script
is looked at before the unit.
-/

namespace GlideBridge

inductive ArgumentError where
  | notText (found : Json)
  /-- A value that is to be indented has no lines. -/
  | notLines (found : Json)
  | notUnit (found : Json)
  | unknownForm (found : Json)
  | unknownEvent (found : Json)

namespace ArgumentError

def message : ArgumentError → Text
  | notText v => "expected string or bytes-like object, got '" ++ v.kindName ++ "'"
  | notLines v => "'" ++ v.kindName ++ "' object has no attribute 'split'"
  | notUnit (.list _) => "can only concatenate list (not \"str\") to list"
  | notUnit v => "unsupported operand type(s) for +: '" ++ v.kindName ++ "' and 'str'"
  | unknownForm v => v.display ++ " is not a valid FormType"
  | unknownEvent v => v.display ++ " is not a valid EventType"

end ArgumentError

namespace Argument

def require (error : Json → ArgumentError) : Json → Except ArgumentError Text
  | .text t => .ok t
  | v => .error (error v)

def script : Json → Except ArgumentError Text := require .notText

def unit : Json → Except ArgumentError Text := require .notUnit

/-- The options of a conversion as they are given; what is absent has its default. -/
structure Choices where
  form : Option Json := none
  event : Option Json := none
  unit : Option Json := none

def formText (form : Option Json) : Text :=
  (form.map Json.plain).getD FormType.requestForm.identifier

def eventText (event : Option Json) : Text :=
  (event.map Json.plain).getD EventType.change.identifier

def unitText (given : Option Json) : Except ArgumentError Text :=
  match given with
  | none => .ok defaultUnit
  | some v => unit v

def Choices.options (c : Choices) : Except ArgumentError Options := do
  let unit ← unitText c.unit
  return { form := formText c.form, event := eventText c.event, unit }

def convert (c : Choices) (source : Json) : Except ArgumentError Conversion := do
  let t ← script source
  let o ← c.options
  return GlideBridge.convert o t

def unwrap (source : Json) : Except ArgumentError Text := Handler.unwrap <$> script source

def apply (g : RuleGroup) (t : Json) : Except ArgumentError Text := g.apply <$> script t

def leftovers (t : Json) : Except ArgumentError (List Text) :=
  Catalog.leftoverCalls <$> script t

def indent (given : Option Json) (t : Json) : Except ArgumentError Text := do
  let t ← require .notLines t
  let unit ← unitText given
  return Text.indent unit t

def trace (form : Option Json) (source : Json) :
    Except ArgumentError (List Conversion.TraceEntry) :=
  Conversion.trace (formText form) <$> script source

def wrap (name body : Json) : Text := Handler.wrap name.plain body.plain

inductive Step where
  | unwrap
  | apply (g : RuleGroup)
  | indent (unit : Option Json)
  | wrap (name : Json)
  | convert (c : Choices)

def Step.start (t : Json) : Step → Except ArgumentError Text
  | unwrap => Argument.unwrap t
  | apply g => Argument.apply g t
  | indent unit => Argument.indent unit t
  | wrap name => .ok (Argument.wrap name t)
  | convert c => Conversion.output <$> Argument.convert c t

def Step.session : Step → Except ArgumentError Session.Step
  | unwrap => .ok .unwrap
  | apply g => .ok (.apply g)
  | indent unit => .indent <$> unitText unit
  | wrap name => .ok (.wrap name.plain)
  | convert c => .convert <$> c.options

def session (steps : List Step) (t : Json) : Except ArgumentError (List Session.State) := do
  match steps with
  | [] => return []
  | first :: others =>
    let u ← first.start t
    let steps ← others.mapM Step.session
    return ⟨u, Catalog.leftoverCalls u⟩ :: Session.run steps u

def form (v : Json) : Except ArgumentError FormType :=
  match v.asText? >>= FormType.ofIdentifier? with
  | some f => .ok f
  | none => .error (.unknownForm v)

def event (v : Json) : Except ArgumentError EventType :=
  match v.asText? >>= EventType.ofIdentifier? with
  | some e => .ok e
  | none => .error (.unknownEvent v)

end Argument

end GlideBridge
