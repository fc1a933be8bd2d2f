import GlideBridge.Catalog.Basic
import GlideBridge.EventType
import GlideBridge.FormType
import GlideBridge.Handler

/-!
Conversion of a client script into a handler function. The script is unwrapped, its documented
calls are converted, the calls left over are listed and commented out, and what remains is
cleaned up, indented and wrapped.
-/

namespace GlideBridge

def defaultUnit : Text := "    "

/-- The form and the event may be any texts; the known ones have types of their own. -/
structure Options where
  form : Text := FormType.requestForm.identifier
  event : Text := EventType.change.identifier
  unit : Text := defaultUnit
  deriving DecidableEq, Repr

structure Conversion where
  output : Text
  functionName : Text
  form : Text
  event : Text
  leftovers : List Text
  deriving DecidableEq, Repr

namespace Conversion

def documented (form source : Text) : Text :=
  Catalog.applyAll (Catalog.documented form) (Handler.unwrap source)

def body (form source : Text) : Text :=
  Catalog.applyAll Catalog.closingGroups (documented form source)

end Conversion

def convert (o : Options) (source : Text) : Conversion where
  output :=
    Handler.wrap (EventType.handlerNameFor o.event)
      (Text.indent o.unit (Conversion.body o.form source))
  functionName := EventType.handlerNameFor o.event
  form := o.form
  event := o.event
  leftovers := Catalog.leftoverCalls (Conversion.documented o.form source)

end GlideBridge
