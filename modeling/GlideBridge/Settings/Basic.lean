import GlideBridge.Conversion.Basic
import GlideBridge.Text.Digits

/-! The settings of the service and the lines in which it reports them. -/

namespace GlideBridge

structure Settings where
  serviceName : Text := "glide2wolken"
  servicePort : Int := 5002
  logLevel : Text := "INFO"
  origins : List Text := ["*"]
  defaultForm : FormType := .requestForm
  defaultEvent : Text := EventType.change.identifier
  unit : Text := defaultUnit
  deriving DecidableEq, Repr

namespace Settings

inductive Field where
  | serviceName
  | servicePort
  | logLevel
  | origins
  | defaultForm
  | defaultEvent
  | unit
  deriving DecidableEq, Repr

def Field.name : Field → Text
  | serviceName => "SERVICE_NAME"
  | servicePort => "SERVICE_PORT"
  | logLevel => "LOG_LEVEL"
  | origins => "CORS_ALLOW_ORIGINS"
  | defaultForm => "DEFAULT_FORM_TYPE"
  | defaultEvent => "DEFAULT_EVENT_TYPE"
  | unit => "INDENT_UNIT"

def report (s : Settings) : List Text :=
  [ "Service: " ++ s.serviceName,
    "Port: " ++ Digits.ofInt s.servicePort,
    "Log level: " ++ s.logLevel,
    "CORS origins: " ++ Text.joinWith ", " s.origins,
    "Default form type: " ++ s.defaultForm.identifier,
    "Default event type: " ++ s.defaultEvent,
    "Indent width: " ++ Digits.ofNat s.unit.length ]

end Settings

end GlideBridge
