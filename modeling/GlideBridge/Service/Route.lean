import GlideBridge.Sample
import GlideBridge.Service.Message
import GlideBridge.Settings.Basic

/-! The addresses of the service and the pages that depend on the settings alone. -/

namespace GlideBridge.Service

inductive Route where
  | root
  | plainHealth
  | health
  | info
  | options
  | sample
  | convert
  deriving DecidableEq, Repr

namespace Route

def all : List Route := [root, plainHealth, health, info, options, sample, convert]

def base : Text := "/api/converter"

def path : Route → Text
  | root => "/"
  | plainHealth => "/health"
  | health => base ++ "/health"
  | info => base ++ "/info"
  | options => base ++ "/options"
  | sample => base ++ "/sample"
  | convert => base ++ "/convert"

def method : Route → Text
  | convert => "POST"
  | _ => "GET"

def find? (path : Text) : Option Route := all.find? (·.path = path)

end Route

def title : Text := "Glide Script to Wolken JS Converter"

def version : Text := "1.0.0"

namespace Page

def root (s : Settings) : Json := .object
  [ ("service", .text title),
    ("version", .text version),
    ("port", .integer s.servicePort),
    ("endpoints", .object
      [ ("health", .text Route.health.path),
        ("convert", .text Route.convert.path),
        ("options", .text Route.options.path),
        ("sample", .text Route.sample.path),
        ("docs", .text (Route.base ++ "/docs")) ]) ]

def health (s : Settings) : Json :=
  .object [("status", "UP"), ("service", .text s.serviceName)]

def info (s : Settings) : Json := .object
  [ ("service", .text s.serviceName),
    ("version", .text version),
    ("description", "ServiceNow Glide Script to Wolken JS converter"),
    ("defaults", .object
      [ ("formType", .text s.defaultForm.identifier),
        ("eventType", .text s.defaultEvent) ]) ]

def choice (value label : Text) : Json :=
  .object [("value", .text value), ("label", .text label)]

def options (s : Settings) : Json := .object
  [ ("formTypes", .list (FormType.all.map fun f => choice f.identifier f.label)),
    ("eventTypes", .list (EventType.all.map fun e => choice e.identifier e.label)),
    ("defaultFormType", .text s.defaultForm.identifier),
    ("defaultEventType", .text s.defaultEvent) ]

def sample : Json := .object [("script", .text sampleScript)]

end Page

end GlideBridge.Service
