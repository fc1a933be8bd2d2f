import GlideBridge.Service.Log
import GlideBridge.Service.Order
import GlideBridge.Settings.Basic

/-!
The endpoint that converts scripts. What an order leaves out has the default of the settings,
and an empty event counts as left out. A script of blanks alone is refused.
-/

namespace GlideBridge.Service

structure Reply where
  response : Response
  log : Log := []
  deriving Repr

namespace Order

def options (s : Settings) (o : Order) : Options where
  form := (o.form.getD s.defaultForm).identifier
  event :=
    match o.event with
    | none | some [] => s.defaultEvent
    | some e => e
  unit := s.unit

def emptyScript : Text := "Please enter ServiceNow Glide Script to convert"

def success : Text := "ServiceNow Glide Script converted to Wolken JS successfully!"

def ofConversion (c : Conversion) : Json := .object
  [ ("success", .bool true),
    ("message", .text success),
    ("output", .text c.output),
    ("functionName", .text c.functionName),
    ("formType", .text c.form),
    ("eventType", .text c.event),
    ("unconvertedCalls", .texts c.leftovers) ]

def conversionLog (c : Conversion) : Log :=
  ⟨.engine, .debug, "Converted Glide Script to " ++ c.functionName ++ " for " ++ c.form ++
      " (" ++ Digits.ofNat c.leftovers.length ++ " unconverted calls)"⟩ ::
    match c.leftovers with
    | [] => []
    | calls =>
      [⟨.endpoint, .info, "Converted to " ++ c.functionName ++
        " with calls left for manual conversion: " ++ Text.joinWith ", " calls⟩]

def fail (fault : Text) : Reply where
  response := .detail 500 (.text ("Error during conversion: " ++ fault))
  log := [⟨.endpoint, .error, "Error converting Glide Script: " ++ fault⟩]

def serve (s : Settings) (fault : Option Text) (o : Order) : Reply :=
  match Text.trim o.script, fault with
  | [], _ => { response := .detail 400 (.text emptyScript) }
  | _, some f => fail f
  | script, none =>
    let c := GlideBridge.convert (o.options s) script
    { response := .json 200 (ofConversion c), log := conversionLog c }

end Order

def convert (s : Settings) (r : Request) : Reply :=
  match Order.ofRequest r with
  | .ok o => o.serve s r.fault
  | .error issues => { response := .invalid issues }

end GlideBridge.Service
