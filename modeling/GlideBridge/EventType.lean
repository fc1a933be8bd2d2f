import GlideBridge.Text.Basic

/-!
The form events that a handler can serve, and the name of the handler for an event. Every event
text has a handler name: texts that name no known event share the one of a change.
-/

namespace GlideBridge

inductive EventType where
  | change
  | load
  | submit
  | blur
  | focus
  | click
  | custom
  deriving DecidableEq, Repr

namespace EventType

def all : List EventType := [change, load, submit, blur, focus, click, custom]

def identifier : EventType → Text
  | change => "onChange"
  | load => "onLoad"
  | submit => "onSubmit"
  | blur => "onBlur"
  | focus => "onFocus"
  | click => "onClick"
  | custom => "custom"

def constantName : EventType → Text
  | change => "ON_CHANGE"
  | load => "ON_LOAD"
  | submit => "ON_SUBMIT"
  | blur => "ON_BLUR"
  | focus => "ON_FOCUS"
  | click => "ON_CLICK"
  | custom => "CUSTOM"

def label : EventType → Text
  | custom => "Custom Event"
  | e => e.identifier

def defaultHandlerName : Text := "invokeDependentAPiCalls"

def handlerName : EventType → Text
  | change | custom => defaultHandlerName
  | e => e.identifier ++ "EventCall"

def ofIdentifier? (t : Text) : Option EventType := all.find? fun e => e.identifier = t

theorem ofIdentifier?_identifier (e : EventType) : ofIdentifier? e.identifier = some e := by
  cases e <;> decide

def handlerNameFor (event : Text) : Text :=
  ((ofIdentifier? event).map handlerName).getD defaultHandlerName

end EventType

end GlideBridge
