import GlideBridge.Text.Basic

/-!
Log records and the level from which on they are kept. A level is named without regard to case;
a name that is no level stands for the level of plain information.
-/

namespace GlideBridge.Service

inductive Severity where
  | debug
  | info
  | error
  deriving DecidableEq, Repr

def Severity.weight : Severity → Nat
  | debug => 10
  | info => 20
  | error => 40

def Severity.name : Severity → Text
  | debug => "DEBUG"
  | info => "INFO"
  | error => "ERROR"

inductive Logger where
  | main
  | settings
  | endpoint
  | engine
  deriving DecidableEq, Repr

def Logger.name : Logger → Text
  | main => "app.main"
  | settings => "app.config"
  | endpoint => "app.api.routes.converter"
  | engine => "app.services.glide2wolken.converter"

structure LogRecord where
  logger : Logger
  severity : Severity
  message : Text
  deriving DecidableEq, Repr

abbrev Log := List LogRecord

def Log.atLeast (level : Nat) (log : Log) : Log := log.filter fun r => level ≤ r.severity.weight

/-- Two letters outside ASCII have ASCII capitals. -/
def capital (c : Char) : Char :=
  if c = '\u0131' then 'I' else if c = '\u017F' then 'S' else c.toUpper

def levels : List (Text × Nat) :=
  [("DEBUG", 10), ("INFO", 20), ("WARN", 30), ("WARNING", 30), ("ERROR", 40), ("CRITICAL", 50),
    ("FATAL", 50), ("NOTSET", 0)]

/-- A reserved name stands for a format instead of a level; the cause is that format. -/
def levelOf (name : Text) : Except Text Nat :=
  let n := name.map capital
  if n = "BASIC_FORMAT".toList then .error "%(levelname)s:%(name)s:%(message)s"
  else .ok (((levels.find? (·.1 = n)).map Prod.snd).getD 20)

end GlideBridge.Service
