import GlideBridge.Issue
import GlideBridge.Json.Basic
import GlideBridge.Text.Digits

/-! Requests to the service and its responses. -/

namespace GlideBridge.Service

/-- A JSON document, or a text that may or may not be one. -/
inductive Content where
  | empty
  | json (v : Json)
  | text (t : Text)
  deriving Repr

abbrev Headers := List (Text × Text)

/-- A request that carries a fault makes the conversion fail with it. -/
structure Request where
  method : Text
  path : Text
  query : Text := []
  headers : Headers := []
  content : Content := .empty
  fault : Option Text := none
  deriving Repr

def Request.header? (r : Request) (name : Text) : Option Text :=
  (r.headers.find? (·.1 = name)).map Prod.snd

structure Response where
  status : Nat
  headers : Headers := []
  content : Content
  deriving Repr

namespace Response

def json (status : Nat) (v : Json) : Response := { status, content := .json v }

def detail (status : Nat) (v : Json) : Response := json status (.object [("detail", v)])

def ofPlace : Place → Json
  | .name t => .text t
  | .index n => .integer n

def ofIssue (i : Issue) : Json :=
  .object [("type", .text i.cause.code), ("loc", .list (i.location.map ofPlace)),
    ("msg", .text i.cause.message)]

def invalid (issues : List Issue) : Response := detail 422 (.list (issues.map ofIssue))

def withHeaders (headers : Headers) (r : Response) : Response :=
  { r with headers := headers ++ r.headers }

end Response

end GlideBridge.Service
