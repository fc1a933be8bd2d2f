import GlideBridge.Service.Message
import GlideBridge.Settings.Basic

/-!
Requests from other origins. A preflight asks whether a request may be sent and is answered
before any address is looked at; every other response says which origin may read it.
-/

namespace GlideBridge.Service.Cors

def isAllowed (s : Settings) (origin : Text) : Bool :=
  s.origins.contains ['*'] || s.origins.contains origin

def credentials : Text × Text := ("access-control-allow-credentials", "true")

def allowOrigin (s : Settings) (origin : Text) : Headers :=
  if isAllowed s origin then [("access-control-allow-origin", origin)] else []

def methods : List Text := ["DELETE", "GET", "HEAD", "OPTIONS", "PATCH", "POST", "PUT", "QUERY"]

def preflightVary : List Text :=
  ["Origin", "Access-Control-Request-Method", "Access-Control-Request-Headers",
    "Access-Control-Request-Private-Network"]

def allowHeaders : Option Text → Headers
  | some names => [("access-control-allow-headers", names)]
  | none => []

def preflightHeaders (s : Settings) (origin : Text) (asked : Option Text) : Headers :=
  credentials ::
    ("access-control-allow-methods", Text.joinWith ", " methods) ::
    ("access-control-max-age", "600") ::
    ("vary", Text.joinWith ", " preflightVary) ::
    (allowOrigin s origin ++ allowHeaders asked)

def originRefusal (s : Settings) (origin : Text) : List Text :=
  if isAllowed s origin then [] else ["origin"]

def methodRefusal (method : Text) : List Text :=
  if methods.contains method then [] else ["method"]

def preflight? (s : Settings) (r : Request) : Option Response := do
  let origin ← r.header? "origin"
  let method ← r.header? "access-control-request-method"
  guard (r.method = "OPTIONS".toList)
  let headers := preflightHeaders s origin (r.header? "access-control-request-headers")
  match originRefusal s origin ++ methodRefusal method with
  | [] => return { status := 200, headers, content := .text "OK" }
  | reasons =>
    return {
      status := 400
      headers
      content := .text ("Disallowed CORS " ++ Text.joinWith ", " reasons) }

def headers (s : Settings) (r : Request) : Headers :=
  ("vary", "Origin") ::
    match r.header? "origin" with
    | some origin => credentials :: allowOrigin s origin
    | none => []

end GlideBridge.Service.Cors
