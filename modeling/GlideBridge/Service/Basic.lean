import GlideBridge.Service.Convert
import GlideBridge.Service.Cors
import GlideBridge.Service.Route
import GlideBridge.Settings.Load

/-!
The service from its start to its end: it loads its settings, reports them, answers requests one
after the other and keeps no state between them. Log records below the level of the settings are
not kept.
-/

namespace GlideBridge

structure Service where
  settings : Settings
  level : Nat
  deriving Repr

namespace Service

inductive StartError where
  | settings (e : Settings.LoadError)
  /-- The level is named like a format of log lines. -/
  | levelIsFormat (format : Text)

def unknownLevelMessage (format : Text) : Text := "Unknown level: '" ++ format ++ "'"

def load (environment : List (Text × Text)) (dotenv : Option Text) :
    Except StartError Service := do
  let settings ← (Settings.load environment dotenv).mapError .settings
  let level ← (levelOf settings.logLevel).mapError .levelIsFormat
  return ⟨settings, level⟩

def ruler : Text := List.replicate 60 '='

def startup (s : Service) : Log :=
  Log.atLeast s.level <|
    [ruler, "Starting " ++ title, ruler].map (⟨.main, .info, ·⟩) ++
      s.settings.report.map (⟨.settings, .info, ·⟩) ++
      [⟨.main, .info, "Service ready on port " ++ Digits.ofInt s.settings.servicePort⟩]

def shutdown (s : Service) : Log := Log.atLeast s.level [⟨.main, .info, "Shutdown complete"⟩]

def page (s : Settings) (r : Request) : Route → Reply
  | .root => { response := .json 200 (Page.root s) }
  | .plainHealth | .health => { response := .json 200 (Page.health s) }
  | .info => { response := .json 200 (Page.info s) }
  | .options => { response := .json 200 (Page.options s) }
  | .sample => { response := .json 200 Page.sample }
  | .convert => convert s r

def notFound : Response := .detail 404 "Not Found"

def wrongMethod (route : Route) : Response :=
  (Response.detail 405 "Method Not Allowed").withHeaders [("allow", route.method)]

def dropSlashes (path : Text) : Text := (path.reverse.dropWhile (· == '/')).reverse

def isPlain (c : Char) : Bool :=
  c.isAlphanum || "_.-~:/%#?=@[]!$&'()*+,;".toList.contains c

def percent (b : UInt8) : Text := '%' :: (Digits.hex 2 b.toNat).map Char.toUpper

def encodeQuery (t : Text) : Text :=
  t.flatMap fun c =>
    if isPlain c then [c] else (String.singleton c).toUTF8.toList.flatMap percent

def location (r : Request) (path : Text) : Text :=
  "http://testserver" ++ path ++ match r.query with
    | [] => []
    | q => '?' :: encodeQuery q

def redirect? (r : Request) : Option Response :=
  if r.path.getLast? = some '/' then
    (Route.find? (dropSlashes r.path)).map fun route =>
      { status := 307, headers := [("location", location r route.path)], content := .empty }
  else none

def respond (s : Settings) (r : Request) : Reply :=
  match Route.find? r.path with
  | some route =>
    if r.method = route.method then page s r route else { response := wrongMethod route }
  | none => { response := (redirect? r).getD notFound }

def answer (s : Settings) (r : Request) : Reply :=
  match Cors.preflight? s r with
  | some response => { response }
  | none =>
    let reply := respond s r
    { reply with response := reply.response.withHeaders (Cors.headers s r) }

def handle (s : Service) (r : Request) : Reply :=
  let reply := answer s.settings r
  { reply with log := Log.atLeast s.level reply.log }

end Service

end GlideBridge
