import GlideBridge.Json.Reader
import GlideBridge.Service.Message

/-!
Orders for a conversion as the body of a request gives them: a script, and a form and an event
that may be left out. Bodies that are no JSON objects are refused as a whole; otherwise the
members are checked one after the other and all issues are reported together.
-/

namespace GlideBridge.Service

structure Order where
  script : Text
  form : Option FormType
  event : Option Text
  deriving DecidableEq, Repr

namespace Order

def bodyPlace : Place := .name "body"

def memberPlace (name : Text) : List Place := [bodyPlace, .name name]

def checkScript : Option Json → Checked Text
  | some (.text t) => .ok t
  | some _ => .error [⟨.notText, memberPlace "script"⟩]
  | none => .error [⟨.missing, memberPlace "script"⟩]

def checkForm : Option Json → Checked (Option FormType)
  | none | some .null => .ok none
  | some (.text t) => some <$> Checked.form (memberPlace "formType") t
  | some _ => .error [⟨.unknownForm, memberPlace "formType"⟩]

def checkEvent : Option Json → Checked (Option Text)
  | none | some .null => .ok none
  | some (.text t) => .ok (some t)
  | some _ => .error [⟨.notText, memberPlace "eventType"⟩]

def ofMembers (members : List (Text × Json)) : Checked Order :=
  let script := checkScript (Json.lookup "script" members)
  let form := checkForm (Json.lookup "formType" members)
  let event := checkEvent (Json.lookup "eventType" members)
  match script, form, event with
  | .ok script, .ok form, .ok event => .ok ⟨script, form, event⟩
  | _, _, _ => .error (script.issues ++ form.issues ++ event.issues)

def ofJson : Json → Checked Order
  | .object members => ofMembers members
  | _ => .error [⟨.notObject, [bodyPlace]⟩]

/-- JSON and its relatives are application types; parameters of a type do not matter. -/
def isJsonType (contentType : Text) : Bool :=
  let kind := (Text.trim (contentType.takeWhile (· != ';'))).map Char.toLower
  match Text.dropPrefix? "application/" kind with
  | some subtype =>
    !subtype.contains '/' && (subtype = "json".toList || "+json".toList.isSuffixOf subtype)
  | none => false

def dropByteOrderMark : Text → Text
  | '\uFEFF' :: t => t
  | t => t

/-- A content without a declared type counts as JSON. -/
def ofRequest (r : Request) : Checked Order :=
  let declared := (r.header? "content-type").all isJsonType
  match r.content, declared with
  | .empty, _ => .error [⟨.missing, [bodyPlace]⟩]
  | .text [], _ => .error [⟨.missing, [bodyPlace]⟩]
  | _, false => .error [⟨.notObject, [bodyPlace]⟩]
  | .json v, true => ofJson v
  | .text t, true =>
    match Json.read (dropByteOrderMark t) with
    | .ok v => ofJson v
    | .error offset => .error [⟨.notJson, [bodyPlace, .index offset]⟩]

end Order

end GlideBridge.Service
