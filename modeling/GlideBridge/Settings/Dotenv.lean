import GlideBridge.Text.Basic

/-!
Files of assignments. A line assigns a value to a name; values may stand in quotes, which may
span lines, and may refer to other names. A name without a value is held as such, a line that is
no assignment is passed over, and the last assignment to a name counts.
-/

namespace GlideBridge.Dotenv

abbrev Assignment := Text × Option Text

def normalizeNewlines : Text → Text
  | '\r' :: '\n' :: t => '\n' :: normalizeNewlines t
  | '\r' :: t => '\n' :: normalizeNewlines t
  | c :: t => c :: normalizeNewlines t
  | [] => []

def isGap (c : Char) : Bool := Text.isBlank c && c != '\n' && c != '\r'

def skipGap (t : Text) : Text := t.dropWhile isGap

def dropLine (t : Text) : Text :=
  match t.dropWhile (· != '\n') with
  | [] => []
  | _ :: u => u

def endLine? (t : Text) : Option Text :=
  let u := match skipGap t with
    | '#' :: v => v.dropWhile (· != '\n')
    | v => v
  match u with
  | [] => some []
  | '\n' :: v => some v
  | _ => none

def skipExport (t : Text) : Text :=
  match Text.dropPrefix? "export" t with
  | some (c :: u) => if isGap c then skipGap u else t
  | _ => t

def isNameChar (c : Char) : Bool := c != '=' && c != '#' && !Text.isBlank c

def name (t : Text) : Except Text (Option Text × Text) :=
  match t with
  | '#' :: _ => .ok (none, t)
  | '\'' :: u =>
    match u.takeWhile (· != '\''), u.dropWhile (· != '\'') with
    | c :: n, _ :: r => .ok (some (c :: n), r)
    | _, _ => .error t
  | _ =>
    match t.takeWhile isNameChar with
    | [] => .error t
    | n => .ok (some n, t.dropWhile isNameChar)

/-- The text before the first closing quote that has no backslash in front. -/
def closed? (quote : Char) : Text → Option (Text × Text)
  | [] => none
  | '\\' :: c :: t =>
    if c = quote then (closed? quote t).map fun r => ('\\' :: c :: r.1, r.2)
    else (closed? quote (c :: t)).map fun r => ('\\' :: r.1, r.2)
  | c :: t => if c = quote then some ([], t) else (closed? quote t).map fun r => (c :: r.1, r.2)

def lastQuote? (quote : Char) : Text → Option (Text × Text)
  | [] => none
  | c :: t =>
    match lastQuote? quote t with
    | some r => some (c :: r.1, r.2)
    | none => if c = quote then some ([], t) else none

/-- Where every quote has a backslash in front, the last one closes the value. -/
def quoted? (quote : Char) (t : Text) : Option (Text × Text) :=
  closed? quote t <|> lastQuote? quote t

def escape? (quote : Char) (c : Char) : Option Char :=
  if c = '\\' ∨ c = '\'' then some c
  else if quote = '\'' then none
  else
    match c with
    | '"' => some '"'
    | 'a' => some '\x07'
    | 'b' => some '\x08'
    | 'f' => some '\x0c'
    | 'n' => some '\n'
    | 'r' => some '\r'
    | 't' => some '\t'
    | 'v' => some '\x0b'
    | _ => none

def decodeEscapes (quote : Char) : Text → Text
  | '\\' :: c :: t =>
    match escape? quote c with
    | some d => d :: decodeEscapes quote t
    | none => '\\' :: decodeEscapes quote (c :: t)
  | c :: t => c :: decodeEscapes quote t
  | [] => []

def dropComment : Text → Text
  | [] => []
  | [c] => [c]
  | c :: '#' :: t => if Text.isBlank c then [c] else c :: dropComment ('#' :: t)
  | c :: t => c :: dropComment t

def value (t : Text) : Except Text (Text × Text) :=
  match t with
  | [] => .ok ([], [])
  | c :: u =>
    if c = '\'' ∨ c = '"' then
      match quoted? c u with
      | some (v, r) => .ok (decodeEscapes c v, r)
      | none => .error t
    else if c = '\n' then .ok ([], t)
    else .ok (Text.trimRight (dropComment (t.takeWhile (· != '\n'))), t.dropWhile (· != '\n'))

def assignment (t : Text) : Except Text (Option Assignment × Text) := do
  let (n, u) ← name (skipExport t)
  let v := skipGap u
  let (given, w) ← match v with
    | '=' :: x => do
      let (a, y) ← value (skipGap x)
      .ok (some a, y)
    | _ => .ok (none, v)
  match endLine? w with
  | some r => .ok (n.map (·, given), r)
  | none => .error w

def assignments : Nat → Text → List Assignment
  | 0, _ => []
  | fuel + 1, t =>
    match t.dropWhile Text.isBlank with
    | [] => []
    | u =>
      match assignment u with
      | .ok (some a, r) => a :: assignments fuel r
      | .ok (none, r) => assignments fuel r
      | .error r => assignments fuel (dropLine r)

def insert (known : List Assignment) (a : Assignment) : List Assignment :=
  match known with
  | [] => [a]
  | b :: bs => if b.1 = a.1 then a :: bs else b :: insert bs a

/-- A reference `${name}` or `${name:-default}` at the start of the text, by its name and its
default, with the number of its characters. -/
def reference? (t : Text) : Option (Text × Text × Nat) :=
  match t with
  | '$' :: '{' :: u =>
    let n := u.takeWhile fun c => c != '}' && c != ':'
    match u.drop n.length with
    | '}' :: _ => some (n, [], n.length + 3)
    | ':' :: '-' :: v =>
      let d := v.takeWhile (· != '}')
      if v.length = d.length then none else some (n, d, n.length + d.length + 5)
    | _ => none
  | _ => none

/-- The text with its references resolved, `skip` characters of one having been passed. -/
def interpolate (find : Text → Option Text) : Nat → Text → Text
  | _, [] => []
  | skip + 1, _ :: t => interpolate find skip t
  | 0, c :: t =>
    match reference? (c :: t) with
    | some (n, d, size) => (find n).getD d ++ interpolate find (size - 1) t
    | none => c :: interpolate find 0 t

def resolve (environment : List (Text × Text)) (known : List Assignment) (a : Assignment) :
    List Assignment :=
  let find (n : Text) : Option Text :=
    match known.find? (·.1 = n) with
    | some b => b.2.orElse fun _ => some []
    | none => (environment.reverse.find? (·.1 = n)).map Prod.snd
  insert known (a.1, a.2.map (interpolate find 0))

def read (environment : List (Text × Text)) (file : Text) : List Assignment :=
  (assignments (file.length + 1) (normalizeNewlines file)).foldl (resolve environment) []

end GlideBridge.Dotenv
