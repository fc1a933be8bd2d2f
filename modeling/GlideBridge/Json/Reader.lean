import GlideBridge.Json.Basic
import GlideBridge.Text.Digits

/-!
Reading JSON texts. A reader gives a value and the text behind it, or fails with the text from
the place where it stopped; `read` turns that place into an offset. The numerals `NaN`,
`Infinity` and `-Infinity` are read as well.
-/

namespace GlideBridge.Json

abbrev Reading := Except Text

def isGap (c : Char) : Bool := c == ' ' || c == '\t' || c == '\n' || c == '\r'

def skipGap (t : Text) : Text := t.dropWhile isGap

def simpleEscape? : Char → Option Char
  | '"' => some '"'
  | '\\' => some '\\'
  | '/' => some '/'
  | 'b' => some '\x08'
  | 'f' => some '\x0c'
  | 'n' => some '\n'
  | 'r' => some '\r'
  | 't' => some '\t'
  | _ => none

def codeUnit? : Text → Option (Nat × Text)
  | a :: b :: c :: d :: t =>
    match Digits.hexValue? a, Digits.hexValue? b, Digits.hexValue? c, Digits.hexValue? d with
    | some a, some b, some c, some d => some (((a * 16 + b) * 16 + c) * 16 + d, t)
    | _, _, _, _ => none
  | _ => none

def isHighSurrogate (n : Nat) : Bool := 0xD800 ≤ n && n ≤ 0xDBFF

def isLowSurrogate (n : Nat) : Bool := 0xDC00 ≤ n && n ≤ 0xDFFF

/-- A surrogate that stands alone is shown by the replacement character. -/
def ofCodeUnit (n : Nat) : Char := if Nat.isValidChar n then Char.ofNat n else '\uFFFD'

def joinSurrogates (high low : Nat) : Char :=
  Char.ofNat (0x10000 + (high - 0xD800) * 0x400 + (low - 0xDC00))

/-- The character that the four digits behind `\u` stand for, with a second such escape if the
two make a surrogate pair. Neither escape may end the text. -/
def unicodeEscape (digits : Text) : Reading (Char × Text) :=
  if digits.length ≤ 4 then .error ('u' :: digits)
  else
    match codeUnit? digits with
    | none => .error ('u' :: digits)
    | some (high, t) =>
      match isHighSurrogate high, t with
      | true, '\\' :: 'u' :: more =>
        if more.length ≤ 4 then .ok (ofCodeUnit high, t)
        else
          match codeUnit? more with
          | none => .error ('u' :: more)
          | some (low, u) =>
            if isLowSurrogate low then .ok (joinSurrogates high low, u)
            else .ok (ofCodeUnit high, t)
      | _, _ => .ok (ofCodeUnit high, t)

def readString (start : Text) : Nat → Text → Reading (Text × Text)
  | 0, t => .error t
  | _ + 1, [] => .error start
  | _ + 1, '"' :: t => .ok ([], t)
  | _ + 1, ['\\'] => .error start
  | n + 1, '\\' :: 'u' :: t => do
    let (c, u) ← unicodeEscape t
    let (s, r) ← readString start n u
    .ok (c :: s, r)
  | n + 1, '\\' :: e :: t =>
    match simpleEscape? e with
    | some c => do
      let (s, r) ← readString start n t
      .ok (c :: s, r)
    | none => .error ('\\' :: e :: t)
  | n + 1, c :: t =>
    if c.toNat ≤ 0x1F then .error (c :: t)
    else do
      let (s, r) ← readString start n t
      .ok (c :: s, r)

def wholePart? : Text → Option (Text × Text)
  | '0' :: t => some (['0'], t)
  | c :: t =>
    if c.isDigit then some (c :: t.takeWhile Char.isDigit, t.dropWhile Char.isDigit)
    else none
  | [] => none

def fractionPart : Text → Text × Text
  | '.' :: c :: t =>
    if c.isDigit then
      ('.' :: c :: t.takeWhile Char.isDigit, t.dropWhile Char.isDigit)
    else ([], '.' :: c :: t)
  | t => ([], t)

def exponentPart (t : Text) : Text × Text :=
  match t with
  | e :: u =>
    if e == 'e' || e == 'E' then
      let (sign, v) := match u with
        | '+' :: v => (['+'], v)
        | '-' :: v => (['-'], v)
        | v => ([], v)
      match v.takeWhile Char.isDigit with
      | [] => ([], t)
      | digits => (e :: sign ++ digits, v.dropWhile Char.isDigit)
    else ([], t)
  | [] => ([], t)

def readNumber? (t : Text) : Option (Json × Text) :=
  let (negative, u) := match t with
    | '-' :: u => (true, u)
    | u => (false, u)
  match wholePart? u with
  | none => none
  | some (whole, v) =>
    let (fraction, w) := fractionPart v
    let (exponent, r) := exponentPart w
    match fraction ++ exponent with
    | [] =>
      let n : Int := Digits.toNat whole
      some (.integer (if negative then -n else n), r)
    | tail => some (.decimal ((if negative then ['-'] else []) ++ whole ++ tail), r)

def names : List (Text × Json) :=
  [("null", .null), ("true", .bool true), ("false", .bool false), ("NaN", .decimal "NaN"),
    ("Infinity", .decimal "Infinity"), ("-Infinity", .decimal "-Infinity")]

def readName? (t : Text) : Option (Json × Text) :=
  names.findSome? fun n => (Text.dropPrefix? n.1 t).map (n.2, ·)

mutual

def readValue : Nat → Text → Reading (Json × Text)
  | 0, t => .error t
  | n + 1, t =>
    match t with
    | '"' :: u => do
      let (s, r) ← readString t n u
      .ok (.text s, r)
    | '[' :: u =>
      match skipGap u with
      | ']' :: r => .ok (.list [], r)
      | v => do
        let (items, r) ← readItems n v
        .ok (.list items, r)
    | '{' :: u =>
      match skipGap u with
      | '}' :: r => .ok (.object [], r)
      | v => do
        let (members, r) ← readMembers n v
        .ok (.object members, r)
    | _ =>
      match readName? t <|> readNumber? t with
      | some r => .ok r
      | none => .error t

def readItems : Nat → Text → Reading (List Json × Text)
  | 0, t => .error t
  | n + 1, t => do
    let (item, u) ← readValue n t
    match skipGap u with
    | ']' :: r => .ok ([item], r)
    | ',' :: v =>
      let (items, r) ← readItems n (skipGap v)
      .ok (item :: items, r)
    | v => .error v

def readMembers : Nat → Text → Reading (List (Text × Json) × Text)
  | 0, t => .error t
  | n + 1, t =>
    match t with
    | '"' :: u => do
      let (name, v) ← readString t n u
      match skipGap v with
      | ':' :: w =>
        let (value, x) ← readValue n (skipGap w)
        match skipGap x with
        | '}' :: r => .ok ([(name, value)], r)
        | ',' :: y =>
          let (members, r) ← readMembers n (skipGap y)
          .ok ((name, value) :: members, r)
        | y => .error y
      | w => .error w
    | _ => .error t

end

/-- Every step of a reader takes a character, so the length of the text bounds their number. -/
def readDocument (t : Text) : Reading Json := do
  let (value, u) ← readValue (2 * t.length + 2) (skipGap t)
  match skipGap u with
  | [] => .ok value
  | r => .error r

def read (t : Text) : Except Nat Json :=
  (readDocument t).mapError fun rest => t.length - rest.length

end GlideBridge.Json
