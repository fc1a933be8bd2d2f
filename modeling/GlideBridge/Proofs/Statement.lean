import GlideBridge.Proofs.CallSites

/-! The documented call language: one statement is one call of the catalog, a field of a record, a
record declaration, or a call that the catalog does not know. Each statement has a text, as it
stands in a script, and a translation, as it is to stand in the handler. -/

namespace GlideBridge

structure Run (k : CharClass) where
  text : Text
  ne_nil : text ≠ []
  has : ∀ c ∈ text, k.has c = true

abbrev Word := Run .word

structure Quoted (k : CharClass) extends Run k where
  quote : Char
  isQuote : CharClass.isQuote quote = true

abbrev Field := Quoted .fieldName

def Quoted.written {k : CharClass} (q : Quoted k) : Text := q.quote :: (q.text ++ [q.quote])

inductive Argument where
  | bare (w : Word)
  | quoted (f : Field)

def Argument.text : Argument → Text
  | bare w => w.text
  | quoted f => f.written

inductive LogLevel where
  | log
  | info
  | error
  deriving DecidableEq, Repr

inductive NoticeKind where
  | info
  | error
  | warning
  deriving DecidableEq, Repr

inductive SystemCall where
  | log (level : LogLevel) (a : Argument)
  | getUser
  | getSession
  | getProperty (name : Field)
  | notify (kind : NoticeKind) (a : Argument)
  | isNil (a : Argument)
  | isValid (a : Argument)

inductive FormCall where
  | getValue (f : Field)
  | setValue (f : Field) (a : Argument)
  | patchValue (a : Argument)
  | clearValue (f : Field)
  | setReadOnly (f : Field) (a : Argument)
  | showFieldMsg (a b c : Argument)
  | hideFieldMsg (a : Argument)
  | setMandatory (f : Field) (a : Argument)
  | setVisible (f : Field) (a : Argument)
  | setDisplay (f : Field) (a : Argument)
  | addOption (f : Field) (a b : Argument)
  | clearOptions (f : Field)
  | getTableName
  | getUniqueValue
  | isNewRecord
  | getReference (f : Field) (a : Argument)
  | getControl (f : Field)
  | getSectionNames
  | setSectionDisplay (f : Field) (a : Argument)

namespace SystemCall

def name : SystemCall → Text
  | log .log _ => "log"
  | log .info _ => "info"
  | log .error _ => "error"
  | getUser => "getUser"
  | getSession => "getSession"
  | getProperty _ => "getProperty"
  | notify .info _ => "addInfoMessage"
  | notify .error _ => "addErrorMessage"
  | notify .warning _ => "addWarningMessage"
  | isNil _ => "nil"
  | isValid _ => "isValid"

def arguments : SystemCall → List Text
  | getUser | getSession => []
  | getProperty q => [q.written]
  | log _ a | notify _ a | isNil a | isValid a => [a.text]

def translation : SystemCall → Text
  | log _ a => List.flatten ["console.log(", a.text, ")"]
  | getUser => "ele.currentUser"
  | getSession => "ele.session"
  | getProperty q => List.flatten ["ele.getProperty(\"", q.text, "\")"]
  | notify .info a => List.flatten ["ele.showNotification(\"info\", ", a.text, ")"]
  | notify .error a => List.flatten ["ele.showNotification(\"error\", ", a.text, ")"]
  | notify .warning a => List.flatten ["ele.showNotification(\"warning\", ", a.text, ")"]
  | isNil a => List.flatten
    ["!", a.text, " || ", a.text, " === \"\" || ", a.text, " === null || ", a.text,
      " === undefined"]
  | isValid a => List.flatten
    [a.text, " && ", a.text, " !== \"\" && ", a.text, " !== null && ", a.text,
      " !== undefined"]

end SystemCall

namespace FormCall

def name : FormCall → Text
  | getValue .. => "getValue"
  | setValue .. => "setValue"
  | patchValue .. => "patchValue"
  | clearValue .. => "clearValue"
  | setReadOnly .. => "setReadOnly"
  | showFieldMsg .. => "showFieldMsg"
  | hideFieldMsg .. => "hideFieldMsg"
  | setMandatory .. => "setMandatory"
  | setVisible .. => "setVisible"
  | setDisplay .. => "setDisplay"
  | addOption .. => "addOption"
  | clearOptions .. => "clearOptions"
  | getTableName => "getTableName"
  | getUniqueValue => "getUniqueValue"
  | isNewRecord => "isNewRecord"
  | getReference .. => "getReference"
  | getControl .. => "getControl"
  | getSectionNames => "getSectionNames"
  | setSectionDisplay .. => "setSectionDisplay"

def arguments : FormCall → List Text
  | getTableName | getUniqueValue | isNewRecord | getSectionNames => []
  | patchValue a | hideFieldMsg a => [a.text]
  | getValue f | clearValue f | clearOptions f | getControl f => [f.written]
  | setValue f a | setReadOnly f a | setMandatory f a | setVisible f a | setDisplay f a
  | getReference f a | setSectionDisplay f a => [f.written, a.text]
  | addOption f a b => [f.written, a.text, b.text]
  | showFieldMsg a b c => [a.text, b.text, c.text]

def separator : FormCall → Text
  | showFieldMsg .. => [',']
  | _ => [',', ' ']

def control (form : Text) (f : Field) (use : List Text) : Text :=
  List.flatten ("ele." :: form :: ".get(\"" :: f.text :: "\")" :: use)

def translation (form : Text) : FormCall → Text
  | getValue f => control form f [".value"]
  | setValue f a => control form f [".setValue(", a.text, ")"]
  | patchValue a => List.flatten ["ele.", form, ".patchValue(", a.text, ")"]
  | clearValue f => control form f [".setValue(\"\")"]
  | setReadOnly f _ => control form f [".disable()"]
  | showFieldMsg a b c =>
    List.flatten ["ele.showFieldMessage(", a.text, ", ", b.text, ", ", c.text, ")"]
  | hideFieldMsg a => List.flatten ["ele.hideFieldMessage(", a.text, ")"]
  | setMandatory f a => List.flatten
    ["ele.utilitiesService.toggleFieldMode(ele, \"", f.text, "\", ", a.text,
      " ? \"mandatory\" : \"nonMandatory\")"]
  | setVisible f a => List.flatten ["setFieldVisibility(\"", f.text, "\", ", a.text, ")"]
  | setDisplay f a => List.flatten
    ["ele.utilitiesService.toggleFieldMode(ele, \"", f.text, "\", ", a.text,
      " === true ? \"nonMandatory\" : ", a.text, " === false ? \"hide\" : ", a.text, ")"]
  | addOption f a b =>
    List.flatten ["addFieldOption(\"", f.text, "\", ", a.text, ", ", b.text, ")"]
  | clearOptions f => List.flatten ["clearFieldOptions(\"", f.text, "\")"]
  | getTableName => "tableName"
  | getUniqueValue => "uniqueValue"
  | isNewRecord => "isNewRecord"
  | getReference f a => List.flatten ["getFieldReference(\"", f.text, "\", ", a.text, ")"]
  | getControl f => List.flatten ["getFieldControl(\"", f.text, "\")"]
  | getSectionNames => "getSectionNames()"
  | setSectionDisplay f a => List.flatten ["setSectionVisibility(\"", f.text, "\", ", a.text, ")"]

end FormCall

namespace CallSpace

/-- The names of the catalog in the order of their rules, by rule. -/
def catalogNames : CallSpace → List (List Text)
  | system =>
    [["log", "info", "error"], ["getUser"], ["getSession"], ["getProperty"], ["addInfoMessage"],
      ["addErrorMessage"], ["addWarningMessage"], ["nil"], ["isValid"]]
  | form =>
    [["getValue"], ["setValue"], ["patchValue"], ["clearValue"], ["setReadOnly"],
      ["showFieldMsg"], ["hideFieldMsg"], ["setMandatory"], ["setVisible"], ["setDisplay"],
      ["addOption"], ["clearOptions"], ["getTableName"], ["getUniqueValue"], ["isNewRecord"],
      ["getReference"], ["getControl"], ["getSectionNames"], ["setSectionDisplay"]]

end CallSpace

/-- A call of one of the two namespaces that is not in the catalog. A name that ends like an alert
would be taken for one. -/
structure UnknownCall where
  space : CallSpace
  name : Text
  argument : Argument
  isName : CallSpace.IsName name
  unknown : name ∉ space.catalogNames.flatten
  not_alert : ¬ ['a', 'l', 'e', 'r', 't'] <:+ name

inductive Statement where
  | system (c : SystemCall)
  | alert (a : Argument)
  | current (field : Word)
  | workflow (field : Word)
  | declare (name : Word) (table : Quoted .word)
  | form (c : FormCall)
  | unknown (c : UnknownCall)

namespace Statement

def callOf (s : CallSpace) (name separator : Text) (arguments : List Text) : Text :=
  s.callText name ++ (Text.joinWith separator arguments ++ [')'])

def text : Statement → Text
  | .system c => callOf .system c.name [',', ' '] c.arguments
  | .alert a => "alert(" ++ a.text ++ ")"
  | .current w => "current." ++ w.text
  | .workflow w => "workflow." ++ w.text
  | .declare w q => "var " ++ w.text ++ " = new GlideRecord(" ++ q.written ++ ")"
  | .form c => callOf .form c.name c.separator c.arguments
  | .unknown c => callOf c.space c.name [',', ' '] [c.argument.text]

def translation (form : Text) : Statement → Text
  | .system c => c.translation
  | .alert a =>
    List.flatten ["ele.messageSnackbarService.showMessageSnackBar(", a.text, ")"]
  | .current w => List.flatten ["ele.current[\"", w.text, "\"]"]
  | .workflow w => List.flatten ["ele.workflow[\"", w.text, "\"]"]
  | .declare w q => List.flatten
    ["// ", w.text, " = GlideRecord for ", q.text, " - use Angular service instead"]
  | .form c => c.translation form
  | .unknown c => ['/', '/', ' '] ++ callOf c.space c.name [',', ' '] [c.argument.text]

def leftover? (s : CallSpace) : Statement → Option Text
  | .unknown c => if c.space = s then some (s.opening ++ c.name) else none
  | _ => none

end Statement

/-- The two ways to write a script: its statements alone, or inside a function. -/
inductive Script where
  | bare
  | function (name : Word) (parameters : Text) (closed : ')' ∉ parameters)

def Script.write (ss : List Statement) : Script → Text
  | bare => Text.joinLines (ss.map fun s => s.text ++ [';'])
  | function name parameters _ =>
    "function " ++ name.text ++ "(" ++ parameters ++ ") \x7b\n" ++
      Text.joinLines (ss.map fun s => s.text ++ [';']) ++ "\n\x7d"

end GlideBridge
