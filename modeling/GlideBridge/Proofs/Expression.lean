import GlideBridge.Proofs.Statement

/-! Expressions as arguments of calls. An atom is a word, a run in quotes or a getter, which is a
statement of the call language that has a value, and an expression is one or more atoms with
operators between them. A call head is a call up to an argument that an expression can stand for. -/

namespace GlideBridge

inductive Getter where
  | getUser
  | getSession
  | getProperty (f : Field)
  | getValue (f : Field)
  | getTableName
  | getUniqueValue
  | isNewRecord
  | getControl (f : Field)
  | current (w : Word)
  | workflow (w : Word)

namespace Getter

def statement : Getter → Statement
  | getUser => .system .getUser
  | getSession => .system .getSession
  | getProperty f => .system (.getProperty f)
  | getValue f => .form (.getValue f)
  | getTableName => .form .getTableName
  | getUniqueValue => .form .getUniqueValue
  | isNewRecord => .form .isNewRecord
  | getControl f => .form (.getControl f)
  | current w => .current w
  | workflow w => .workflow w

def text (g : Getter) : Text := g.statement.text

def translation (form : Text) (g : Getter) : Text := g.statement.translation form

end Getter

inductive Atom where
  | argument (a : Argument)
  | getter (g : Getter)

namespace Atom

def text : Atom → Text
  | argument a => a.text
  | getter g => g.text

def translation (form : Text) : Atom → Text
  | argument a => a.text
  | getter g => g.translation form

end Atom

inductive Operator where
  | plus
  | minus
  | equal
  | notEqual
  | and
  | or
  deriving DecidableEq, Repr

namespace Operator

def all : List Operator := [plus, minus, equal, notEqual, and, or]

def text : Operator → Text
  | plus => " + "
  | minus => " - "
  | equal => " == "
  | notEqual => " != "
  | and => " && "
  | or => " || "

theorem mem_all (o : Operator) : o ∈ all := by cases o <;> decide

end Operator

inductive Expression where
  | atom (a : Atom)
  | join (a : Atom) (o : Operator) (e : Expression)

namespace Expression

def write (f : Atom → Text) : Expression → Text
  | atom a => f a
  | join a o e => f a ++ (o.text ++ e.write f)

def text (e : Expression) : Text := e.write Atom.text

def translation (form : Text) (e : Expression) : Text := e.write (Atom.translation form)

end Expression

inductive CallHead where
  | log
  | notify (kind : NoticeKind)
  | alert
  | patchValue
  | hideFieldMsg
  | setValue (f : Field)
  | setVisible (f : Field)
  | setSectionDisplay (f : Field)
  | getReference (f : Field)

namespace CallHead

def text : CallHead → Text
  | log => "gs.log("
  | notify .info => "gs.addInfoMessage("
  | notify .error => "gs.addErrorMessage("
  | notify .warning => "gs.addWarningMessage("
  | alert => "alert("
  | patchValue => "g_form.patchValue("
  | hideFieldMsg => "g_form.hideFieldMsg("
  | setValue f => List.flatten ["g_form.setValue(", f.written, ", "]
  | setVisible f => List.flatten ["g_form.setVisible(", f.written, ", "]
  | setSectionDisplay f => List.flatten ["g_form.setSectionDisplay(", f.written, ", "]
  | getReference f => List.flatten ["g_form.getReference(", f.written, ", "]

def translation (form : Text) : CallHead → Text
  | log => "console.log("
  | notify .info => "ele.showNotification(\"info\", "
  | notify .error => "ele.showNotification(\"error\", "
  | notify .warning => "ele.showNotification(\"warning\", "
  | alert => "ele.messageSnackbarService.showMessageSnackBar("
  | patchValue => List.flatten ["ele.", form, ".patchValue("]
  | hideFieldMsg => "ele.hideFieldMessage("
  | setValue f => FormCall.control form f [".setValue("]
  | setVisible f => List.flatten ["setFieldVisibility(\"", f.text, "\", "]
  | setSectionDisplay f => List.flatten ["setSectionVisibility(\"", f.text, "\", "]
  | getReference f => List.flatten ["getFieldReference(\"", f.text, "\", "]

end CallHead

end GlideBridge
