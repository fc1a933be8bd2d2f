import GlideBridge.Catalog.Leftover

/-! Calls of the system namespace, and alerts. -/

namespace GlideBridge.Catalog

/-- An argument that goes on to the next closing parenthesis, and that parenthesis. -/
def lastArgument : List Piece := [.field (.except ')'), ")"]

def separator : List Piece := [",", .many .blank]

/-- A call that shows a notification of the given kind; a semicolon behind it goes as well. -/
def notification (opening : Text) (h : opening ≠ []) (template : Text) : Rule where
  pattern :=
    ⟨opening, [.many .blank, "(", .field (.except ')'), ")", .optional ';'], false, h⟩
  template := [.text template, .field 0, ")"]

def logRule : Rule where
  pattern := {
    opening := "gs."
    pieces := [.oneOf ["log", "info", "error"], .many .blank, "("]
    opening_ne := systemCall.opening_ne
  }
  template := ["console.log("]

def nilRule : Rule :=
  ⟨{ opening := "gs.nil(", pieces := lastArgument },
    ["!", .field 0, " || ", .field 0, " === \"\" || ", .field 0, " === null || ", .field 0,
      " === undefined"]⟩

def validRule : Rule :=
  ⟨{ opening := "gs.isValid(", pieces := lastArgument },
    [.field 0, " && ", .field 0, " !== \"\" && ", .field 0, " !== null && ", .field 0,
      " !== undefined"]⟩

def systemRules : List Rule :=
  [ logRule,
    ⟨{ opening := "gs.getUser()" }, ["ele.currentUser"]⟩,
    ⟨{ opening := "gs.getSession()" }, ["ele.session"]⟩,
    ⟨{ opening := "gs.getProperty(",
        pieces := [.one .quote, .field .notQuote, .one .quote, ")"] },
      ["ele.getProperty(\"", .field 0, "\")"]⟩,
    notification "gs.addInfoMessage" (by decide) "ele.showNotification(\"info\", ",
    notification "gs.addErrorMessage" (by decide) "ele.showNotification(\"error\", ",
    notification "gs.addWarningMessage" (by decide) "ele.showNotification(\"warning\", ",
    nilRule,
    validRule ]

def systemGroup : RuleGroup := ⟨"systemApi", systemRules⟩

def alertRule : Rule :=
  ⟨{ opening := "alert", pieces := .many .blank :: "(" :: lastArgument },
    ["ele.messageSnackbarService.showMessageSnackBar(", .field 0, ")"]⟩

def alertGroup : RuleGroup := ⟨"alert", [alertRule]⟩

end GlideBridge.Catalog
