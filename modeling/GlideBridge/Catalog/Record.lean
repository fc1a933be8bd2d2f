import GlideBridge.Rule

/-! Fields of the current record and of its workflow, and declarations of other records. -/

namespace GlideBridge.Catalog

def currentRule : Rule :=
  ⟨{ opening := "current.", pieces := [.field .word] }, ["ele.current[\"", .field 0, "\"]"]⟩

def workflowRule : Rule :=
  ⟨{ opening := "workflow.", pieces := [.field .word] }, ["ele.workflow[\"", .field 0, "\"]"]⟩

/-- A record other than the current one has no counterpart, so its declaration becomes a note. -/
def declarationRule : Rule where
  pattern := {
    opening := "var"
    pieces := [.one .blank, .many .blank, .field .word, .many .blank, "=", .many .blank, "new",
      .one .blank, .many .blank, "GlideRecord(", .one .quote, .field .word, .one .quote, ")",
      .optional ';'] }
  template :=
    ["// ", .field 0, " = GlideRecord for ", .field 1, " - use Angular service instead"]

def recordGroup : RuleGroup := ⟨"record", [currentRule, workflowRule, declarationRule]⟩

end GlideBridge.Catalog
