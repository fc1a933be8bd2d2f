import GlideBridge.Catalog.System

/-!
Calls of the form namespace. The rules depend on the form that the handler addresses: its
identifier stands, as it is given, in the accessors that the templates write.
-/

namespace GlideBridge.Catalog

/-- A field name in quotes of either kind; the two ends need not agree. -/
def quotedField : List Piece := [.one .quote, .field .fieldName, .one .quote]

def closing : List Piece := [")"]

def fieldOnly : List Piece := quotedField ++ closing

def fieldAndArgument : List Piece := quotedField ++ separator ++ lastArgument

def middleArgument : List Piece := .field (.except ',') :: separator

def formAccess (form : Text) (access : Template) : Template := "ele." :: .text form :: access

def fieldAccess (form : Text) (access : Template) : Template :=
  formAccess form (".get(\"" :: .field 0 :: "\")" :: access)

def readOnlyRule (form : Text) : Rule :=
  ⟨{ opening := "g_form.setReadOnly(", pieces := fieldAndArgument },
    fieldAccess form [".disable()"]⟩

def displayRule : Rule :=
  ⟨{ opening := "g_form.setDisplay(", pieces := fieldAndArgument },
    ["ele.utilitiesService.toggleFieldMode(ele, \"", .field 0, "\", ", .field 1,
      " === true ? \"nonMandatory\" : ", .field 1, " === false ? \"hide\" : ", .field 1, ")"]⟩

def formRules (form : Text) : List Rule :=
  [ ⟨{ opening := "g_form.getValue",
        pieces := [.many .blank, "(", .many .blank, .one .quote, .field .notQuote, .one .quote,
          .many .blank, ")"] },
      fieldAccess form [".value"]⟩,
    ⟨{ opening := "g_form.setValue(", pieces := fieldAndArgument },
      fieldAccess form [".setValue(", .field 1, ")"]⟩,
    ⟨{ opening := "g_form.patchValue(", pieces := lastArgument },
      formAccess form [".patchValue(", .field 0, ")"]⟩,
    ⟨{ opening := "g_form.clearValue(", pieces := fieldOnly },
      fieldAccess form [".setValue(\"\")"]⟩,
    readOnlyRule form,
    ⟨{ opening := "g_form.showFieldMsg(",
        pieces := .field (.except ',') :: "," :: .field (.except ',') :: "," :: lastArgument },
      ["ele.showFieldMessage(", .field 0, ", ", .field 1, ", ", .field 2, ")"]⟩,
    ⟨{ opening := "g_form.hideFieldMsg(", pieces := lastArgument },
      ["ele.hideFieldMessage(", .field 0, ")"]⟩,
    ⟨{ opening := "g_form.setMandatory(", pieces := fieldAndArgument },
      ["ele.utilitiesService.toggleFieldMode(ele, \"", .field 0, "\", ", .field 1,
        " ? \"mandatory\" : \"nonMandatory\")"]⟩,
    ⟨{ opening := "g_form.setVisible(", pieces := fieldAndArgument },
      ["setFieldVisibility(\"", .field 0, "\", ", .field 1, ")"]⟩,
    displayRule,
    ⟨{ opening := "g_form.addOption(",
        pieces := quotedField ++ separator ++ middleArgument ++ lastArgument },
      ["addFieldOption(\"", .field 0, "\", ", .field 1, ", ", .field 2, ")"]⟩,
    ⟨{ opening := "g_form.clearOptions(", pieces := fieldOnly },
      ["clearFieldOptions(\"", .field 0, "\")"]⟩,
    ⟨{ opening := "g_form.getTableName()" }, ["tableName"]⟩,
    ⟨{ opening := "g_form.getUniqueValue()" }, ["uniqueValue"]⟩,
    ⟨{ opening := "g_form.isNewRecord()" }, ["isNewRecord"]⟩,
    ⟨{ opening := "g_form.getReference(", pieces := fieldAndArgument },
      ["getFieldReference(\"", .field 0, "\", ", .field 1, ")"]⟩,
    ⟨{ opening := "g_form.getControl(", pieces := fieldOnly },
      ["getFieldControl(\"", .field 0, "\")"]⟩,
    ⟨{ opening := "g_form.getSectionNames()" }, ["getSectionNames()"]⟩,
    ⟨{ opening := "g_form.setSectionDisplay(", pieces := fieldAndArgument },
      ["setSectionVisibility(\"", .field 0, "\", ", .field 1, ")"]⟩ ]

def doubleBackslashes (t : Text) : Text := t.flatMap fun c => if c = '\\' then ['\\', '\\'] else [c]

/-- The name of the group shows the form with its backslashes doubled. -/
def formGroup (form : Text) : RuleGroup :=
  ⟨"formApi:" ++ doubleBackslashes form, formRules form⟩

end GlideBridge.Catalog
