import GlideBridge.Catalog.FormApi
import GlideBridge.Catalog.Leftover
import GlideBridge.Catalog.Record

/-!
The rule groups in their order. Documented calls are converted first, so that the groups behind
them meet only what no other rule has taken.
-/

namespace GlideBridge.Catalog

def documented (form : Text) : List RuleGroup :=
  [systemGroup, alertGroup, recordGroup, formGroup form]

def closingGroups : List RuleGroup := [leftoverGroup, cleanupGroup]

def applyAll (gs : List RuleGroup) (t : Text) : Text := gs.foldl (fun u g => g.apply u) t

def fixedGroups : List RuleGroup :=
  [systemGroup, alertGroup, recordGroup, leftoverGroup, cleanupGroup]

/-- The form only matters to the group of form calls, which goes by one name for all forms. -/
def named? (name form : Text) : Option RuleGroup :=
  if name = "formApi".toList then some (formGroup form) else fixedGroups.find? (·.name = name)

end GlideBridge.Catalog
