import GlideBridge.Rule

/-!
Calls of the two namespaces that no other rule has converted: the rules that comment them out
and the list of their names, form calls first. Last, the rule that drops semicolons with the
blanks behind them at the ends of lines.
-/

namespace GlideBridge.Catalog

def formCall : Pattern := { opening := "g_form.", pieces := [.field .letter, "("] }

def systemCall : Pattern := { opening := "gs.", pieces := [.field .letter, "("] }

def leftoverGroup : RuleGroup where
  name := "fallback"
  rules :=
    [ ⟨formCall, ["// g_form.", .field 0, "("]⟩,
      ⟨systemCall, ["// gs.", .field 0, "("]⟩ ]

def leftoverCalls (t : Text) : List Text :=
  [formCall, systemCall].flatMap fun p => (p.hits t).map fun h => h.taken.dropLast

def cleanupGroup : RuleGroup where
  name := "cleanup"
  rules := [⟨{ opening := ";", pieces := [.many .blank, .lineEnd] }, []⟩]

end GlideBridge.Catalog
