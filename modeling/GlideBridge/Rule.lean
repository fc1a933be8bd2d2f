import GlideBridge.Pattern.Scan

/-!
Rules that put a template in the place of every hit of a pattern, and named groups of rules
that work one after the other, each on the whole text that the rule before has left.
-/

namespace GlideBridge

/-- Fields are counted from zero. -/
inductive TemplatePart where
  | text (t : Text)
  | field (index : Nat)
  deriving DecidableEq, Repr

instance : Coe String TemplatePart := ⟨fun s => .text s⟩

namespace TemplatePart

/-- A field that the hit does not have is empty. -/
def fill (fields : List Text) : TemplatePart → Text
  | text t => t
  | field i => fields.getD i []

end TemplatePart

abbrev Template := List TemplatePart

structure Rule where
  pattern : Pattern
  template : Template := []

namespace Rule

def render (r : Rule) : Segment → Text
  | .kept c => [c]
  | .hit h => r.template.flatMap (·.fill h.fields)

def apply (r : Rule) (t : Text) : Text := (r.pattern.scan t).flatMap r.render

theorem apply_of_hits_eq_nil {r : Rule} {t : Text} (h : r.pattern.hits t = []) :
    r.apply t = t := by
  rw [Pattern.hits, List.filterMap_eq_nil_iff] at h
  have render_eq : ∀ s ∈ r.pattern.scan t, r.render s = s.source := by
    intro s hs
    cases s with
    | kept c => rfl
    | hit g => exact absurd (h _ hs) (by simp [Segment.hit?])
  rw [apply, List.flatMap_def, List.map_congr_left render_eq, ← List.flatMap_def,
    Pattern.source_scan]

end Rule

structure RuleGroup where
  name : Text
  rules : List Rule

namespace RuleGroup

def apply (g : RuleGroup) (t : Text) : Text := g.rules.foldl (fun u r => r.apply u) t

def size (g : RuleGroup) : Nat := g.rules.length

end RuleGroup

end GlideBridge
