import GlideBridge.Conversion.Basic

/-!
A conversion rule by rule: the unwrapped script, each rule that changed the text with what it
left, and the calls left over at the point where they are listed. The rules of some groups, taken
one by one, leave what the groups leave (`traceRules_numbered_snd`).
-/

namespace GlideBridge.Conversion

inductive TraceEntry where
  | unwrapped (t : Text)
  | rule (group : Text) (index : Nat) (t : Text)
  | leftovers (calls : List Text)
  deriving DecidableEq, Repr

structure NumberedRule where
  group : Text
  index : Nat
  rule : Rule

def numbered (g : RuleGroup) : List NumberedRule :=
  g.rules.mapIdx fun i r => ⟨g.name, i, r⟩

/-- The entries of the rules that change the text, and the text behind the last rule. -/
def traceRules : List NumberedRule → Text → List TraceEntry × Text
  | [], t => ([], t)
  | r :: rs, t =>
    let u := r.rule.apply t
    let rest := traceRules rs u
    (if u = t then rest.1 else .rule r.group r.index u :: rest.1, rest.2)

theorem traceRules_snd (rs : List NumberedRule) (t : Text) :
    (traceRules rs t).2 = (rs.map (·.rule)).foldl (fun u r => r.apply u) t := by
  induction rs generalizing t with
  | nil => rfl
  | cons r rs ih => simp [traceRules, ih]

theorem map_rule_numbered (g : RuleGroup) : (numbered g).map (·.rule) = g.rules := by
  apply List.ext_getElem
  · simp [numbered]
  · intro i _ _
    simp [numbered]

theorem traceRules_numbered_snd (gs : List RuleGroup) (t : Text) :
    (traceRules (gs.flatMap numbered) t).2 = Catalog.applyAll gs t := by
  rw [traceRules_snd, List.map_flatMap]
  induction gs generalizing t with
  | nil => rfl
  | cons g gs ih =>
    simp [Catalog.applyAll, RuleGroup.apply, map_rule_numbered, List.foldl_append] at ih ⊢
    exact ih _

def trace (form source : Text) : List TraceEntry :=
  let script := Handler.unwrap source
  let conversion := traceRules ((Catalog.documented form).flatMap numbered) script
  let closing := traceRules (Catalog.closingGroups.flatMap numbered) conversion.2
  .unwrapped script :: conversion.1 ++
    .leftovers (Catalog.leftoverCalls conversion.2) :: closing.1

end GlideBridge.Conversion
