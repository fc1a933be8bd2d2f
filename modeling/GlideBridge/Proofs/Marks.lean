import GlideBridge.Proofs.CommentLines

/-! Comment marks put in at all places at once. The rules for calls that are left over work one
after the other, each on the text that the one before has left, but a mark neither makes a call nor
takes one apart, so each call gets its mark as if it were the only one. -/

namespace GlideBridge

open Catalog

namespace CallSpace

theorem mark_congr {S S' : List CallSpace} (h : ∀ s, s ∈ S ↔ s ∈ S') (t : Text) :
    mark S t = mark S' t := by
  induction t with
  | nil => rfl
  | cons c t ih => simp only [mark, h, ih]

theorem leftoverRules_reverse_apply (t : Text) :
    RuleGroup.apply { leftoverGroup with rules := leftoverGroup.rules.reverse } t =
      mark [form, system] t := by
  have hrules : RuleGroup.apply { leftoverGroup with rules := leftoverGroup.rules.reverse } t =
      form.leftoverRule.apply (system.leftoverRule.apply t) := rfl
  rw [hrules, leftoverRule_apply, leftoverRule_apply, mark_mark (by decide)]

theorem mark_eq_flatMap_tails (t : Text) : mark [system, form] t =
    t.tails.flatMap fun v => (if Begins v then "// ".toList else []) ++ v.take 1 := by
  induction t with
  | nil => decide
  | cons c t ih =>
    rw [List.tails, List.flatMap_cons, ← ih, mark]
    by_cases h : Begins (c :: t)
    · rw [if_pos h]
      exact if_pos h
    · rw [if_neg h]
      exact if_neg h

theorem length_callAt? (s : CallSpace) (t : Text) :
    (s.callAt? t).toList.length = if s.Starts t then 1 else 0 := by
  split
  · next h =>
    cases hm : matchPieces s.pattern.steps t with
    | none => exact absurd h (match_eq_none_iff.1 hm)
    | some g => rw [callAt?, hm]; rfl
  · next h => rw [callAt?_eq_none h]; rfl

theorem length_mark (t : Text) : (mark [system, form] t).length =
    t.length + 3 * ((form.calls t).length + (system.calls t).length) := by
  induction t with
  | nil => rfl
  | cons c t ih =>
    -- At most one kind of call starts here, so the one mark counts for one call.
    rw [calls, calls, List.length_append, List.length_append, length_callAt?, length_callAt?, mark]
    by_cases hform : form.Starts (c :: t)
    · have hsystem : ¬ system.Starts (c :: t) := fun h => by cases hform.unique h
      rw [if_pos ⟨form, by simp, hform⟩, if_pos hform, if_neg hsystem]
      simp only [List.length_cons, ih]
      omega
    · by_cases hsystem : system.Starts (c :: t)
      · rw [if_pos ⟨system, by simp, hsystem⟩, if_neg hform, if_pos hsystem]
        simp only [List.length_cons, ih]
        omega
      · rw [if_neg (by simp [hform, hsystem]), if_neg hform, if_neg hsystem]
        simp only [List.length_cons, ih]
        omega

end CallSpace

/-- The rules for calls that are left over put a mark in front of every call and change nothing
else, in whichever order they work. The marks are as many as the calls, and the calls stay as they
were. -/
theorem leftoverGroup_marks_calls (t : Text) :
    leftoverGroup.apply t =
        t.tails.flatMap (fun v => (if CallSpace.Begins v then "// ".toList else []) ++ v.take 1) ∧
      RuleGroup.apply { leftoverGroup with rules := leftoverGroup.rules.reverse } t =
        leftoverGroup.apply t ∧
      (leftoverGroup.apply t).length = t.length + 3 * (leftoverCalls t).length ∧
      leftoverCalls (leftoverGroup.apply t) = leftoverCalls t := by
  rw [CallSpace.leftoverRules_reverse_apply, CallSpace.leftoverGroup_apply]
  refine ⟨CallSpace.mark_eq_flatMap_tails t, ?_, ?_, ?_⟩
  · exact CallSpace.mark_congr (fun s => by cases s <;> simp) t
  · rw [CallSpace.length_mark, CallSpace.leftoverCalls_eq, List.length_append]
  · rw [CallSpace.leftoverCalls_eq, CallSpace.leftoverCalls_eq, CallSpace.calls_mark,
      CallSpace.calls_mark]

end GlideBridge
