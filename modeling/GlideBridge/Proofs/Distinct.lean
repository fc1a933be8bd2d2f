import GlideBridge.Proofs.Meaning
import Mathlib.Data.List.Nodup

/-! Conditions in which no variable occurs twice. They keep their meaning only where the checks are
safe: a negated check has become constant, a check for emptiness in a conjunction holds for the
empty text by a comparison that no other operand is joined to, and the variables of the other
operands can be given values that bring the difference to the surface. -/

namespace GlideBridge.Script

variable {σ τ : Text → Content} {l : Level}

namespace Expr

/-- A part of the disjunction behind its first one holds. -/
def rest (σ : Text → Content) : Expr → Bool
  | binary .or l r => l.rest σ || r.truth σ
  | _ => false

/-- A part of the disjunction between its first and its last one holds. -/
def inner (σ : Text → Content) : Expr → Bool
  | binary .or l _ => l.rest σ
  | _ => false

theorem rest_of_inner {e : Expr} (h : e.inner σ = true) : e.rest σ = true := by
  unfold inner at h
  split at h
  · next l r => rw [rest, h, Bool.true_or]
  · cases h

theorem truth_of_rest {e : Expr} (h : e.rest σ = true) : e.truth σ = true := by
  induction e with
  | binary o l r ihl _ =>
    cases o with
    | or =>
      rw [rest, Bool.or_eq_true] at h
      rw [truth_or, Bool.or_eq_true]
      exact h.imp_left ihl
    | _ => cases h
  | _ => cases h

theorem rest_negate (e : Expr) : e.negate.rest σ = e.rest σ := by
  induction e with
  | binary o l r ihl _ =>
    cases o with
    | or => rw [negate, rest, ihl, rest]
    | _ => rfl
  | _ => rfl

theorem inner_negate (e : Expr) : e.negate.inner σ = e.inner σ := by
  cases e with
  | binary o l r =>
    cases o with
    | or => exact l.rest_negate
    | _ => rfl
  | _ => rfl

theorem rest_conjoin_right (l : Expr) {r : Expr} (h : r.rest σ = true) :
    (conjoin l r).rest σ = true := by
  induction r with
  | binary o r s ih _ =>
    cases o with
    | or =>
      rw [rest, Bool.or_eq_true] at h
      rw [conjoin, rest, Bool.or_eq_true]
      exact h.imp_left ih
    | _ => cases h
  | _ => cases h

theorem inner_conjoin_right (l : Expr) {r : Expr} (h : r.inner σ = true) :
    (conjoin l r).inner σ = true := by
  unfold inner at h
  split at h
  · next r s => exact rest_conjoin_right l h
  · cases h

theorem inner_conjoin_left {l : Expr} (h : l.inner σ = true) (r : Expr) :
    (conjoin l r).inner σ = true := by
  have hlast (r : Expr) : (conjoinLast l r).inner σ = true := by
    unfold conjoinLast
    split
    · exact h
    · next hne =>
      unfold inner at h
      split at h
      · next l m => exact absurd rfl (hne l m)
      · cases h
  induction r with
  | binary o r s ih _ =>
    cases o with
    | or => exact rest_of_inner ih
    | _ => exact hlast _
  | _ => exact hlast _

theorem value_congr {e : Expr}
    (h : ∀ w, .name w ∈ e.tokens → w ≠ nullName → w ≠ undefinedName → σ w = τ w) :
    e.value σ = e.value τ := by
  induction e with
  | name w =>
    by_cases hnull : w = nullName
    · rw [value, if_pos hnull, value, if_pos hnull]
    by_cases hundefined : w = undefinedName
    · rw [value, if_pos hundefined, value, if_pos hundefined]
    have hw := h w List.mem_cons_self hnull hundefined
    rw [value, hw, value]
  | empty => rfl
  | not e ih => rw [value, ih fun w hw => h w (List.mem_cons_of_mem _ hw), value]
  | binary o l r ihl ihr =>
    have hl := ihl fun w hw => h w (List.mem_append_left _ hw)
    have hr := ihr fun w hw => h w (List.mem_append_right _ (List.mem_cons_of_mem _ hw))
    rw [value, hl, hr, value]
  | group e ih =>
    have he := ih fun w hw => h w (List.mem_cons_of_mem _ (List.mem_append_left _ hw))
    rw [value, he, value]
  | call k e ih =>
    have he := ih fun w hw =>
      h w (List.mem_cons_of_mem _ (List.mem_cons_of_mem _ (List.mem_append_left _ hw)))
    rw [value, he, value]

end Expr

theorem Check.exists_content (k : Check) (a : Bool) : ∃ x, k.holds (.content x) = a := by
  cases k <;> cases a
  · exact ⟨.text [' '], rfl⟩
  · exact ⟨.text [], rfl⟩
  · exact ⟨.text [], rfl⟩
  · exact ⟨.text [' '], rfl⟩

namespace Condition

theorem name_mem_tokens {c : Condition l} {w : Text} (hw : .name w ∈ c.tokens Check.expanded) :
    w ∈ c.vars ∨ w = nullName ∨ w = undefinedName := by
  induction c with
  | check k v b =>
    rw [vars, List.mem_singleton]
    rw [tokens, k.expanded_eq, k.compare_tokens, List.mem_append] at hw
    rcases hw with hw | hw
    · exact .inl (by cases k <;> simpa [Check.lead, Expr.tokens] using hw)
    · have hw : w = v.text ∨ w = nullName ∨ w = v.text ∨ w = undefinedName := by
        simpa [constants, Constant.expr, Expr.tokens] using hw
      rcases hw with hw | hw | hw | hw
      · exact .inl hw
      · exact .inr (.inl hw)
      · exact .inl hw
      · exact .inr (.inr hw)
  | not b c ih => exact ih (by simpa [tokens] using hw)
  | group b c b' ih => exact ih (by simpa [tokens] using hw)
  | one c ih | all c ih => exact ih hw
  | and c b d ihc ihd | or c b d ihc ihd =>
    have hw : .name w ∈ c.tokens Check.expanded ∨ .name w ∈ d.tokens Check.expanded := by
      simpa [tokens] using hw
    rw [vars, List.mem_append]
    rcases hw with hw | hw
    · exact (ihc hw).imp_left .inl
    · exact (ihd hw).imp_left .inr

theorem truth_spliced_congr {c : Condition l} (h : ∀ w ∈ c.vars, σ w = τ w) :
    c.spliced.truth σ = c.spliced.truth τ := by
  refine congrArg Value.truth (Expr.value_congr fun w hw hnull hundefined => ?_)
  rw [c.spliced_tokens] at hw
  rcases name_mem_tokens hw with hw | hw | hw
  · exact h w hw
  · exact absurd hw hnull
  · exact absurd hw hundefined

theorem holds_congr {c : Condition l} (h : ∀ w ∈ c.vars, σ w = τ w) : c.holds σ = c.holds τ := by
  induction c with
  | check k w b => rw [holds, h w.text List.mem_cons_self, holds]
  | not b c ih => rw [holds, ih h, holds]
  | group b c b' ih | one c ih | all c ih => exact ih h
  | and c b d ihc ihd | or c b d ihc ihd =>
    rw [vars, List.forall_mem_append] at h
    rw [holds, ihc h.1, ihd h.2, holds]

def mix (vs : List Text) (σ τ : Text → Content) : Text → Content :=
  fun w => if w ∈ vs then σ w else τ w

/-- Some assignment has the condition come to the first value, and what is read once the checks are
written out to the second. -/
def Attains (c : Condition l) (a b : Bool) : Prop :=
  ∃ σ, c.holds σ = a ∧ c.spliced.truth σ = b

theorem Attains.both {l' : Level} {c : Condition l} {d : Condition l'}
    (hdisjoint : c.vars.Disjoint d.vars) {a a' b b' : Bool} (hc : c.Attains a b)
    (hd : d.Attains a' b') :
    ∃ σ, (c.holds σ = a ∧ c.spliced.truth σ = b) ∧ d.holds σ = a' ∧ d.spliced.truth σ = b' := by
  obtain ⟨σ, hσ⟩ := hc
  obtain ⟨τ, hτ⟩ := hd
  have hleft : ∀ w ∈ c.vars, mix c.vars σ τ w = σ w := fun w hw => if_pos hw
  have hright : ∀ w ∈ d.vars, mix c.vars σ τ w = τ w := fun w hw => if_neg fun hc => hdisjoint hc hw
  refine ⟨mix c.vars σ τ, ?_, ?_⟩
  · rwa [holds_congr hleft, truth_spliced_congr hleft]
  · rwa [holds_congr hright, truth_spliced_congr hright]

theorem exists_holds (c : Condition l) (hc : c.vars.Nodup) (a : Bool) : ∃ σ, c.holds σ = a := by
  induction c generalizing a with
  | check k w b =>
    obtain ⟨x, hx⟩ := k.exists_content a
    exact ⟨fun _ => x, hx⟩
  | not b c ih =>
    obtain ⟨σ, h⟩ := ih hc !a
    exact ⟨σ, by rw [holds, h, Bool.not_not]⟩
  | group b c b' ih | one c ih | all c ih => exact ih hc a
  | and c b d ihc ihd | or c b d ihc ihd =>
    obtain ⟨hc, hd, hdisjoint⟩ := List.nodup_append'.1 hc
    obtain ⟨σ, hσ⟩ := ihc hc a
    obtain ⟨τ, hτ⟩ := ihd hd a
    obtain ⟨υ, ⟨hc, -⟩, hd, -⟩ := Attains.both hdisjoint ⟨σ, hσ, rfl⟩ ⟨τ, hτ, rfl⟩
    exact ⟨υ, by rw [holds, hc, hd]; cases a <;> rfl⟩

theorem exists_and_ne {P Q : Bool → Bool → Prop} (hP : ∀ a, ∃ b, P a b) (hQ : ∀ a, ∃ b, Q a b)
    (hne : ∃ a, P a !a) : ∃ a b a' b', P a b ∧ Q a' b' ∧ (b && b') = !(a && a') := by
  obtain ⟨a, hne⟩ := hne
  obtain ⟨b', hb'⟩ := hQ true
  cases a with
  | true => exact ⟨true, false, true, b', hne, hb', rfl⟩
  | false =>
    cases b' with
    | true => exact ⟨false, true, true, true, hne, hb', rfl⟩
    | false =>
      obtain ⟨b, hb⟩ := hP true
      exact ⟨true, b, true, false, hb, hb', Bool.and_false b⟩

theorem exists_or_ne {P Q : Bool → Bool → Prop} (hP : ∀ a, ∃ b, P a b) (hQ : ∀ a, ∃ b, Q a b)
    (hne : ∃ a, P a !a) : ∃ a b a' b', P a b ∧ Q a' b' ∧ (b || b') = !(a || a') := by
  have hnot {P : Bool → Bool → Prop} (hP : ∀ a, ∃ b, P a b) (a : Bool) : ∃ b, P (!a) !b := by
    obtain ⟨b, hb⟩ := hP !a
    exact ⟨!b, by rwa [Bool.not_not]⟩
  obtain ⟨a, ha⟩ := hne
  have hne : ∃ a, P (!a) !!a := ⟨!a, by rwa [Bool.not_not]⟩
  obtain ⟨a, b, a', b', hP, hQ, h⟩ := exists_and_ne (hnot hP) (hnot hQ) hne
  refine ⟨!a, !b, !a', !b', hP, hQ, ?_⟩
  rw [← Bool.not_and, h, ← Bool.not_and]

theorem exists_attains {c : Condition l} (hc : c.vars.Nodup) (a : Bool) : ∃ b, c.Attains a b := by
  obtain ⟨σ, h⟩ := c.exists_holds hc a
  exact ⟨_, σ, h, rfl⟩

theorem exists_fails {c : Condition l} (hc : c.vars.Nodup) {v : Text} (hv : v ∉ c.vars) :
    ∃ σ, σ v = .text [] ∧ c.holds σ = false := by
  obtain ⟨σ, h⟩ := c.exists_holds hc false
  refine ⟨mix c.vars σ fun _ => .text [], if_neg hv, ?_⟩
  exact (holds_congr fun w hw => if_pos hw).trans h

theorem exists_operation_ne {f : Bool → Bool → Bool} (hcomm : ∀ a b, f a b = f b a)
    (hf : ∀ {P Q : Bool → Bool → Prop}, (∀ a, ∃ b, P a b) → (∀ a, ∃ b, Q a b) → (∃ a, P a !a) →
      ∃ a b a' b', P a b ∧ Q a' b' ∧ f b b' = !f a a')
    {l' : Level} {c : Condition l} {d : Condition l'} (hvars : (c.vars ++ d.vars).Nodup)
    (hne : (∃ a, c.Attains a !a) ∨ ∃ a, d.Attains a !a) :
    ∃ σ, f (c.spliced.truth σ) (d.spliced.truth σ) = !f (c.holds σ) (d.holds σ) := by
  obtain ⟨hc, hd, hdisjoint⟩ := List.nodup_append'.1 hvars
  rcases hne with hne | hne
  · obtain ⟨a, b, a', b', hc, hd, h⟩ := hf (exists_attains hc) (exists_attains hd) hne
    obtain ⟨σ, hc, hd⟩ := Attains.both hdisjoint hc hd
    exact ⟨σ, by rw [hc.1, hc.2, hd.1, hd.2, h]⟩
  · obtain ⟨a, b, a', b', hd, hc, h⟩ := hf (exists_attains hd) (exists_attains hc) hne
    obtain ⟨σ, hc, hd⟩ := Attains.both hdisjoint hc hd
    exact ⟨σ, by rw [hc.1, hc.2, hd.1, hd.2, hcomm b', hcomm a', h]⟩

theorem exists_loose {c : Condition l} (hl : l ≠ .disjunction) (hc : c.isLoose = true) :
    ∃ v ∈ c.vars, ∀ σ, σ v = .text [] → c.spliced.inner σ = true := by
  induction c with
  | check k w b =>
    obtain rfl : k = .nil := beq_iff_eq.1 hc
    -- the comparison with the empty text is an inner part of what the check is written out to
    refine ⟨w.text, List.mem_cons_self, fun σ hσ => ?_⟩
    have hempty : (Expr.binary .same (.name w.text) .empty).truth σ = true := by
      rw [Expr.truth, Expr.value, w.value_name, hσ]
      rfl
    change ((false || (Expr.binary .same (.name w.text) .empty).truth σ) || _) = true
    rw [hempty, Bool.or_true, Bool.true_or]
  | not b c ih =>
    obtain ⟨v, hv, hinner⟩ := ih hl hc
    refine ⟨v, hv, fun σ hσ => ?_⟩
    rw [spliced, Expr.inner_negate, hinner σ hσ]
  | group b c b' _ => cases hc
  | one c ih => exact ih (by decide) hc
  | and c b d ihc ihd =>
    rw [isLoose, Bool.or_eq_true] at hc
    rcases hc with hc | hd
    · obtain ⟨v, hv, hinner⟩ := ihc hl hc
      exact ⟨v, List.mem_append_left _ hv, fun σ hσ => Expr.inner_conjoin_left (hinner σ hσ) _⟩
    · obtain ⟨v, hv, hinner⟩ := ihd (by decide) hd
      exact ⟨v, List.mem_append_right _ hv, fun σ hσ => Expr.inner_conjoin_right _ (hinner σ hσ)⟩
  | all | or => exact absurd rfl hl

theorem exists_truth_spliced_ne {c : Condition l} (hvars : c.vars.Nodup) (hc : c.isSafe = false) :
    ∃ a, c.Attains a !a := by
  induction c with
  | check k w b => cases hc
  | not b c ih =>
    by_cases hopen : c.isOpen = true
    -- an open operand of a negation is a check, and what it is written out to is constant
    · obtain ⟨k, w, h⟩ := (not b c).truth_of_isOpen hopen
      obtain ⟨hholds, hspliced⟩ := h fun _ => .text []
      rw [hc] at hholds hspliced
      refine ⟨_, fun _ => .text [], hholds, hspliced.trans ?_⟩
      cases k <;> rfl
    · have hsafe : c.isSafe = false := (if_neg hopen).symm.trans hc
      have hbinary := c.spliced_isBinary.trans (Bool.not_eq_true _ ▸ hopen)
      obtain ⟨a, σ, hholds, hspliced⟩ := ih hvars hsafe
      refine ⟨!a, σ, by rw [holds, hholds], ?_⟩
      rw [spliced, Expr.negate_of_not_isBinary hbinary, Expr.truth_not, hspliced]
  | group b c b' ih | one c ih | all c ih => exact ih hvars hc
  | and c b d ihc ihd =>
    obtain ⟨hvc, hvd, hdisjoint⟩ := List.nodup_append'.1 hvars
    -- a check for emptiness in one operand makes the whole true while the other operand fails
    by_cases hcl : c.isLoose = true
    · obtain ⟨v, hv, hinner⟩ := exists_loose (by decide) hcl
      obtain ⟨σ, hempty, hd⟩ := exists_fails hvd (hdisjoint hv)
      refine ⟨false, σ, by rw [holds, hd, Bool.and_false], ?_⟩
      exact Expr.truth_of_rest (Expr.rest_of_inner (Expr.inner_conjoin_left (hinner σ hempty) _))
    by_cases hdl : d.isLoose = true
    · obtain ⟨v, hv, hinner⟩ := exists_loose (by decide) hdl
      obtain ⟨σ, hempty, hc⟩ := exists_fails hvc fun hvc => hdisjoint hvc hv
      refine ⟨false, σ, by rw [holds, hc, Bool.false_and], ?_⟩
      exact Expr.truth_of_rest (Expr.rest_of_inner (Expr.inner_conjoin_right _ (hinner σ hempty)))
    have hor := And.intro (c.spliced_isOr.trans (Bool.not_eq_true _ ▸ hcl))
      (d.spliced_isOr.trans (Bool.not_eq_true _ ▸ hdl))
    have hsafe : (c.isSafe && d.isSafe) = false := by simpa [isSafe, hcl, hdl] using hc
    obtain ⟨σ, h⟩ := exists_operation_ne Bool.and_comm exists_and_ne hvars
      ((Bool.and_eq_false_iff.1 hsafe).imp (ihc hvc) (ihd hvd))
    exact ⟨_, σ, rfl, by rw [spliced, Expr.truth_conjoin hor.1 hor.2, h, holds]⟩
  | or c b d ihc ihd =>
    obtain ⟨hvc, hvd, -⟩ := List.nodup_append'.1 hvars
    rw [isSafe, Bool.and_eq_false_iff] at hc
    obtain ⟨σ, h⟩ := exists_operation_ne Bool.or_comm exists_or_ne hvars
      (hc.imp (ihc hvc) (ihd hvd))
    exact ⟨_, σ, rfl, by rw [spliced, Expr.truth_chain_or, h, holds]⟩

end Condition

end GlideBridge.Script
