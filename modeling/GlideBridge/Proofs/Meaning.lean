import GlideBridge.Proofs.Conditions

/-! What conditions come to once their checks are written out. The meaning stays where no check is
negated, but an even number of times, and no check for emptiness is an operand of a conjunction,
unless it is in parentheses of its own. -/

namespace GlideBridge.Script

variable {σ : Text → Content} {l : Level}

namespace Condition

def holds (σ : Text → Content) {l : Level} : Condition l → Bool
  | check k w _ => k.holds (.content (σ w.text))
  | not _ c => !c.holds σ
  | group _ c _ | one c | all c => c.holds σ
  | and c _ d => c.holds σ && d.holds σ
  | or c _ d => c.holds σ || d.holds σ

def vars {l : Level} : Condition l → List Text
  | check _ w _ => [w.text]
  | not _ c | group _ c _ | one c | all c => c.vars
  | and c _ d => c.vars ++ d.vars
  | or c _ d => c.vars ++ d.vars

def isOpen {l : Level} : Condition l → Bool
  | check .. | and .. | or .. => true
  | not _ c | one c | all c => c.isOpen
  | group .. => false

/-- Not in parentheses, and a disjunction once the checks are written out. -/
def isLoose {l : Level} : Condition l → Bool
  | check k .. => k == .nil
  | not _ c | one c | all c => c.isLoose
  | group .. => false
  | and c _ d => c.isLoose || d.isLoose
  | or .. => true

/-- Only parentheses and pairs of negations stand between a negation and a check, and no operand of
a conjunction becomes a disjunction. -/
def isSafe {l : Level} : Condition l → Bool
  | check .. => true
  | not _ c => if c.isOpen then !c.isSafe else c.isSafe
  | group _ c _ | one c | all c => c.isSafe
  | and c _ d => c.isSafe && d.isSafe && !c.isLoose && !d.isLoose
  | or c _ d => c.isSafe && d.isSafe

end Condition

theorem Constant.value_expr (c : Constant) : c.expr.value σ = .content c.content := by
  cases c <;> rfl

theorem Variable.value_name (w : Variable) :
    (Expr.name w.text).value σ = .content (σ w.text) := by
  rw [Expr.value, if_neg w.not_null, if_neg w.not_undefined]

namespace Check

theorem truth_compare_nil (w : Variable) (e : Expr) :
    (nil.compare w e constants).truth σ = (e.truth σ || nil.holds (.content (σ w.text))) := by
  have hsame (c : Constant) : (Expr.binary .same (.name w.text) c.expr).truth σ =
      decide (σ w.text = c.content) := by
    rw [Expr.truth, Expr.value, w.value_name, c.value_expr]
    simp [Operator.combine, Value.truth]
  simp only [compare, constants, List.foldl_cons, List.foldl_nil, joint, relation,
    Expr.truth_or, hsame, Bool.or_assoc]
  congr 1
  cases σ w.text with
  | text t => cases t <;> rfl
  | _ => rfl

theorem truth_compare_valid (w : Variable) (e : Expr) :
    (valid.compare w e constants).truth σ = (e.truth σ && valid.holds (.content (σ w.text))) := by
  have hdiffers (c : Constant) : (Expr.binary .differs (.name w.text) c.expr).truth σ =
      decide (σ w.text ≠ c.content) := by
    rw [Expr.truth, Expr.value, w.value_name, c.value_expr]
    simp [Operator.combine, Value.truth]
  simp only [compare, constants, List.foldl_cons, List.foldl_nil, joint, relation,
    Expr.truth_and, hdiffers, Bool.and_assoc]
  congr 1
  cases σ w.text with
  | text t => cases t <;> rfl
  | _ => rfl

theorem negate_compare (k : Check) (w : Variable) (e : Expr) (cs : List Constant) :
    (k.compare w e cs).negate = k.compare w e.negate cs := by
  induction cs generalizing e with
  | nil => rfl
  | cons c cs ih => exact ih _

def lead (k : Check) (w : Variable) : Expr :=
  match k with
  | nil => .not (.name w.text)
  | valid => .name w.text

theorem expanded_eq (k : Check) (w : Variable) :
    k.expanded w = k.compare w (k.lead w) constants := by cases k <;> rfl

theorem truth_lead (k : Check) (w : Variable) :
    (k.lead w).truth σ = k.holds (.content (σ w.text)) := by
  cases k with
  | nil => rw [lead, Expr.truth, Expr.value, w.value_name]; rfl
  | valid => rw [lead, Expr.truth, w.value_name]; rfl

end Check

namespace Condition

theorem truth_expr (c : Condition l) : c.expr.truth σ = c.holds σ := by
  induction c with
  | check k w b =>
    rw [expr, holds, Expr.truth, Expr.value, w.value_name]
    rfl
  | not b c ih => rw [expr, Expr.truth_not, ih, holds]
  | group b c b' ih | one c ih | all c ih => exact ih
  | and c b d ihc ihd => rw [expr, Expr.truth_and, ihc, ihd, holds]
  | or c b d ihc ihd => rw [expr, Expr.truth_or, ihc, ihd, holds]

theorem spliced_isBinary (c : Condition l) : c.spliced.isBinary = c.isOpen := by
  induction c with
  | check k w b => cases k <;> rfl
  | not b c ih => rw [spliced, Expr.negate_isBinary, ih, isOpen]
  | group b c b' _ => rfl
  | one c ih | all c ih => exact ih
  | and c b d _ _ => exact Expr.conjoin_isBinary c.spliced d.spliced
  | or c b d _ _ => exact Expr.chain_isBinary .or c.spliced d.spliced

theorem spliced_isOr (c : Condition l) : c.spliced.isOr = c.isLoose := by
  induction c with
  | check k w b => cases k <;> rfl
  | not b c ih => rw [spliced, Expr.negate_isOr, ih, isLoose]
  | group b c b' _ => rfl
  | one c ih | all c ih => exact ih
  | and c b d ihc ihd => rw [spliced, Expr.conjoin_isOr, ihc, ihd, isLoose]
  | or c b d _ _ => exact Expr.chain_or_isOr c.spliced d.spliced

theorem exists_compare_of_isOpen (c : Condition l) (hl : l = .unary) (hc : c.isOpen = true) :
    ∃ (k : Check) (w : Variable) (e : Expr), e.isBinary = false ∧
      c.spliced = k.compare w e constants ∧ ∀ σ, e.truth σ = c.holds σ ∧
        c.holds σ = (k.holds (.content (σ w.text)) == c.isSafe) := by
  induction c with
  | check k w b =>
    refine ⟨k, w, k.lead w, by cases k <;> rfl, k.expanded_eq w, fun σ => ⟨k.truth_lead w, ?_⟩⟩
    rw [holds, isSafe, beq_true]
  | not b c ih =>
    obtain ⟨k, w, e, he, hspliced, hholds⟩ := ih hl hc
    have hsafe : (not b c).isSafe = !c.isSafe := if_pos hc
    refine ⟨k, w, .not e, rfl, ?_, fun σ => ⟨?_, ?_⟩⟩
    · rw [spliced, hspliced, k.negate_compare, Expr.negate_of_not_isBinary he]
    · rw [Expr.truth_not, (hholds σ).1, holds]
    · rw [holds, (hholds σ).2, hsafe]
      cases k.holds (.content (σ w.text)) <;> cases c.isSafe <;> rfl
  | group b c b' _ => cases hc
  | one | all | and | or => cases hl

theorem truth_of_isOpen (c : Condition .unary) (hc : c.isOpen = true) :
    ∃ (k : Check) (w : Variable), ∀ σ,
      c.holds σ = (k.holds (.content (σ w.text)) == c.isSafe) ∧
      c.spliced.truth σ = if c.isSafe then c.holds σ else k == .nil := by
  obtain ⟨k, w, e, -, hspliced, hholds⟩ := c.exists_compare_of_isOpen rfl hc
  refine ⟨k, w, fun σ => ⟨(hholds σ).2, ?_⟩⟩
  obtain ⟨he, hc⟩ := hholds σ
  cases k with
  | nil =>
    rw [hspliced, Check.truth_compare_nil, he, hc]
    cases Check.nil.holds (.content (σ w.text)) <;> cases c.isSafe <;> rfl
  | valid =>
    rw [hspliced, Check.truth_compare_valid, he, hc]
    cases Check.valid.holds (.content (σ w.text)) <;> cases c.isSafe <;> rfl

theorem truth_spliced (c : Condition l) (hc : c.isSafe = true) :
    c.spliced.truth σ = c.holds σ := by
  induction c with
  | check k w b =>
    obtain ⟨k', w', h⟩ := (check k w b).truth_of_isOpen rfl
    exact (h σ).2
  | not b c ih =>
    by_cases hopen : c.isOpen = true
    · obtain ⟨k, w, h⟩ := (not b c).truth_of_isOpen hopen
      rw [(h σ).2, if_pos hc]
    · have hsafe : c.isSafe = true := (if_neg hopen).symm.trans hc
      have hbinary := c.spliced_isBinary.trans (Bool.not_eq_true _ ▸ hopen)
      rw [spliced, Expr.negate_of_not_isBinary hbinary, Expr.truth_not, ih hsafe, holds]
  | group b c b' ih | one c ih | all c ih => exact ih hc
  | and c b d ihc ihd =>
    simp only [isSafe, Bool.and_eq_true, Bool.not_eq_true'] at hc
    have hor := And.intro (c.spliced_isOr.trans hc.1.2) (d.spliced_isOr.trans hc.2)
    rw [spliced, Expr.truth_conjoin hor.1 hor.2, ihc hc.1.1.1, ihd hc.1.1.2, holds]
  | or c b d ihc ihd =>
    rw [isSafe, Bool.and_eq_true] at hc
    rw [spliced, Expr.truth_chain_or, ihc hc.1, ihd hc.2, holds]

end Condition

end GlideBridge.Script
