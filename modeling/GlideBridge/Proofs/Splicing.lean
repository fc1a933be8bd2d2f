import GlideBridge.Proofs.Precedence

/-! What conditions come to, and what becomes of their reading when the tokens of one operand are
put in the place of another without parentheses around them. A negation then goes to the first
operand of what has been put in, and a conjunction takes the last and the first part of two
disjunctions together. -/

namespace GlideBridge.Script

inductive Content where
  | undefined
  | null
  | text (t : Text)
  deriving DecidableEq, Repr

def Content.isFilled : Content → Bool
  | undefined | null => false
  | text t => !t.isEmpty

inductive Value where
  | content (c : Content)
  | bool (b : Bool)
  deriving DecidableEq, Repr

def Value.truth : Value → Bool
  | content c => c.isFilled
  | bool b => b

def Check.holds : Check → Value → Bool
  | nil, v => !v.truth
  | valid, v => v.truth

/-- Disjunction and conjunction give one of their operands. -/
def Operator.combine : Operator → Value → Value → Value
  | or, a, b => if a.truth then a else b
  | and, a, b => if a.truth then b else a
  | same, a, b => .bool (decide (a = b))
  | differs, a, b => .bool (decide (a ≠ b))

def nullName : Text := ['n', 'u', 'l', 'l']

def undefinedName : Text := ['u', 'n', 'd', 'e', 'f', 'i', 'n', 'e', 'd']

namespace Expr

def value (σ : Text → Content) : Expr → Value
  | name w =>
    .content (if w = nullName then .null else if w = undefinedName then .undefined else σ w)
  | empty => .content (.text [])
  | not e => .bool !(e.value σ).truth
  | binary o l r => o.combine (l.value σ) (r.value σ)
  | group e => e.value σ
  | call k e => .bool (k.holds (e.value σ))

def truth (σ : Text → Content) (e : Expr) : Bool := (e.value σ).truth

end Expr

def truth? (σ : Text → Content) (t : Text) : Option Bool := (read? t).map (Expr.truth σ)

namespace Expr

variable {σ : Text → Content}

theorem truth_not (e : Expr) : (Expr.not e).truth σ = !e.truth σ := rfl

theorem truth_or (l r : Expr) : (binary .or l r).truth σ = (l.truth σ || r.truth σ) := by
  cases h : (l.value σ).truth <;> simp [truth, value, Operator.combine, h]

theorem truth_and (l r : Expr) : (binary .and l r).truth σ = (l.truth σ && r.truth σ) := by
  cases h : (l.value σ).truth <;> simp [truth, value, Operator.combine, h]

/-- The expression with a negation in front of its tokens. -/
def negate : Expr → Expr
  | binary o l r => binary o (negate l) r
  | e => not e

/-- The expression with the tokens of the operands on both sides of the operator, when nothing in
them binds less tightly than it. -/
def chain (o : Operator) (l : Expr) : Expr → Expr
  | binary o' r s => if o' = o then binary o (chain o l r) s else binary o l (binary o' r s)
  | r => binary o l r

def conjoinLast : Expr → Expr → Expr
  | binary .or l m, r => binary .or l (chain .and m r)
  | l, r => chain .and l r

def conjoin (l : Expr) : Expr → Expr
  | binary .or r s => binary .or (conjoin l r) s
  | r => conjoinLast l r

theorem negate_tokens (e : Expr) : e.negate.tokens = .not :: e.tokens := by
  induction e with
  | binary o l r ihl _ => rw [negate, tokens, ihl, tokens, List.cons_append]
  | _ => rfl

theorem chain_tokens (o : Operator) (l r : Expr) :
    (chain o l r).tokens = l.tokens ++ .operator o :: r.tokens := by
  induction r with
  | binary o' r s ih _ =>
    rw [chain]
    split
    · next h => simp [tokens, ih, h]
    · rfl
  | _ => rfl

theorem conjoinLast_tokens (l r : Expr) :
    (conjoinLast l r).tokens = l.tokens ++ .operator .and :: r.tokens := by
  unfold conjoinLast
  split
  · simp [tokens, chain_tokens]
  · exact chain_tokens .and l r

theorem conjoin_tokens (l r : Expr) :
    (conjoin l r).tokens = l.tokens ++ .operator .and :: r.tokens := by
  induction r with
  | binary o r s ih _ =>
    cases o with
    | or => simp [conjoin, tokens, ih]
    | _ => exact conjoinLast_tokens l _
  | _ => exact conjoinLast_tokens l _

theorem fits_negate {e : Expr} {p : ℕ} (h : e.Fits p) : e.negate.Fits p := by
  induction e generalizing p with
  | binary o l r ihl _ => exact ⟨h.1, ihl h.2.1, h.2.2⟩
  | _ => exact h

theorem fits_chain {o : Operator} (ho : o.level ≤ 2) {l r : Expr} (hl : l.Fits o.level)
    (hr : r.Fits o.level) : (chain o l r).Fits o.level := by
  induction r with
  | binary o' r s ih _ =>
    rw [chain]
    split
    · next h =>
      subst h
      exact ⟨le_rfl, ih hr.2.1, hr.2.2⟩
    · next h =>
      -- operators of one level below the comparisons are the same
      have hlt : o.level + 1 ≤ o'.level := by
        have hle := hr.1
        cases o <;> cases o' <;> simp_all [Operator.level]
      exact ⟨le_rfl, hl, hlt, hr.2⟩
  | _ => exact ⟨le_rfl, hl, hr⟩

theorem fits_conjoinLast {l r : Expr} (hl : l.Fits 1) (hr : r.Fits 2) :
    (conjoinLast l r).Fits 1 := by
  unfold conjoinLast
  split
  · exact ⟨le_rfl, hl.2.1, fits_chain (o := .and) le_rfl hl.2.2 hr⟩
  · next h =>
    have hl2 : l.Fits 2 := by
      cases l with
      | binary o l m =>
        refine ⟨?_, hl.2⟩
        cases o with
        | or => exact absurd rfl (h l m)
        | _ => decide
      | _ => exact hl
    exact (fits_chain (o := .and) le_rfl hl2 hr).mono (by decide)

theorem fits_conjoin {l r : Expr} (hl : l.Fits 1) (hr : r.Fits 1) : (conjoin l r).Fits 1 := by
  induction r with
  | binary o r s ih _ =>
    cases o with
    | or => exact ⟨le_rfl, ih hr.2.1, hr.2.2⟩
    | _ => exact fits_conjoinLast hl ⟨by decide, hr.2⟩
  | _ => exact fits_conjoinLast hl hr

theorem truth_chain_or (l r : Expr) : (chain .or l r).truth σ = (l.truth σ || r.truth σ) := by
  induction r with
  | binary o r s ih _ =>
    rw [chain]
    split
    · next h => rw [h, truth_or, ih, truth_or, Bool.or_assoc]
    · exact truth_or l _
  | _ => exact truth_or l _

theorem truth_chain_and (l r : Expr) : (chain .and l r).truth σ = (l.truth σ && r.truth σ) := by
  induction r with
  | binary o r s ih _ =>
    rw [chain]
    split
    · next h => rw [h, truth_and, ih, truth_and, Bool.and_assoc]
    · exact truth_and l _
  | _ => exact truth_and l _

def isBinary : Expr → Bool
  | binary .. => true
  | _ => false

def isOr : Expr → Bool
  | binary .or .. => true
  | _ => false

theorem negate_of_not_isBinary {e : Expr} (h : e.isBinary = false) : e.negate = .not e := by
  cases e with
  | binary => cases h
  | _ => rfl

theorem truth_conjoin {l r : Expr} (hl : l.isOr = false) (hr : r.isOr = false) :
    (conjoin l r).truth σ = (l.truth σ && r.truth σ) := by
  have hlast : conjoin l r = conjoinLast l r := by
    unfold conjoin
    split
    · cases hr
    · rfl
  have hchain : conjoinLast l r = chain .and l r := by
    unfold conjoinLast
    split
    · cases hl
    · rfl
  rw [hlast, hchain, truth_chain_and]

theorem negate_isBinary (e : Expr) : e.negate.isBinary = e.isBinary := by cases e <;> rfl

theorem negate_isOr (e : Expr) : e.negate.isOr = e.isOr := by
  cases e with
  | binary o l r => cases o <;> rfl
  | _ => rfl

theorem exists_chain_eq (o : Operator) (l r : Expr) : ∃ l' r', chain o l r = binary o l' r' := by
  cases r with
  | binary o' r s =>
    rw [chain]
    split
    · exact ⟨chain o l r, s, rfl⟩
    · exact ⟨l, binary o' r s, rfl⟩
  | _ => exact ⟨l, _, rfl⟩

theorem chain_isBinary (o : Operator) (l r : Expr) : (chain o l r).isBinary = true := by
  obtain ⟨l', r', h⟩ := exists_chain_eq o l r
  rw [h]
  rfl

theorem chain_or_isOr (l r : Expr) : (chain .or l r).isOr = true := by
  obtain ⟨l', r', h⟩ := exists_chain_eq .or l r
  rw [h]
  rfl

theorem chain_and_isOr (l r : Expr) : (chain .and l r).isOr = false := by
  obtain ⟨l', r', h⟩ := exists_chain_eq .and l r
  rw [h]
  rfl

theorem conjoin_isBinary (l r : Expr) : (conjoin l r).isBinary = true := by
  have hlast : (conjoinLast l r).isBinary = true := by
    unfold conjoinLast
    split
    · rfl
    · exact chain_isBinary .and l r
  unfold conjoin
  split
  · rfl
  · exact hlast

theorem conjoin_isOr (l r : Expr) : (conjoin l r).isOr = (l.isOr || r.isOr) := by
  have isOr_of_ne {e : Expr} (h : ∀ l r, e ≠ binary .or l r) : e.isOr = false := by
    unfold isOr
    split
    · next l r => exact absurd rfl (h l r)
    · rfl
  have hlast : (conjoinLast l r).isOr = l.isOr := by
    unfold conjoinLast
    split
    · rfl
    · next h => rw [chain_and_isOr, isOr_of_ne h]
  unfold conjoin
  split
  · exact (Bool.or_true _).symm
  · next h => rw [hlast, isOr_of_ne h, Bool.or_false]

end Expr

end GlideBridge.Script
