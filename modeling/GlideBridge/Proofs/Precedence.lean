import GlideBridge.Proofs.Callees
import Mathlib.Data.List.Basic
import Mathlib.Order.Nat

/-! Conditions of scripts, as a script reads them. A text is cut into tokens, the longest operator
that stands there first, and the tokens are put together by precedence: negation before the
comparisons, these before conjunction, and that before disjunction, each from left to right.
Reading the tokens of an expression whose operands bind as tightly as their places ask for gives
the expression back. -/

namespace GlideBridge.Script

inductive Operator where
  | or
  | and
  | same
  | differs
  deriving DecidableEq, Repr

namespace Operator

/-- The higher, the tighter the operator binds. -/
def level : Operator → ℕ
  | or => 1
  | and => 2
  | same | differs => 3

theorem level_lt (o : Operator) : o.level < 4 := by cases o <;> decide

end Operator

inductive Check where
  | nil
  | valid
  deriving DecidableEq, Repr

def Check.name : Check → Text
  | nil => ['g', 's', '.', 'n', 'i', 'l']
  | valid => ['g', 's', '.', 'i', 's', 'V', 'a', 'l', 'i', 'd']

def Check.ofName? (w : Text) : Option Check := [nil, valid].find? fun k => k.name = w

theorem Check.ofName?_name (k : Check) : Check.ofName? k.name = some k := by cases k <;> decide

inductive Token where
  | name (w : Text)
  | empty
  | not
  | operator (o : Operator)
  | opened
  | closed
  deriving DecidableEq, Repr

def symbols : List (Text × Token) :=
  [(['!', '=', '='], .operator .differs), (['=', '=', '='], .operator .same),
    (['&', '&'], .operator .and), (['|', '|'], .operator .or), (['"', '"'], .empty),
    (['!'], .not), (['('], .opened), ([')'], .closed)]

def isNameChar (c : Char) : Bool :=
  CharClass.isWord c || c == '$' || c == '.' || (127 < c.toNat && !Text.isBlank c)

def attach (c : Char) (joined : Bool) : List Token → List Token
  | .name w :: ts => if joined then .name (c :: w) :: ts else .name [c] :: .name w :: ts
  | ts => .name [c] :: ts

/-- The tokens behind the next `skip` characters, which belong to a symbol already taken. -/
def tokens? : ℕ → Text → Option (List Token)
  | _, [] => some []
  | skip + 1, _ :: t => tokens? skip t
  | 0, c :: t =>
    match symbols.find? fun s => s.1.isPrefixOf (c :: t) with
    | some s => (tokens? (s.1.length - 1) t).map (s.2 :: ·)
    | none =>
      if Text.isBlank c then tokens? 0 t
      else if isNameChar c then (tokens? 0 t).map (attach c (t.head?.any isNameChar))
      else none

inductive Expr where
  | name (w : Text)
  | empty
  | not (e : Expr)
  | binary (o : Operator) (l r : Expr)
  | group (e : Expr)
  | call (k : Check) (e : Expr)
  deriving DecidableEq, Repr

/-- What has been begun and waits for its last operand. -/
inductive Frame where
  | not
  | binary (o : Operator) (l : Expr)
  | group
  | call (k : Check)
  deriving DecidableEq, Repr

structure Reading where
  pending : List Frame := []
  operand : Option Expr := none
  deriving DecidableEq, Repr

/-- Ends what binds at least as tightly as `p`. -/
def reduce (p : ℕ) : List Frame → Expr → List Frame × Expr
  | .not :: s, e => reduce p s (.not e)
  | .binary o l :: s, e =>
    if p ≤ o.level then reduce p s (.binary o l e) else (.binary o l :: s, e)
  | s, e => (s, e)

namespace Reading

def start (s : List Frame) : Token → Option Reading
  | .name w => some ⟨s, some (.name w)⟩
  | .empty => some ⟨s, some .empty⟩
  | .not => some ⟨.not :: s, none⟩
  | .opened => some ⟨.group :: s, none⟩
  | .operator _ | .closed => none

def extend (s : List Frame) (e : Expr) : Token → Option Reading
  | .operator o =>
    let (s, e) := reduce o.level s e
    some ⟨.binary o e :: s, none⟩
  | .closed =>
    match reduce 0 s e with
    | (.group :: s, e) => some ⟨s, some (.group e)⟩
    | (.call k :: s, e) => some ⟨s, some (.call k e)⟩
    | _ => none
  | .opened =>
    match e with
    | .name w => (Check.ofName? w).map fun k => ⟨.call k :: s, none⟩
    | _ => none
  | .name _ | .empty | .not => none

def step (r : Reading) (k : Token) : Option Reading :=
  match r.operand with
  | none => start r.pending k
  | some e => extend r.pending e k

def finish (r : Reading) : Option Expr :=
  match r.operand.map (reduce 0 r.pending) with
  | some ([], e) => some e
  | _ => none

end Reading

def readTokens? (ts : List Token) : Option Expr := (ts.foldlM Reading.step {}).bind Reading.finish

def read? (t : Text) : Option Expr := (tokens? 0 t).bind readTokens?

example : read? ['!', 'a', '=', '=', '=', 'b', '|', '|', 'c', '&', '&', '!', '!', 'd'] =
    some (.binary .or (.binary .same (.not (.name ['a'])) (.name ['b']))
      (.binary .and (.name ['c']) (.not (.not (.name ['d']))))) := by decide +kernel

section Symbols

variable {t : Text}

theorem tokens?_skip (w t : Text) : tokens? w.length (w ++ t) = tokens? 0 t := by
  induction w with
  | nil => rfl
  | cons c w ih => exact ih

theorem tokens?_symbol {c : Char} {w : Text} {k : Token}
    (h : symbols.find? (fun s => s.1.isPrefixOf (c :: (w ++ t))) = some (c :: w, k)) :
    tokens? 0 (c :: (w ++ t)) = (tokens? 0 t).map (k :: ·) := by
  rw [tokens?, h]
  exact congrArg (Option.map (k :: ·)) (tokens?_skip w t)

theorem tokens?_and (t : Text) :
    tokens? 0 ('&' :: '&' :: t) = (tokens? 0 t).map (.operator .and :: ·) :=
  tokens?_symbol (w := ['&']) rfl

theorem tokens?_or (t : Text) :
    tokens? 0 ('|' :: '|' :: t) = (tokens? 0 t).map (.operator .or :: ·) :=
  tokens?_symbol (w := ['|']) rfl

theorem tokens?_same (t : Text) :
    tokens? 0 ('=' :: '=' :: '=' :: t) = (tokens? 0 t).map (.operator .same :: ·) :=
  tokens?_symbol (w := ['=', '=']) rfl

theorem tokens?_differs (t : Text) :
    tokens? 0 ('!' :: '=' :: '=' :: t) = (tokens? 0 t).map (.operator .differs :: ·) :=
  tokens?_symbol (w := ['=', '=']) rfl

theorem tokens?_empty (t : Text) : tokens? 0 ('"' :: '"' :: t) = (tokens? 0 t).map (.empty :: ·) :=
  tokens?_symbol (w := ['"']) rfl

theorem tokens?_opened (t : Text) : tokens? 0 ('(' :: t) = (tokens? 0 t).map (.opened :: ·) :=
  tokens?_symbol (w := []) rfl

theorem tokens?_closed (t : Text) : tokens? 0 (')' :: t) = (tokens? 0 t).map (.closed :: ·) :=
  tokens?_symbol (w := []) rfl

theorem tokens?_not (ht : t.head? ≠ some '=') :
    tokens? 0 ('!' :: t) = (tokens? 0 t).map (.not :: ·) := by
  refine tokens?_symbol (w := []) ?_
  cases t with
  | nil => rfl
  | cons c t =>
    have hc : c ≠ '=' := by simpa using ht
    simp [symbols, List.isPrefixOf, Ne.symm hc]

theorem find?_symbols {c : Char} (hc : c ∉ ['!', '=', '&', '|', '"', '(', ')']) (t : Text) :
    symbols.find? (fun s => s.1.isPrefixOf (c :: t)) = none := by
  simp only [List.mem_cons, List.not_mem_nil, or_false, not_or] at hc
  obtain ⟨hnot, hsame, hand, hor, hquote, hopen, hclose⟩ := hc
  simp [symbols, List.isPrefixOf, Ne.symm hnot, Ne.symm hsame, Ne.symm hand, Ne.symm hor,
    Ne.symm hquote, Ne.symm hopen, Ne.symm hclose]

theorem not_mem_of_class {p : Char → Bool} {c : Char} {w : Text} (hc : p c = true)
    (hw : w.any p = false) : c ∉ w := by
  intro hm
  rw [List.any_eq_false] at hw
  exact hw c hm hc

theorem tokens?_blank {b : Text} (hb : ∀ c ∈ b, Text.isBlank c = true) (t : Text) :
    tokens? 0 (b ++ t) = tokens? 0 t := by
  induction b with
  | nil => rfl
  | cons c b ih =>
    rw [List.forall_mem_cons] at hb
    have hnone := find?_symbols (not_mem_of_class hb.1 (by decide)) (b ++ t)
    rw [List.cons_append, tokens?, hnone, ← ih hb.2]
    simp [hb.1]

theorem not_blank_of_isNameChar {c : Char} (hc : isNameChar c = true) : Text.isBlank c = false := by
  simp only [isNameChar, Bool.or_eq_true, Bool.and_eq_true, Bool.not_eq_true', beq_iff_eq] at hc
  rcases hc with ((hc | rfl) | rfl) | hc
  · exact Text.isBlank_of_isWord hc
  · decide
  · decide
  · exact hc.2

theorem tokens?_name {w : Text} (hne : w ≠ []) (hw : ∀ c ∈ w, isNameChar c = true)
    (ht : ∀ c ∈ t.head?, isNameChar c = false) :
    tokens? 0 (w ++ t) = (tokens? 0 t).map (.name w :: ·) := by
  have hstep {c : Char} {u : Text} (hc : isNameChar c = true) :
      tokens? 0 (c :: u) = (tokens? 0 u).map (attach c (u.head?.any isNameChar)) := by
    have hnone := find?_symbols (not_mem_of_class hc (by decide)) u
    rw [tokens?, hnone]
    simp [not_blank_of_isNameChar hc, hc]
  induction w with
  | nil => exact absurd rfl hne
  | cons c w ih =>
    rw [List.forall_mem_cons] at hw
    rw [List.cons_append, hstep hw.1]
    cases w with
    | nil =>
      have hhead : t.head?.any isNameChar = false := by
        cases t with
        | nil => rfl
        | cons d t => exact ht d rfl
      rw [List.nil_append, hhead]
      congr 1
      funext ts
      cases ts with
      | nil => rfl
      | cons k ts => cases k <;> rfl
    | cons d w =>
      rw [ih (List.cons_ne_nil d w) hw.2, Option.map_map]
      congr 1
      funext ts
      simp [attach, (List.forall_mem_cons.1 hw.2).1]

end Symbols

namespace Expr

def tokens : Expr → List Token
  | name w => [.name w]
  | empty => [.empty]
  | not e => .not :: e.tokens
  | binary o l r => l.tokens ++ .operator o :: r.tokens
  | group e => .opened :: (e.tokens ++ [.closed])
  | call k e => .name k.name :: .opened :: (e.tokens ++ [.closed])

/-- The operands bind as tightly as their places ask for, and the whole at least as tightly as
`p`. -/
def Fits : Expr → ℕ → Prop
  | name _, _ | empty, _ => True
  | not e, _ => e.Fits 4
  | binary o l r, p => p ≤ o.level ∧ l.Fits o.level ∧ r.Fits (o.level + 1)
  | group e, _ | call _ e, _ => e.Fits 1

theorem Fits.mono {e : Expr} {p q : ℕ} (h : e.Fits q) (hpq : p ≤ q) : e.Fits p := by
  cases e with
  | binary o l r => exact ⟨hpq.trans h.1, h.2⟩
  | _ => exact h

end Expr

namespace Frame

def Below (p : ℕ) : Frame → Prop
  | not => 4 ≤ p
  | binary o _ => o.level < p
  | group | call _ => True

end Frame

theorem reduce_of_below {p : ℕ} (hp : p < 4) {s : List Frame} (hs : ∀ f ∈ s.head?, f.Below p)
    (e : Expr) : reduce p s e = (s, e) := by
  cases s with
  | nil => rfl
  | cons f s =>
    have hf := hs f rfl
    cases f with
    | not =>
      simp only [Frame.Below] at hf
      omega
    | binary o l =>
      simp only [Frame.Below] at hf
      rw [reduce, if_neg (by omega)]
    | group => rfl
    | call k => rfl

theorem Frame.Below.mono {f : Frame} {p q : ℕ} (h : f.Below p) (hpq : p ≤ q) : f.Below q := by
  cases f with
  | not => exact le_trans h hpq
  | binary o l => exact lt_of_lt_of_le h hpq
  | group => trivial
  | call k => trivial

namespace Reading

theorem foldlM_cons_of_step {r r' : Reading} {k : Token} (h : step r k = some r')
    (ts : List Token) : (k :: ts).foldlM step r = ts.foldlM step r' := by
  rw [List.foldlM_cons, h]
  rfl

theorem foldlM_append_of_foldlM {r r' : Reading} {ts : List Token}
    (h : ts.foldlM step r = some r') (us : List Token) :
    (ts ++ us).foldlM step r = us.foldlM step r' := by
  rw [List.foldlM_append, h]
  rfl

theorem foldlM_closed {r : Reading} {ts : List Token} {s s' : List Frame} {e' g : Expr}
    (hfold : ts.foldlM step r = some ⟨s', some e'⟩)
    (hclose : extend s' e' .closed = some ⟨s, some g⟩) :
    (ts ++ [Token.closed]).foldlM step r = some ⟨s, some g⟩ := by
  have hstep : step ⟨s', some e'⟩ .closed = some ⟨s, some g⟩ := hclose
  rw [foldlM_append_of_foldlM hfold, foldlM_cons_of_step hstep]
  rfl

theorem foldlM_tokens {e : Expr} {p : ℕ} (he : e.Fits p) (hp : p ≤ 4) {s : List Frame}
    (hs : ∀ f ∈ s.head?, f.Below p) :
    ∃ s' e', e.tokens.foldlM step ⟨s, none⟩ = some ⟨s', some e'⟩ ∧
      ∀ q ≤ p, reduce q s' e' = reduce q s e := by
  -- what is pending stays below the operand until an operator or a parenthesis ends it
  induction e generalizing p s with
  | name w => exact ⟨s, .name w, rfl, fun _ _ => rfl⟩
  | empty => exact ⟨s, .empty, rfl, fun _ _ => rfl⟩
  | not e ih =>
    obtain ⟨s', e', hfold, hreduce⟩ := ih he le_rfl (s := .not :: s) (by simp [Frame.Below])
    exact ⟨s', e', hfold, fun q hq => hreduce q (hq.trans hp)⟩
  | group e ih =>
    obtain ⟨s', e', hfold, hreduce⟩ :=
      ih he (by decide) (s := .group :: s) (by simp [Frame.Below])
    have hclose : reduce 0 s' e' = (.group :: s, e) := hreduce 0 (by decide)
    have hopen : step ⟨s, none⟩ .opened = some ⟨.group :: s, none⟩ := rfl
    refine ⟨s, .group e, ?_, fun _ _ => rfl⟩
    rw [Expr.tokens, foldlM_cons_of_step hopen]
    exact foldlM_closed hfold (by simp [extend, hclose])
  | call k e ih =>
    obtain ⟨s', e', hfold, hreduce⟩ :=
      ih he (by decide) (s := .call k :: s) (by simp [Frame.Below])
    have hclose : reduce 0 s' e' = (.call k :: s, e) := hreduce 0 (by decide)
    have hname : step ⟨s, none⟩ (.name k.name) = some ⟨s, some (.name k.name)⟩ := rfl
    have hopen : step ⟨s, some (.name k.name)⟩ .opened = some ⟨.call k :: s, none⟩ := by
      simp [step, extend, Check.ofName?_name]
    refine ⟨s, .call k e, ?_, fun _ _ => rfl⟩
    rw [Expr.tokens, foldlM_cons_of_step hname, foldlM_cons_of_step hopen]
    exact foldlM_closed hfold (by simp [extend, hclose])
  | binary o l r ihl ihr =>
    obtain ⟨hpo, hl, hr⟩ := he
    have hlevel := o.level_lt
    have hs' : ∀ f ∈ s.head?, f.Below o.level := fun f hf => (hs f hf).mono hpo
    obtain ⟨s₁, l', hfoldl, hreducel⟩ := ihl hl hlevel.le hs'
    have hleft : reduce o.level s₁ l' = (s, l) := by
      rw [hreducel o.level le_rfl, reduce_of_below hlevel hs']
    obtain ⟨s₂, r', hfoldr, hreducer⟩ :=
      ihr hr (by omega) (s := .binary o l :: s) (by simp [Frame.Below])
    refine ⟨s₂, r', ?_, fun q hq => ?_⟩
    · have hstep : step ⟨s₁, some l'⟩ (.operator o) = some ⟨.binary o l :: s, none⟩ := by
        simp [step, extend, hleft]
      rw [Expr.tokens, foldlM_append_of_foldlM hfoldl, foldlM_cons_of_step hstep, hfoldr]
    · rw [hreducer q (by omega), reduce, if_pos (hq.trans hpo)]

end Reading

theorem readTokens?_tokens {e : Expr} (he : e.Fits 1) : readTokens? e.tokens = some e := by
  obtain ⟨s, e', hfold, hreduce⟩ :=
    Reading.foldlM_tokens he (by decide) (s := []) (by simp)
  have hfinish : reduce 0 s e' = ([], e) := hreduce 0 (by decide)
  rw [readTokens?, hfold]
  simp [Reading.finish, hfinish]

theorem read?_of_tokens {t : Text} {e : Expr} (ht : tokens? 0 t = some e.tokens)
    (he : e.Fits 1) : read? t = some e := by
  rw [read?, ht]
  exact readTokens?_tokens he

end GlideBridge.Script
