import GlideBridge.Proofs.Splicing
import GlideBridge.Proofs.Wrapping

/-! Conditions made of the two checks, how they are written, and how they are read. Where the checks
are written out as chains of comparisons, without parentheses around them, the reading has the
chains spliced into their surroundings. -/

namespace GlideBridge.Script

open Text

structure Variable where
  text : Text
  ne_nil : text ≠ []
  chars : ∀ c ∈ text, isNameChar c = true
  dot_not_mem : '.' ∉ text
  not_null : text ≠ nullName
  not_undefined : text ≠ undefinedName

inductive Level where
  | unary
  | conjunction
  | disjunction
  deriving DecidableEq

/-- Conditions as they are written, each token with the blanks behind it. -/
inductive Condition : Level → Type
  | check (k : Check) (w : Variable) (behind : Blanks) : Condition .unary
  | not (behind : Blanks) (c : Condition .unary) : Condition .unary
  | group (inside : Blanks) (c : Condition .disjunction) (behind : Blanks) : Condition .unary
  | one (c : Condition .unary) : Condition .conjunction
  | and (c : Condition .conjunction) (behind : Blanks) (d : Condition .unary) :
      Condition .conjunction
  | all (c : Condition .conjunction) : Condition .disjunction
  | or (c : Condition .disjunction) (behind : Blanks) (d : Condition .conjunction) :
      Condition .disjunction

namespace Condition

variable {l : Level}

def write (f : Check → Variable → Text) {l : Level} : Condition l → Text
  | check k w b => f k w ++ b.text
  | not b c => '!' :: (b.text ++ c.write f)
  | group b c b' => '(' :: (b.text ++ (c.write f ++ ')' :: b'.text))
  | one c | all c => c.write f
  | and c b d => c.write f ++ '&' :: '&' :: (b.text ++ d.write f)
  | or c b d => c.write f ++ '|' :: '|' :: (b.text ++ d.write f)

def tokens (g : Check → Variable → Expr) {l : Level} : Condition l → List Token
  | check k w _ => (g k w).tokens
  | not _ c => .not :: c.tokens g
  | group _ c _ => .opened :: (c.tokens g ++ [.closed])
  | one c | all c => c.tokens g
  | and c _ d => c.tokens g ++ .operator .and :: d.tokens g
  | or c _ d => c.tokens g ++ .operator .or :: d.tokens g

end Condition

namespace Check

def opening (k : Check) : Text := k.name ++ ['(']

def source (k : Check) (w : Variable) : Text := k.opening ++ (w.text ++ [')'])

def joint : Check → Operator
  | nil => .or
  | valid => .and

def relation : Check → Operator
  | nil => .same
  | valid => .differs

end Check

inductive Constant where
  | empty
  | null
  | undefined

namespace Constant

def text : Constant → Text
  | empty => ['"', '"']
  | null => nullName
  | undefined => undefinedName

def expr : Constant → Expr
  | empty => .empty
  | null => .name nullName
  | undefined => .name undefinedName

def content : Constant → Content
  | empty => .text []
  | null => .null
  | undefined => .undefined

end Constant

def constants : List Constant := [.empty, .null, .undefined]

namespace Operator

def text : Operator → Text
  | or => ['|', '|']
  | and => ['&', '&']
  | same => ['=', '=', '=']
  | differs => ['!', '=', '=']

def spaced (o : Operator) : Text := ' ' :: (o.text ++ [' '])

end Operator

namespace Check

def comparisons (k : Check) (w : Variable) (cs : List Constant) : Text :=
  cs.flatMap fun c => k.joint.spaced ++ (w.text ++ (k.relation.spaced ++ c.text))

def expansion (k : Check) (w : Variable) : Text :=
  match k with
  | nil => '!' :: (w.text ++ nil.comparisons w constants)
  | valid => w.text ++ valid.comparisons w constants

def compare (k : Check) (w : Variable) (e : Expr) (cs : List Constant) : Expr :=
  cs.foldl (fun e c => .binary k.joint e (.binary k.relation (.name w.text) c.expr)) e

def expanded (k : Check) (w : Variable) : Expr :=
  match k with
  | nil => nil.compare w (.not (.name w.text)) constants
  | valid => valid.compare w (.name w.text) constants

end Check

def Apart (t : Text) : Prop := ∀ c ∈ t.head?, isNameChar c = false

theorem apart_nil : Apart [] := by simp [Apart]

theorem apart_cons {c : Char} (hc : isNameChar c = false) (t : Text) : Apart (c :: t) := by
  simpa [Apart] using hc

theorem Variable.head_append_ne (w : Variable) {d : Char} (hd : isNameChar d = false) (t : Text) :
    (w.text ++ t).head? ≠ some d := by
  have hne := w.ne_nil
  have hchars := w.chars
  generalize w.text = v at hne hchars
  cases v with
  | nil => exact absurd rfl hne
  | cons c v =>
    intro h
    obtain rfl : c = d := by simpa using h
    rw [hchars c List.mem_cons_self] at hd
    cases hd

theorem Apart.blanks {t : Text} (ht : Apart t) (b : Blanks) : Apart (b.text ++ t) := by
  refine b.forall_head_append (fun c hc => ?_) ht
  rw [← Bool.not_eq_true]
  intro hname
  rw [not_blank_of_isNameChar hname] at hc
  cases hc

section Lexing

variable {t : Text}

theorem tokens?_spaced (o : Operator) (t : Text) :
    tokens? 0 (o.spaced ++ t) = (tokens? 0 t).map (.operator o :: ·) := by
  have hblank : ∀ c ∈ [' '], isBlank c = true := by decide
  have hsplit : o.spaced ++ t = [' '] ++ (o.text ++ ([' '] ++ t)) := by simp [Operator.spaced]
  rw [hsplit, tokens?_blank hblank, ← tokens?_blank hblank t]
  cases o with
  | or => exact tokens?_or _
  | and => exact tokens?_and _
  | same => exact tokens?_same _
  | differs => exact tokens?_differs _

theorem tokens?_constant (c : Constant) (ht : Apart t) :
    tokens? 0 (c.text ++ t) = (tokens? 0 t).map (c.expr.tokens ++ ·) := by
  cases c with
  | empty => exact tokens?_empty t
  | null => exact tokens?_name (by decide) (by decide) ht
  | undefined => exact tokens?_name (by decide) (by decide) ht

theorem apart_spaced (o : Operator) (t : Text) : Apart (o.spaced ++ t) :=
  apart_cons (c := ' ') (by decide) _

namespace Check

theorem tokens?_source (k : Check) (w : Variable) (t : Text) :
    tokens? 0 (k.source w ++ t) =
      (tokens? 0 t).map ((Expr.call k (.name w.text)).tokens ++ ·) := by
  have hname : k.name ≠ [] ∧ ∀ c ∈ k.name, isNameChar c = true := by cases k <;> decide
  have hopen (u : Text) : Apart ('(' :: u) := apart_cons (by decide) u
  have hclose : Apart (')' :: t) := apart_cons (by decide) t
  have hsplit : k.source w ++ t = k.name ++ '(' :: (w.text ++ ')' :: t) := by
    simp [source, opening]
  rw [hsplit, tokens?_name hname.1 hname.2 (hopen _), tokens?_opened,
    tokens?_name w.ne_nil w.chars hclose, tokens?_closed]
  simp [Expr.tokens, Function.comp_def]

theorem compare_tokens (k : Check) (w : Variable) (e : Expr) (cs : List Constant) :
    (k.compare w e cs).tokens = e.tokens ++ cs.flatMap fun c =>
      .operator k.joint :: .name w.text :: .operator k.relation :: c.expr.tokens := by
  induction cs generalizing e with
  | nil => simp [compare]
  | cons c cs ih =>
    have hstep : k.compare w e (c :: cs) =
      k.compare w (.binary k.joint e (.binary k.relation (.name w.text) c.expr)) cs := rfl
    rw [hstep, ih]
    simp [Expr.tokens]

theorem apart_comparisons (k : Check) (w : Variable) (cs : List Constant) (ht : Apart t) :
    Apart (k.comparisons w cs ++ t) := by
  cases cs with
  | nil => exact ht
  | cons c cs => exact apart_cons (c := ' ') (by decide) _

theorem tokens?_comparisons (k : Check) (w : Variable) (cs : List Constant) (ht : Apart t) :
    tokens? 0 (k.comparisons w cs ++ t) = (tokens? 0 t).map ((cs.flatMap fun c =>
      .operator k.joint :: .name w.text :: .operator k.relation :: c.expr.tokens) ++ ·) := by
  induction cs with
  | nil => simp [comparisons]
  | cons c cs ih =>
    have hsplit : k.comparisons w (c :: cs) ++ t = k.joint.spaced ++ (w.text ++
        (k.relation.spaced ++ (c.text ++ (k.comparisons w cs ++ t)))) := by
      simp [comparisons]
    rw [hsplit, tokens?_spaced, tokens?_name w.ne_nil w.chars (apart_spaced _ _), tokens?_spaced,
      tokens?_constant c (k.apart_comparisons w cs ht), ih]
    simp [Function.comp_def]

theorem compare_fits (k : Check) (w : Variable) {e : Expr} (he : e.Fits k.joint.level)
    (cs : List Constant) : (k.compare w e cs).Fits k.joint.level := by
  have hrelation : k.joint.level + 1 ≤ k.relation.level := by cases k <;> decide
  have hconstant (c : Constant) (p : ℕ) : c.expr.Fits p := by cases c <;> trivial
  induction cs generalizing e with
  | nil => exact he
  | cons c cs ih => exact ih ⟨le_rfl, he, hrelation, trivial, hconstant c _⟩

theorem expanded_fits (k : Check) (w : Variable) : (k.expanded w).Fits 1 := by
  cases k with
  | nil => exact compare_fits nil w (e := .not (.name w.text)) trivial constants
  | valid =>
    exact (compare_fits valid w (e := .name w.text) trivial constants).mono (by decide)

theorem tokens?_expansion (k : Check) (w : Variable) (ht : Apart t) :
    tokens? 0 (k.expansion w ++ t) = (tokens? 0 t).map ((k.expanded w).tokens ++ ·) := by
  have hname := tokens?_name w.ne_nil w.chars (k.apart_comparisons w constants ht)
  cases k with
  | nil =>
    have hhead (u : Text) : (w.text ++ u).head? ≠ some '=' := w.head_append_ne (by decide) u
    rw [expansion, List.cons_append, List.append_assoc, tokens?_not (hhead _), hname,
      tokens?_comparisons nil w constants ht, expanded, compare_tokens]
    simp [Expr.tokens, Function.comp_def]
  | valid =>
    rw [expansion, List.append_assoc, hname, tokens?_comparisons valid w constants ht,
      expanded, compare_tokens]
    simp [Expr.tokens, Function.comp_def]

theorem head_source_ne (k : Check) (w : Variable) (t : Text) :
    (k.source w ++ t).head? ≠ some '=' := by
  cases k <;> simp [source, opening, name]

theorem head_expansion_ne (k : Check) (w : Variable) (t : Text) :
    (k.expansion w ++ t).head? ≠ some '=' := by
  cases k with
  | nil => simp [expansion]
  | valid =>
    rw [expansion, List.append_assoc]
    exact w.head_append_ne (by decide) _

end Check

namespace Condition

variable {f : Check → Variable → Text} {g : Check → Variable → Expr} {l : Level}

theorem head_write_ne (hhead : ∀ k w t, (f k w ++ t).head? ≠ some '=') (c : Condition l)
    (t : Text) :
    (c.write f ++ t).head? ≠ some '=' := by
  induction c generalizing t with
  | check k w b => simpa [write] using hhead k w (b.text ++ t)
  | not b c _ | group b c b' _ => simp [write]
  | one c ih | all c ih => exact ih t
  | and c b d ih _ | or c b d ih _ =>
    rw [write, List.append_assoc]
    exact ih _

theorem tokens?_write (hhead : ∀ k w t, (f k w ++ t).head? ≠ some '=')
    (hf : ∀ k w t, Apart t → tokens? 0 (f k w ++ t) = (tokens? 0 t).map ((g k w).tokens ++ ·))
    (c : Condition l) (ht : Apart t) :
    tokens? 0 (c.write f ++ t) = (tokens? 0 t).map (c.tokens g ++ ·) := by
  induction c generalizing t with
  | check k w b =>
    rw [write, List.append_assoc, hf k w _ (ht.blanks b), tokens?_blank b.blank, tokens]
  | not b c ih =>
    -- the negation is not taken for the beginning of a comparison
    have hne : (b.text ++ (c.write f ++ t)).head? ≠ some '=' := by
      have hhead := b.forall_head_append (P := (· ≠ '=')) (fun d hd h => by cases h; cases hd)
        fun d hd h => c.head_write_ne hhead t (h ▸ hd)
      exact fun h => hhead '=' h rfl
    rw [write, List.cons_append, List.append_assoc, tokens?_not hne, tokens?_blank b.blank, ih ht]
    simp [tokens, Function.comp_def]
  | group b c b' ih =>
    have hclose : Apart (')' :: (b'.text ++ t)) := apart_cons (by decide) _
    have hsplit : '(' :: (b.text ++ (c.write f ++ ')' :: b'.text)) ++ t =
      '(' :: (b.text ++ (c.write f ++ ')' :: (b'.text ++ t))) := by simp
    rw [write, hsplit, tokens?_opened, tokens?_blank b.blank, ih hclose, tokens?_closed,
      tokens?_blank b'.blank]
    simp [tokens, Function.comp_def]
  | one c ih | all c ih => exact ih ht
  | and c b d ihc ihd =>
    have hjoint (u : Text) : Apart ('&' :: u) := apart_cons (by decide) u
    have hsplit : (c.write f ++ '&' :: '&' :: (b.text ++ d.write f)) ++ t =
      c.write f ++ '&' :: '&' :: (b.text ++ (d.write f ++ t)) := by simp
    rw [write, hsplit, ihc (hjoint _), tokens?_and, tokens?_blank b.blank, ihd ht]
    simp [tokens, Function.comp_def]
  | or c b d ihc ihd =>
    have hjoint (u : Text) : Apart ('|' :: u) := apart_cons (by decide) u
    have hsplit : (c.write f ++ '|' :: '|' :: (b.text ++ d.write f)) ++ t =
      c.write f ++ '|' :: '|' :: (b.text ++ (d.write f ++ t)) := by simp
    rw [write, hsplit, ihc (hjoint _), tokens?_or, tokens?_blank b.blank, ihd ht]
    simp [tokens, Function.comp_def]

end Condition

end Lexing

def Level.bound : Level → ℕ
  | .unary => 4
  | .conjunction => 2
  | .disjunction => 1

namespace Condition

variable {l : Level}

def expr {l : Level} : Condition l → Expr
  | check k w _ => .call k (.name w.text)
  | not _ c => .not c.expr
  | group _ c _ => .group c.expr
  | one c | all c => c.expr
  | and c _ d => .binary .and c.expr d.expr
  | or c _ d => .binary .or c.expr d.expr

/-- The expression when the checks are written out without parentheses. -/
def spliced {l : Level} : Condition l → Expr
  | check k w _ => k.expanded w
  | not _ c => c.spliced.negate
  | group _ c _ => .group c.spliced
  | one c | all c => c.spliced
  | and c _ d => c.spliced.conjoin d.spliced
  | or c _ d => .chain .or c.spliced d.spliced

theorem expr_tokens (c : Condition l) :
    c.expr.tokens = c.tokens fun k w => .call k (.name w.text) := by
  induction c with
  | check k w b => rfl
  | not b c ih | group b c b' ih => simp [expr, Expr.tokens, tokens, ih]
  | one c ih | all c ih => exact ih
  | and c b d ihc ihd | or c b d ihc ihd => simp [expr, Expr.tokens, tokens, ihc, ihd]

theorem spliced_tokens (c : Condition l) : c.spliced.tokens = c.tokens Check.expanded := by
  induction c with
  | check k w b => rfl
  | not b c ih => rw [spliced, Expr.negate_tokens, ih, tokens]
  | group b c b' ih => simp [spliced, Expr.tokens, tokens, ih]
  | one c ih | all c ih => exact ih
  | and c b d ihc ihd => rw [spliced, Expr.conjoin_tokens, ihc, ihd, tokens]
  | or c b d ihc ihd => rw [spliced, Expr.chain_tokens, ihc, ihd, tokens]

theorem expr_fits (c : Condition l) : c.expr.Fits l.bound := by
  induction c with
  | check k w b => trivial
  | not b c ih | group b c b' ih => exact ih
  | one c ih | all c ih => exact ih.mono (by decide)
  | and c b d ihc ihd => exact ⟨le_rfl, ihc, ihd.mono (by decide)⟩
  | or c b d ihc ihd => exact ⟨le_rfl, ihc, ihd⟩

theorem spliced_fits (c : Condition l) : c.spliced.Fits 1 := by
  induction c with
  | check k w b => exact k.expanded_fits w
  | not b c ih => exact Expr.fits_negate ih
  | group b c b' ih | one c ih | all c ih => exact ih
  | and c b d ihc ihd => exact Expr.fits_conjoin ihc ihd
  | or c b d ihc ihd => exact Expr.fits_chain (o := .or) (by decide) ihc ihd

end Condition

end GlideBridge.Script
