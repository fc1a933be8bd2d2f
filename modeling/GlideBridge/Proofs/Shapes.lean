import GlideBridge.Proofs.Expression
import GlideBridge.Proofs.Passing
import GlideBridge.Proofs.Translation

/-! Texts that one rule puts other texts in the place of, and that all other rules pass: the text
in front of its rule, its translation behind it. This is checked for the templates of the text and
of the translation, with what can stand behind them. -/

namespace GlideBridge

open Text Catalog Pieces

namespace Catalog

def convertingRules (form : Text) : List Rule :=
  (documented form).flatMap (·.rules) ++ leftoverGroup.rules

def convertingPatterns : List Pattern := (convertingRules []).map (·.pattern)

theorem convertingRules_patterns (form : Text) :
    (convertingRules form).map (·.pattern) = convertingPatterns := rfl

theorem getElem?_convertingPatterns {form : Text} {m : ℕ} {r : Rule}
    (hr : (convertingRules form)[m]? = some r) : convertingPatterns[m]? = some r.pattern := by
  rw [← convertingRules_patterns form, List.getElem?_map, hr, Option.map_some]

theorem pattern_mem {form : Text} {m : ℕ} {r : Rule}
    (hr : (convertingRules form)[m]? = some r) : r.pattern ∈ convertingPatterns :=
  List.mem_of_getElem? (getElem?_convertingPatterns hr)

end Catalog

def atomEnds : List Text := [')'] :: Operator.all.map Operator.text

def AtEnd (t : Text) : Prop := ∃ l ∈ atomEnds, l <+: t

theorem atEnd_close (t : Text) : AtEnd (')' :: t) :=
  ⟨[')'], List.mem_cons_self, List.prefix_append [')'] t⟩

theorem atEnd_operator (o : Operator) (t : Text) : AtEnd (o.text ++ t) :=
  ⟨o.text, List.mem_cons_of_mem _ (List.mem_map_of_mem o.mem_all), List.prefix_append o.text t⟩

theorem convertingPatterns_pass :
    (convertingPatterns.all fun p => p.isFramed && Template.isPassed p atomEnds [.field 0] &&
      (atomEnds ++ [[';']]).all (silentRec p.steps)) = true := by decide +kernel

section Patterns

variable {p : Pattern} {a t : Text} (hp : p ∈ convertingPatterns)

include hp

theorem isFramed_of_mem : p.isFramed = true := by
  have h := List.all_eq_true.1 convertingPatterns_pass p hp
  simp only [Bool.and_eq_true] at h
  exact h.1.1

theorem passes_argument_of_mem (ha : IsArgument a) (ht : AtEnd t) : p.Passes a t := by
  have h := List.all_eq_true.1 convertingPatterns_pass p hp
  simp only [Bool.and_eq_true] at h
  have hfill : p.Passes ([TemplatePart.field 0].flatMap (·.fill [a])) t :=
    Template.passes_fill h.1.1 h.1.2 (by simpa using ha) ht
  simpa using hfill

theorem passes_end_of_mem {l : Text} (hl : l ∈ atomEnds ++ [[';']]) (t : Text) : p.Passes l t := by
  have h := List.all_eq_true.1 convertingPatterns_pass p hp
  simp only [Bool.and_eq_true] at h
  exact Pattern.passes_of_silent (List.all_eq_true.1 h.2 l hl) t

theorem passes_operator_of_mem (o : Operator) (t : Text) : p.Passes o.text t :=
  passes_end_of_mem hp
    (List.mem_append_left _ (List.mem_cons_of_mem _ (List.mem_map_of_mem o.mem_all))) t

end Patterns

structure Text.Neat (t : Text) : Prop extends Tidy t where
  not_close : t.head? ≠ some ')'

namespace Text.Neat

theorem append {t u : Text} (ht : Neat t) (hline : '\n' ∉ u) (hsemi : ';' ∉ u) :
    Neat (t ++ u) := by
  obtain ⟨c, hc, hblank⟩ := ht.head
  have hhead : (t ++ u).head? = some c := by
    rw [List.head?_append, hc]
    rfl
  have hline' : '\n' ∉ t ++ u := by simp [ht.line, hline]
  have hsemi' : ';' ∉ t ++ u := by simp [ht.semicolon, hsemi]
  refine ⟨⟨⟨c, hhead, hblank⟩, hline', hsemi'⟩, ?_⟩
  rw [hhead, ← hc]
  exact ht.not_close

theorem of_argument {a : Text} (ha : IsArgument a) : Neat a := by
  obtain ⟨c, t, rfl⟩ := List.exists_cons_of_ne_nil ha.ne_nil
  have hblank := ha.not_blank List.mem_cons_self
  refine ⟨⟨⟨c, rfl, hblank⟩, ha.not_mem (by decide), ha.not_mem (by decide)⟩, fun h => ?_⟩
  exact ha.close_not_mem (List.mem_of_mem_head? h)

end Text.Neat

namespace Template

/-- The template writes one line without semicolons, and begins with a character that neither an
end of a call nor a function begins with. -/
def isNeat (template : Template) : Bool :=
  ((texts template).all fun l => !l.contains ';' && !l.contains '\n') &&
    match template with
    | .text (c :: _) :: _ => !isBlank c && !([')', 'f', '{'].contains c)
    | _ => false

variable {template : Template} {fields : List Text}

theorem exists_cons_of_isNeat (h : isNeat template = true) (fields : List Text) :
    ∃ c t, template.flatMap (·.fill fields) = c :: t ∧ isBlank c = false ∧
      c ≠ ')' ∧ c ≠ 'f' ∧ c ≠ '{' := by
  simp only [isNeat, Bool.and_eq_true] at h
  obtain ⟨-, h⟩ := h
  split at h
  · next c w template =>
    refine ⟨c, w ++ template.flatMap (·.fill fields), by simp, ?_⟩
    simpa using h
  · cases h

theorem neat_fill (h : isNeat template = true) (hf : ∀ f ∈ fields, IsArgument f) :
    Neat (template.flatMap (·.fill fields)) := by
  obtain ⟨c, t, ht, hblank, hclose, -⟩ := exists_cons_of_isNeat h fields
  simp only [isNeat, Bool.and_eq_true, List.all_eq_true, Bool.not_eq_true', List.contains_eq_mem,
    decide_eq_false_iff_not] at h
  have hline : '\n' ∉ template.flatMap (·.fill fields) :=
    not_mem_fill (fun l hl => (h.1 l hl).2) fun f hm => (hf f hm).not_mem (by decide)
  have hsemi : ';' ∉ template.flatMap (·.fill fields) :=
    not_mem_fill (fun l hl => (h.1 l hl).1) fun f hm => (hf f hm).not_mem (by decide)
  rw [ht] at hline hsemi ⊢
  exact ⟨⟨⟨c, rfl, hblank⟩, hline, hsemi⟩, by simpa using hclose⟩

end Template

/-- A text and its translation as templates, and the number of the rule that puts one in the place
of the other. -/
structure Shape where
  index : ℕ
  source : Template
  target : Template

namespace Shape

variable {s : Shape} {text translation t : Text} {ends : List Text} {m : ℕ} {p : Pattern}

/-- Every other rule passes what stands there when its turn comes. -/
def isCarried (ends : List Text) (s : Shape) : Bool :=
  convertingPatterns.zipIdx.all fun x =>
    x.2 == s.index || Template.isPassed x.1 ends (if x.2 ≤ s.index then s.source else s.target)

def isNeat (s : Shape) : Bool := Template.isNeat s.source && Template.isNeat s.target

structure Fits (s : Shape) (text translation : Text) : Prop where
  source : ∃ fields, (∀ f ∈ fields, IsArgument f) ∧ text = s.source.flatMap (·.fill fields)
  target : ∃ fields, (∀ f ∈ fields, IsArgument f) ∧ translation = s.target.flatMap (·.fill fields)

theorem fits_plain {i : ℕ} {source target : Template}
    (hs : text = source.flatMap (·.fill [])) (ht : translation = target.flatMap (·.fill [])) :
    Fits ⟨i, source, target⟩ text translation :=
  ⟨⟨[], by simp, hs⟩, ⟨[], by simp, ht⟩⟩

theorem fits_field {i : ℕ} {source target : Template} (f : Field)
    (hs : text = source.flatMap (·.fill [f.written]))
    (ht : translation = target.flatMap (·.fill [f.text])) :
    Fits ⟨i, source, target⟩ text translation :=
  ⟨⟨[f.written], by simpa using f.isArgument, hs⟩,
    ⟨[f.text], by simpa using f.isArgument_text, ht⟩⟩

def stage (i : ℕ) (text translation : Text) (m : ℕ) : Text := if m ≤ i then text else translation

theorem stage_of_le {i m : ℕ} (h : m ≤ i) (text translation : Text) :
    stage i text translation m = text := if_pos h

theorem stage_of_lt {i m : ℕ} (h : i < m) (text translation : Text) :
    stage i text translation m = translation := if_neg (Nat.not_le.2 h)

theorem stage_succ {i m : ℕ} (h : i ≠ m) (text translation : Text) :
    stage i text translation (m + 1) = stage i text translation m := by
  unfold stage
  split <;> split <;> first | rfl | omega

theorem Fits.exists_stage (hs : s.Fits text translation) (m : ℕ) :
    ∃ fields, (∀ f ∈ fields, IsArgument f) ∧ stage s.index text translation m =
      (if m ≤ s.index then s.source else s.target).flatMap (·.fill fields) := by
  unfold stage
  split
  · exact hs.source
  · exact hs.target

theorem Fits.passes (hs : s.Fits text translation) (hc : s.isCarried ends = true)
    (hp : convertingPatterns[m]? = some p) (hm : m ≠ s.index) (ht : ∃ l ∈ ends, l <+: t) :
    p.Passes (stage s.index text translation m) t := by
  obtain ⟨fields, hf, htext⟩ := hs.exists_stage m
  have hpassed := List.all_eq_true.1 hc (p, m) (List.mem_zipIdx_iff_getElem?.2 hp)
  rw [Bool.or_eq_true, beq_iff_eq] at hpassed
  rw [htext]
  exact Template.passes_fill (isFramed_of_mem (List.mem_of_getElem? hp))
    (hpassed.resolve_left hm) hf ht

theorem Fits.neat_stage (hs : s.Fits text translation) (hn : s.isNeat = true) (m : ℕ) :
    Neat (stage s.index text translation m) := by
  obtain ⟨fields, hf, htext⟩ := hs.exists_stage m
  rw [isNeat, Bool.and_eq_true] at hn
  rw [htext]
  split
  · exact Template.neat_fill hn.1 hf
  · exact Template.neat_fill hn.2 hf

def Carried (ends : List Text) (i : ℕ) (text translation : Text) : Prop :=
  ∃ s : Shape, s.index = i ∧ s.isCarried ends = true ∧ s.isNeat = true ∧ s.Fits text translation

theorem Carried.passes {i : ℕ} (h : Carried ends i text translation)
    (hp : convertingPatterns[m]? = some p) (hm : i ≠ m) (ht : ∃ l ∈ ends, l <+: t) :
    p.Passes (stage i text translation m) t := by
  obtain ⟨s, rfl, hc, -, hs⟩ := h
  exact hs.passes hc hp hm.symm ht

theorem Carried.neat_stage {i : ℕ} (h : Carried ends i text translation) (m : ℕ) :
    Neat (stage i text translation m) := by
  obtain ⟨s, rfl, -, hn, hs⟩ := h
  exact hs.neat_stage hn m

end Shape

end GlideBridge
