import GlideBridge.Proofs.Reading
import GlideBridge.Proofs.Sites

/-! Texts in which no hit of a pattern begins. When arguments stand in the fields of a template, a
hit can begin in one of them only with the first characters of the opening, so it has to go on in
the text behind the field. Whether a pattern passes all that a template writes is therefore
computed from the template. -/

namespace GlideBridge

open Text Pieces

namespace Pieces

variable {ps : List Piece} {o a t : Text}

/-- What is left to read of the opening and of the pieces behind it when characters of arguments
have been read. -/
def begun (ps : List Piece) : Text → List (List Piece)
  | [] => []
  | c :: w => if isArgumentChar c then (.literal w :: ps) :: begun ps w else []

def opensBlank : List Piece → Bool
  | .one k :: _ => k == .blank
  | .many k :: .literal (d :: _) :: _ => k == .blank && !isArgumentChar d
  | _ => false

theorem reads_of_opensBlank (hps : opensBlank ps = true) {c : Char} (hc : isArgumentChar c = true)
    (t : Text) : reads ps (c :: t) = false := by
  have hblank : CharClass.blank.has c = false := not_blank_of_argument hc
  unfold opensBlank at hps
  split at hps
  · next k ps =>
    obtain rfl : k = .blank := by simpa using hps
    rw [reads_one_cons, hblank, Bool.false_and]
  · next k d w ps =>
    obtain ⟨rfl, hd⟩ : k = .blank ∧ isArgumentChar d = false := by simpa using hps
    have hne : d ≠ c := by
      rintro rfl
      rw [hc] at hd
      cases hd
    rw [reads_many_cons, hblank, reads_literal_cons, decide_eq_false hne]
    rfl
  · cases hps

theorem exists_begun (ho : o.all isArgumentChar = true → opensBlank ps = true) (hne : a ≠ [])
    (ha : ∀ c ∈ a, isArgumentChar c = true) (h : reads (.literal o :: ps) (a ++ t) = true) :
    ∃ qs ∈ begun ps o, reads qs t = true := by
  -- on the argument, whose characters are taken off the opening one by one
  induction a generalizing o with
  | nil => exact absurd rfl hne
  | cons c a ih =>
    rw [List.forall_mem_cons] at ha
    cases o with
    | nil =>
      -- the opening ends inside the argument, where no blank can stand
      rw [reads_literal_nil, List.cons_append, reads_of_opensBlank (ho rfl) ha.1] at h
      cases h
    | cons d o =>
      rw [List.cons_append, reads_literal_cons, Bool.and_eq_true, decide_eq_true_eq] at h
      obtain ⟨rfl, h⟩ := h
      rw [List.all_cons, ha.1, Bool.true_and] at ho
      rw [begun, if_pos ha.1]
      by_cases hnil : a = []
      · exact ⟨_, List.mem_cons_self, by simpa [hnil] using h⟩
      · obtain ⟨qs, hq, hread⟩ := ih ho hnil ha.2 h
        exact ⟨qs, List.mem_cons_of_mem _ hq, hread⟩

end Pieces

namespace Pattern

variable {p : Pattern} {a b w t : Text}

/-- The pattern looks at no line break, and a blank stands behind an opening that could be an
argument. -/
def isFramed (p : Pattern) : Bool :=
  !p.lineStart && !p.steps.contains .lineEnd &&
    (!p.opening.all isArgumentChar || opensBlank p.pieces)

def Passes (p : Pattern) (w t : Text) : Prop :=
  ∀ v, v <:+ w → v ≠ [] → reads p.steps (v ++ t) = false

theorem passes_nil (p : Pattern) (t : Text) : p.Passes [] t :=
  fun _ hv hne => absurd (List.suffix_nil.1 hv) hne

theorem Passes.append (ha : p.Passes a (b ++ t)) (hb : p.Passes b t) : p.Passes (a ++ b) t := by
  intro v hv hne
  rcases List.suffix_or_suffix_of_suffix hv (List.suffix_append a b) with hvb | ⟨x, rfl⟩
  · exact hb v hvb hne
  · have hx : x <:+ a := by
      obtain ⟨y, hy⟩ := hv
      rw [← List.append_assoc] at hy
      exact ⟨y, List.append_cancel_right hy⟩
    by_cases hnil : x = []
    · exact hb (x ++ b) (by rw [hnil]; exact List.suffix_rfl) hne
    · rw [List.append_assoc]
      exact ha x hx hnil

theorem Passes.of_suffix (h : p.Passes w t) (hb : b <:+ w) : p.Passes b t :=
  fun v hv hne => h v (hv.trans hb) hne

theorem passes_of_silent (hw : silentRec p.steps w = true) (t : Text) : p.Passes w t := by
  rw [silentRec_eq] at hw
  exact fun _ hv hne => reads_suffix_append hw hv hne t

theorem passes_argument (hp : p.isFramed = true) (ha : ∀ c ∈ a, isArgumentChar c = true)
    (hw : (begun p.pieces p.opening).all (refusesRec · w) = true) (ht : w <+: t) :
    p.Passes a t := by
  intro v hv hne
  rw [← Bool.not_eq_true]
  intro h
  simp only [isFramed, Bool.and_eq_true, Bool.or_eq_true, Bool.not_eq_true'] at hp
  have hopens : p.opening.all isArgumentChar = true → opensBlank p.pieces = true := by
    intro hall
    refine hp.2.resolve_left ?_
    rw [hall]
    simp
  obtain ⟨qs, hq, hread⟩ := exists_begun hopens hne (fun c hc => ha c (hv.subset hc)) h
  obtain ⟨u, rfl⟩ := ht
  have hrefuses := List.all_eq_true.1 hw qs hq
  rw [refusesRec_eq] at hrefuses
  rw [reads_append_of_refuses hrefuses] at hread
  cases hread

theorem lineStart_of_isFramed (hp : p.isFramed = true) : p.lineStart = false := by
  simp only [isFramed, Bool.and_eq_true, Bool.not_eq_true'] at hp
  exact hp.1.1

theorem lineEnd_not_mem_of_isFramed (hp : p.isFramed = true) : .lineEnd ∉ p.steps := by
  simp only [isFramed, Bool.and_eq_true, Bool.not_eq_true', List.contains_eq_mem,
    decide_eq_false_iff_not] at hp
  exact hp.1.2

theorem Passes.matchPieces_eq_none (hp : p.isFramed = true) (h : p.Passes w t) {v : Text}
    (hv : v <:+ w) (hne : v ≠ []) : matchPieces p.steps (v ++ t) = none := by
  rw [← Option.isNone_iff_eq_none, ← Option.isSome_eq_false_iff,
    isSome_matchPieces (lineEnd_not_mem_of_isFramed hp)]
  exact h v hv hne

theorem Passes.hits_eq_nil (hp : p.isFramed = true) (h : p.Passes t []) : p.hits t = [] := by
  refine (hits_eq_nil_iff (lineStart_of_isFramed hp)).2 fun v hv hne => ?_
  have hnone := h.matchPieces_eq_none hp hv hne
  rwa [List.append_nil] at hnone

end Pattern

theorem Rule.apply_of_passes {r : Rule} {w t : Text} (hr : r.pattern.isFramed = true)
    (h : r.pattern.Passes w t) : r.apply (w ++ t) = w ++ r.apply t :=
  apply_append_of_no_hit (Pattern.lineStart_of_isFramed hr) fun _ => h.matchPieces_eq_none hr

namespace Template

variable {p : Pattern} {ends : List Text} {template : Template} {fields : List Text} {t : Text}

def nexts (ends : List Text) : Template → List Text
  | [] => ends
  | .text l :: _ => [l]
  | .field _ :: _ => [[]]

def isPassed (p : Pattern) (ends : List Text) : Template → Bool
  | [] => true
  | .text l :: template => silentRec p.steps l && isPassed p ends template
  | .field _ :: template =>
    (nexts ends template).all (fun l => (begun p.pieces p.opening).all (refusesRec · l)) &&
      isPassed p ends template

theorem exists_nexts (ht : ∃ l ∈ ends, l <+: t) (template : Template) (fields : List Text) :
    ∃ l ∈ nexts ends template, l <+: template.flatMap (·.fill fields) ++ t := by
  rcases template with _ | ⟨l | i, template⟩
  · exact ht
  · refine ⟨l, List.mem_cons_self, ?_⟩
    rw [List.flatMap_cons, List.append_assoc]
    exact List.prefix_append l _
  · exact ⟨[], List.mem_cons_self, List.nil_prefix⟩

theorem passes_fill (hp : p.isFramed = true) (htemplate : isPassed p ends template = true)
    (hf : ∀ f ∈ fields, IsArgument f) (ht : ∃ l ∈ ends, l <+: t) :
    p.Passes (template.flatMap (·.fill fields)) t := by
  induction template with
  | nil => exact p.passes_nil t
  | cons q template ih =>
    rw [List.flatMap_cons]
    cases q with
    | text l =>
      rw [isPassed, Bool.and_eq_true] at htemplate
      exact (Pattern.passes_of_silent htemplate.1 _).append (ih htemplate.2)
    | field i =>
      rw [isPassed, Bool.and_eq_true] at htemplate
      have hchars : ∀ c ∈ (TemplatePart.field i).fill fields, isArgumentChar c = true := by
        rcases TemplatePart.fill_field_eq_nil_or_mem fields i with hnil | hmem
        · simp [hnil]
        · exact (hf _ hmem).chars
      obtain ⟨l, hl, hpre⟩ := exists_nexts ht template fields
      have hnext := List.all_eq_true.1 htemplate.1 l hl
      exact (Pattern.passes_argument hp hchars hnext hpre).append (ih htemplate.2)

end Template

end GlideBridge
