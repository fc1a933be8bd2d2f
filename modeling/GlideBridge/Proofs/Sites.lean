import GlideBridge.Proofs.Conservation
import GlideBridge.Proofs.Derivative

/-! Places of a text at which the hits of some pieces begin, and what a rule does to them. Between
the fields of a template stand texts that can be checked: that no hit begins in them and that none
that begins in front of them goes into them. Then all places of a filled template are those of its
fields, and a rule brings a hit about only where kept characters meet what a template writes, so
that seam is checked too. -/

namespace GlideBridge

namespace Text

/-- At how many places of the text the condition holds of what follows. -/
def sites (p : Text → Bool) : Text → ℕ
  | [] => 0
  | c :: t => (if p (c :: t) then 1 else 0) + sites p t

variable {p : Text → Bool} {a b t : Text}

theorem sites_append (h : ∀ v, v <:+ a → v ≠ [] → p (v ++ b) = p v) :
    sites p (a ++ b) = sites p a + sites p b := by
  induction a with
  | nil => simp [sites]
  | cons c a ih =>
    have hc : p (c :: (a ++ b)) = p (c :: a) := h (c :: a) List.suffix_rfl (by simp)
    rw [List.cons_append, sites, sites, hc, ih fun v hv => h v (hv.trans (List.suffix_cons c a)),
      Nat.add_assoc]

theorem sites_append_of_none (h : ∀ v, v <:+ a → v ≠ [] → p (v ++ b) = false) :
    sites p (a ++ b) = sites p b := by
  induction a with
  | nil => rfl
  | cons c a ih =>
    have hc : p (c :: (a ++ b)) = false := h (c :: a) List.suffix_rfl (by simp)
    rw [List.cons_append, sites, hc, ih fun v hv => h v (hv.trans (List.suffix_cons c a))]
    simp

theorem sites_eq_zero_iff : sites p t = 0 ↔ ∀ v, v <:+ t → v ≠ [] → p v = false := by
  induction t with
  | nil => simp [sites]
  | cons c t ih =>
    simp only [sites, Nat.add_eq_zero_iff, ih, List.suffix_cons_iff]
    constructor
    · rintro ⟨hc, ht⟩ v (rfl | hv) hne
      · simpa using hc
      · exact ht v hv hne
    · intro h
      refine ⟨by simp [h _ (Or.inl rfl)], fun v hv => h v (Or.inr hv)⟩

end Text

open Text

namespace Pieces

variable {ps : List Piece} {p : Text → Bool} {a b l t : Text}

structure Refines (ps : List Piece) (p : Text → Bool) : Prop where
  reads_of {t : Text} : p t = true → reads ps t = true
  stable {a : Text} : reads ps a = true → ∀ b, p (a ++ b) = p a

theorem refines_reads (ps : List Piece) : Refines ps (reads ps) where
  reads_of h := h
  stable h b := by rw [reads_append_of_reads h, h]

theorem Refines.eq_false (hp : Refines ps p) (h : reads ps t = false) : p t = false := by
  rw [← Bool.not_eq_true]
  intro ht
  rw [hp.reads_of ht] at h
  cases h

theorem Refines.append_eq (hp : Refines ps p) (h : reads ps (a ++ b) = reads ps a) :
    p (a ++ b) = p a := by
  cases ha : reads ps a with
  | true => exact hp.stable ha b
  | false => rw [hp.eq_false ha, hp.eq_false (h.trans ha)]

theorem Refines.sites_silent_append (hp : Refines ps p) (hl : silent ps l = true) (t : Text) :
    sites p (l ++ t) = sites p t :=
  sites_append_of_none fun _ hv hne => hp.eq_false (reads_suffix_append hl hv hne t)

theorem Refines.sites_append_cuts (hp : Refines ps p) (hl : cuts ps l = true) (a t : Text) :
    sites p (a ++ (l ++ t)) = sites p a + sites p (l ++ t) :=
  sites_append fun _ _ hne => hp.append_eq (reads_append_of_cuts hl hne t)

/-- No hit of the pieces begins in the text. -/
def Free (ps : List Piece) (t : Text) : Prop := sites (reads ps) t = 0

theorem free_iff : Free ps t ↔ ∀ v, v <:+ t → v ≠ [] → reads ps v = false := sites_eq_zero_iff

theorem Free.of_infix (ht : Free ps t) (h : a <:+: t) : Free ps a := by
  rw [free_iff] at ht ⊢
  obtain ⟨x, y, rfl⟩ := h
  intro v hv hne
  have hvy : v ++ y <:+ x ++ a ++ y := by
    obtain ⟨z, rfl⟩ := hv
    exact ⟨x ++ z, by simp⟩
  rw [← Bool.not_eq_true]
  intro hr
  have := ht _ hvy (by simp [hne])
  rw [reads_append_of_reads hr] at this
  cases this

theorem free_of_not_mem (hend : .lineEnd ∉ ps) {w : Text} {c : Char}
    (hw : .literal w ∈ ps) (hc : c ∈ w) (ht : c ∉ t) : Free ps t := by
  refine free_iff.2 fun v hv _ => ?_
  rw [← Bool.not_eq_true, ← isSome_matchPieces hend, Option.isSome_iff_exists]
  rintro ⟨h, hm⟩
  obtain ⟨u, rfl⟩ := taken_append_of_match hm
  exact ht (hv.subset (List.mem_append_left u ((spells_of_match hm).mem_taken hw hc)))

end Pieces

open Pieces

namespace Template

variable {ps : List Piece} {p : Text → Bool}

def head? : Template → Option Text
  | .text l :: _ => some l
  | _ => none

/-- No hit of the pieces begins in a text of the template, and none that begins in a field goes
beyond it. -/
def isSealed (ps : List Piece) : Template → Bool
  | [] => true
  | .text l :: template => silent ps l && isSealed ps template
  | .field _ :: template => (head? template).any (cuts ps) && isSealed ps template

theorem sites_fill (hp : Refines ps p) {template : Template} (ht : isSealed ps template = true)
    (fields : List Text) (u : Text) : sites p (template.flatMap (·.fill fields) ++ u) =
      ((template.filterMap TemplatePart.index?).map fun i => sites p (fields.getD i [])).sum +
        sites p u := by
  induction template with
  | nil => simp
  | cons q template ih =>
    cases q with
    | text l =>
      rw [isSealed, Bool.and_eq_true] at ht
      rw [List.flatMap_cons, TemplatePart.fill_text, List.append_assoc,
        hp.sites_silent_append ht.1, ih ht.2]
      rfl
    | field i =>
      rw [isSealed, Bool.and_eq_true, Option.any_eq_true] at ht
      obtain ⟨⟨l, hl, hcut⟩, ht⟩ := ht
      have hi : (TemplatePart.field i :: template).filterMap TemplatePart.index? =
          i :: template.filterMap TemplatePart.index? := rfl
      rw [hi, List.map_cons, List.sum_cons, Nat.add_assoc, ← ih ht, List.flatMap_cons,
        TemplatePart.fill_field, List.append_assoc]
      obtain ⟨rest, rfl⟩ : ∃ rest, template = .text l :: rest := by
        cases template with
        | nil => cases hl
        | cons q rest => cases q <;> cases hl; exact ⟨rest, rfl⟩
      rw [List.flatMap_cons, TemplatePart.fill_text, List.append_assoc]
      exact hp.sites_append_cuts hcut _ _

end Template

namespace Rule

variable {r : Rule} {ps : List Piece} {t u : Text}

theorem Rewrites.kept_append {P : Text → Prop} (h : Rewrites r t u) {a : Text} (hne : a ≠ [])
    (hsource : P (a ++ t))
    (hseam : ∀ b h t' u', b ≠ [] → a ++ t = b ++ (h.taken ++ t') →
      matchPieces r.pattern.steps (h.taken ++ t') = some h → P (b ++ (r.fill h ++ u'))) :
    P (a ++ u) := by
  induction h generalizing a with
  | nil => exact hsource
  | @kept c t u _ _ ih =>
    have hcons (v : Text) : a ++ c :: v = (a ++ [c]) ++ v := by simp
    rw [hcons] at hsource hseam ⊢
    exact ih (by simp) hsource hseam
  | @hit h t u hm _ _ => exact hseam a h t u hne rfl hm

def SparesSeam (r : Rule) (ps : List Piece) (t : Text) : Prop :=
  ∀ a h t' u, a ≠ [] → a ++ (h.taken ++ t') <:+ t →
    matchPieces r.pattern.steps (h.taken ++ t') = some h →
    reads ps (a ++ (r.fill h ++ u)) = true → reads ps (a ++ (h.taken ++ t')) = true

theorem Rewrites.reads_of_reads (h : Rewrites r t u) {c : Char} (hseam : r.SparesSeam ps (c :: t))
    (hr : reads ps (c :: u) = true) : reads ps (c :: t) = true := by
  refine h.kept_append (P := fun v => reads ps v = true → reads ps (c :: t) = true) (a := [c])
    (by simp) id (fun b g t' u' hb heq hm hread => ?_) hr
  rw [List.singleton_append] at heq
  rw [heq]
  exact hseam b g t' u' hb (heq ▸ List.suffix_rfl) hm hread

theorem SparesSeam.of_suffix {v : Text} (h : r.SparesSeam ps t) (hv : v <:+ t) :
    r.SparesSeam ps v :=
  fun a g t' u hne hs => h a g t' u hne (hs.trans hv)

theorem Rewrites.free (h : Rewrites r t u) (hsealed : Template.isSealed ps r.template = true)
    (hseam : r.SparesSeam ps t)
    (hkept : ∀ c v, c :: v <:+ t → matchPieces r.pattern.steps (c :: v) = none →
      reads ps (c :: v) = false)
    (hfields : ∀ g v, g.taken ++ v <:+ t → matchPieces r.pattern.steps (g.taken ++ v) = some g →
      ∀ f ∈ g.fields, Free ps f) : Free ps u := by
  induction h with
  | nil => rfl
  | @kept c t u hm hr ih =>
    have hsuffix : t <:+ c :: t := List.suffix_cons c t
    have hu : Free ps u := ih (hseam.of_suffix hsuffix)
      (fun d v hv => hkept d v (hv.trans hsuffix)) fun g v hv => hfields g v (hv.trans hsuffix)
    -- a hit that begins at a kept character was there before, since the seam makes none
    have hc : reads ps (c :: u) = false := by
      rw [← Bool.not_eq_true]
      intro hread
      have := hr.reads_of_reads hseam hread
      rw [hkept c t List.suffix_rfl hm] at this
      cases this
    rw [Free, sites, hc, hu]
    rfl
  | @hit g t u hm _ ih =>
    have hsuffix : t <:+ g.taken ++ t := List.suffix_append _ t
    have hu : Free ps u := ih (hseam.of_suffix hsuffix)
      (fun d v hv => hkept d v (hv.trans hsuffix)) fun g v hv => hfields g v (hv.trans hsuffix)
    rw [Free, fill, Template.sites_fill (refines_reads ps) hsealed, hu, Nat.add_zero]
    refine List.sum_eq_zero fun n hn => ?_
    obtain ⟨i, -, rfl⟩ := List.mem_map.1 hn
    rcases TemplatePart.fill_field_eq_nil_or_mem g.fields i with hnil | hmem
    · rw [← TemplatePart.fill_field, hnil]
      rfl
    · exact hfields g t List.suffix_rfl hm _ hmem

theorem free_apply_of_sparesSeam (hp : r.pattern.lineStart = false)
    (hsealed : Template.isSealed ps r.template = true) (hseam : r.SparesSeam ps t)
    (ht : Free ps t) : Free ps (r.apply t) := by
  refine (rewrites_apply hp t).free hsealed hseam (fun c v hv _ => free_iff.1 ht _ hv (by simp)) ?_
  intro g v hv hm f hf
  have hfield :=
    ((spells_of_match hm).infix_taken f hf).trans (List.prefix_append g.taken v).isInfix
  exact ht.of_infix (hfield.trans hv.isInfix)

/-- Each way of reading that is under way where the rule has a hit stops at the text that the
template begins with, unless the opening of the rule brings it to its end as well. -/
def spares (ps : List Piece) (r : Rule) : Bool :=
  !r.pattern.lineStart && Template.isSealed ps r.template &&
    (Template.head? r.template).any fun l =>
      (later ps).all fun qs => done qs || refuses qs l || reads qs r.pattern.opening

theorem exists_fill_eq {l : Text} (hl : Template.head? r.template = some l) (h : Hit) :
    ∃ rest, r.fill h = l ++ rest := by
  rw [fill]
  cases ht : r.template with
  | nil => rw [ht] at hl; cases hl
  | cons q template =>
    rw [ht] at hl
    cases q with
    | text l' => cases hl; exact ⟨_, List.flatMap_cons⟩
    | field i => cases hl

theorem exists_taken_eq {h : Hit} (hm : matchPieces r.pattern.steps t = some h) :
    ∃ rest, h.taken = r.pattern.opening ++ rest := by
  obtain ⟨u, g, -, -, rfl⟩ := matchPieces_literal_eq_some_iff.1 hm
  exact ⟨g.taken, rfl⟩

theorem sparesSeam_of_spares (hr : spares ps r = true) (t : Text) : r.SparesSeam ps t := by
  intro a h t' u hne _ hm hread
  simp only [spares, Bool.and_eq_true, Option.any_eq_true, List.all_eq_true, Bool.or_eq_true] at hr
  obtain ⟨-, l, hl, hall⟩ := hr
  obtain ⟨rest, hfill⟩ := exists_fill_eq hl h
  obtain ⟨rest', htaken⟩ := exists_taken_eq hm
  rcases reads_or_of_append hne hread with hread | ⟨qs, hq, hqa, hd, hread⟩
  · exact reads_append_of_reads hread _
  · rw [hfill, List.append_assoc] at hread
    rcases hall qs hq with (hdone | hrefuses) | hopening
    · rw [hd] at hdone
      cases hdone
    · rw [reads_append_of_refuses hrefuses] at hread
      cases hread
    · rw [htaken, List.append_assoc, reads_append, Bool.or_eq_true, List.any_eq_true]
      exact Or.inr ⟨qs, hqa, reads_append_of_reads hopening _⟩

theorem free_apply (hr : spares ps r = true) (ht : Free ps t) : Free ps (r.apply t) := by
  have hseam := sparesSeam_of_spares hr t
  simp only [spares, Bool.and_eq_true, Bool.not_eq_true'] at hr
  exact free_apply_of_sparesSeam hr.1.1 hr.1.2 hseam ht

theorem free_run {rs : List Rule} (hr : rs.all (spares ps) = true) (ht : Free ps t) :
    Free ps (run rs t) := by
  exact run_induction (fun r hmem _ => free_apply (List.all_eq_true.1 hr r hmem)) ht

theorem free_steps_apply (hr : spares r.pattern.steps r = true) (hend : .lineEnd ∉ r.pattern.steps)
    (hfields : ∀ h, Spells r.pattern.steps h → ∀ f ∈ h.fields, Free r.pattern.steps f)
    (t : Text) : Free r.pattern.steps (r.apply t) := by
  have hseam := sparesSeam_of_spares hr t
  simp only [spares, Bool.and_eq_true, Bool.not_eq_true'] at hr
  refine (rewrites_apply hr.1.1 t).free hr.1.2 hseam (fun c v _ hm => ?_) fun g v _ hm =>
    hfields g (spells_of_match hm)
  rw [← isSome_matchPieces hend, hm]
  rfl

theorem hits_eq_nil_iff_free (hp : r.pattern.lineStart = false)
    (hend : .lineEnd ∉ r.pattern.steps) :
    r.pattern.hits t = [] ↔ Free r.pattern.steps t := by
  rw [Pattern.hits_eq_nil_iff hp, free_iff]
  simp only [← isSome_matchPieces hend, Option.isSome_eq_false_iff, Option.isNone_iff_eq_none]

theorem hits_eq_nil_of_free (hp : r.pattern.lineStart = false)
    (hend : .lineEnd ∉ r.pattern.steps) (ht : Free r.pattern.steps t) : r.pattern.hits t = [] :=
  (hits_eq_nil_iff_free hp hend).2 ht

end Rule

end GlideBridge
