import GlideBridge.Catalog.Basic
import GlideBridge.Proofs.Matching

/-! The left-to-right scan of a pattern as a relation between a text and its segments. A pattern
that may hit anywhere in a line does not look back, so the scan of a text is decided by what
stands in front, and each fact about a rule is one induction on hits and kept characters. -/

namespace GlideBridge

namespace Pattern

def steps (p : Pattern) : List Piece := .literal p.opening :: p.pieces

/-- One complete scan. A character is kept only where no hit begins. -/
inductive Cuts (p : Pattern) : Text → List Segment → Prop
  | nil : Cuts p [] []
  | kept {c : Char} {t : Text} {ss : List Segment} :
      matchPieces p.steps (c :: t) = none → Cuts p t ss → Cuts p (c :: t) (.kept c :: ss)
  | hit {h : Hit} {t : Text} {ss : List Segment} :
      matchPieces p.steps (h.taken ++ t) = some h → Cuts p t ss →
      Cuts p (h.taken ++ t) (.hit h :: ss)

theorem matchAt_eq_matchPieces {p : Pattern} (hp : p.lineStart = false) (fresh : Bool) (t : Text) :
    p.matchAt fresh t = matchPieces p.steps t := by
  simp [matchAt, steps, hp]

theorem taken_ne_nil {p : Pattern} {t : Text} {h : Hit} (hm : matchPieces p.steps t = some h) :
    h.taken ≠ [] := by
  obtain ⟨u, g, -, -, rfl⟩ := matchPieces_literal_eq_some_iff.1 hm
  simp [p.opening_ne]

theorem scan_kept {p : Pattern} (hp : p.lineStart = false) {c : Char} {t : Text}
    (hm : matchPieces p.steps (c :: t) = none) : p.scan (c :: t) = .kept c :: p.scan t := by
  rw [← matchAt_eq_matchPieces hp true] at hm
  rw [scan, scanFrom_of_miss hm, scanFrom_fresh_irrelevant hp _ true, scan]

theorem scan_hit {p : Pattern} (hp : p.lineStart = false) {h : Hit} {t : Text}
    (hm : matchPieces p.steps (h.taken ++ t) = some h) :
    p.scan (h.taken ++ t) = .hit h :: p.scan t := by
  rw [← matchAt_eq_matchPieces hp true] at hm
  rw [scan, scanFrom_of_hit hm, scanFrom_fresh_irrelevant hp _ true, scan]

@[elab_as_elim]
theorem scan_induction (p : Pattern) {motive : Text → Prop} (nil : motive [])
    (kept : ∀ c t, matchPieces p.steps (c :: t) = none → motive t → motive (c :: t))
    (hit : ∀ h t, matchPieces p.steps (h.taken ++ t) = some h → motive t →
      motive (h.taken ++ t)) (t : Text) : motive t := by
  induction hn : t.length using Nat.strongRecOn generalizing t with
  | ind n ih =>
    cases t with
    | nil => exact nil
    | cons c t =>
      cases hm : matchPieces p.steps (c :: t) with
      | none => exact kept c t hm (ih t.length (by simp [← hn]) t rfl)
      | some h =>
        obtain ⟨u, hu⟩ := taken_append_of_match hm
        have hlen : u.length < n := by
          have := List.length_pos_of_ne_nil (taken_ne_nil hm)
          rw [← hn, hu, List.length_append]
          omega
        rw [hu] at hm ⊢
        exact hit h u hm (ih u.length hlen u rfl)

theorem cuts_scan {p : Pattern} (hp : p.lineStart = false) (t : Text) : Cuts p t (p.scan t) := by
  induction t using p.scan_induction with
  | nil => exact .nil
  | kept c t hm ih =>
    rw [scan_kept hp hm]
    exact .kept hm ih
  | hit h t hm ih =>
    rw [scan_hit hp hm]
    exact .hit hm ih

theorem Cuts.spells {p : Pattern} {t : Text} {ss : List Segment} (hc : Cuts p t ss) {h : Hit}
    (hh : .hit h ∈ ss) : Spells p.steps h := by
  induction hc with
  | nil => cases hh
  | kept _ _ ih => exact ih (by simpa using hh)
  | hit hm _ ih =>
    rcases List.mem_cons.1 hh with heq | hh
    · cases heq
      exact spells_of_match hm
    · exact ih hh

theorem hits_nil (p : Pattern) : p.hits [] = [] := rfl

theorem hits_kept {p : Pattern} (hp : p.lineStart = false) {c : Char} {t : Text}
    (hm : matchPieces p.steps (c :: t) = none) : p.hits (c :: t) = p.hits t := by
  rw [hits, scan_kept hp hm]
  rfl

theorem hits_hit {p : Pattern} (hp : p.lineStart = false) {h : Hit} {t : Text}
    (hm : matchPieces p.steps (h.taken ++ t) = some h) :
    p.hits (h.taken ++ t) = h :: p.hits t := by
  rw [hits, scan_hit hp hm]
  rfl

theorem hits_eq_nil_iff {p : Pattern} (hp : p.lineStart = false) {t : Text} :
    p.hits t = [] ↔ ∀ v, v <:+ t → v ≠ [] → matchPieces p.steps v = none := by
  induction t using p.scan_induction with
  | nil => simp [hits_nil]
  | kept c t hm ih =>
    rw [hits_kept hp hm]
    refine ih.trans ?_
    constructor
    · intro h v hv hne
      rcases List.suffix_cons_iff.1 hv with rfl | hv
      · exact hm
      · exact h v hv hne
    · exact fun h v hv => h v (hv.trans (List.suffix_cons c t))
  | hit h t hm _ =>
    rw [hits_hit hp hm]
    refine iff_of_false (by simp) fun hall => ?_
    rw [hall _ List.suffix_rfl (by simp [taken_ne_nil hm])] at hm
    cases hm

end Pattern

namespace TemplatePart

@[simp] theorem fill_text (fields : List Text) (t : Text) : (text t).fill fields = t := rfl

@[simp] theorem fill_field (fields : List Text) (i : Nat) :
    (field i).fill fields = fields.getD i [] := rfl

theorem fill_field_eq_nil_or_mem (fields : List Text) (i : ℕ) :
    (field i).fill fields = [] ∨ (field i).fill fields ∈ fields := by
  rw [fill_field, List.getD_eq_getElem?_getD]
  cases h : fields[i]? with
  | none => exact Or.inl rfl
  | some f => exact Or.inr (List.mem_of_getElem? h)

end TemplatePart

namespace Rule

def fill (r : Rule) (h : Hit) : Text := r.template.flatMap (·.fill h.fields)

theorem apply_nil (r : Rule) : r.apply [] = [] := rfl

theorem apply_kept {r : Rule} (hp : r.pattern.lineStart = false) {c : Char} {t : Text}
    (hm : matchPieces r.pattern.steps (c :: t) = none) : r.apply (c :: t) = c :: r.apply t := by
  rw [apply, Pattern.scan_kept hp hm]
  rfl

theorem apply_hit {r : Rule} (hp : r.pattern.lineStart = false) {h : Hit} {t : Text}
    (hm : matchPieces r.pattern.steps (h.taken ++ t) = some h) :
    r.apply (h.taken ++ t) = r.fill h ++ r.apply t := by
  rw [apply, Pattern.scan_hit hp hm]
  rfl

theorem apply_append_of_no_hit {r : Rule} (hp : r.pattern.lineStart = false) {w t : Text}
    (hw : ∀ v, v <:+ w → v ≠ [] → matchPieces r.pattern.steps (v ++ t) = none) :
    r.apply (w ++ t) = w ++ r.apply t := by
  induction w with
  | nil => rfl
  | cons c w ih =>
    have hc : matchPieces r.pattern.steps (c :: (w ++ t)) = none :=
      hw (c :: w) List.suffix_rfl (by simp)
    have hrest := ih fun v hv => hw v (hv.trans (List.suffix_cons c w))
    rw [List.cons_append, apply_kept hp hc, hrest, List.cons_append]

inductive Rewrites (r : Rule) : Text → Text → Prop
  | nil : Rewrites r [] []
  | kept {c : Char} {t u : Text} :
      matchPieces r.pattern.steps (c :: t) = none → Rewrites r t u → Rewrites r (c :: t) (c :: u)
  | hit {h : Hit} {t u : Text} :
      matchPieces r.pattern.steps (h.taken ++ t) = some h → Rewrites r t u →
      Rewrites r (h.taken ++ t) (r.fill h ++ u)

theorem rewrites_apply {r : Rule} (hp : r.pattern.lineStart = false) (t : Text) :
    Rewrites r t (r.apply t) := by
  induction t using r.pattern.scan_induction with
  | nil => exact .nil
  | kept c t hm ih =>
    rw [apply_kept hp hm]
    exact .kept hm ih
  | hit h t hm ih =>
    rw [apply_hit hp hm]
    exact .hit hm ih

theorem hits_eq_nil_of_not_isInfix {r : Rule} (hp : r.pattern.lineStart = false) {t : Text}
    (ho : ¬ r.pattern.opening <:+: t) : r.pattern.hits t = [] := by
  refine (Pattern.hits_eq_nil_iff hp).2 fun v hv _ => ?_
  rw [Option.eq_none_iff_forall_ne_some]
  intro h hm
  obtain ⟨u, -, rfl, -⟩ := matchPieces_literal_eq_some_iff.1 hm
  exact ho ((List.prefix_append _ u).isInfix.trans hv.isInfix)

theorem apply_of_not_isInfix {r : Rule} (hp : r.pattern.lineStart = false) {t : Text}
    (ho : ¬ r.pattern.opening <:+: t) : r.apply t = t :=
  apply_of_hits_eq_nil (hits_eq_nil_of_not_isInfix hp ho)

/-- The rules one after the other, each on what the one before has left. -/
def run (rs : List Rule) (t : Text) : Text := rs.foldl (fun u r => r.apply u) t

theorem run_singleton (r : Rule) (t : Text) : run [r] t = r.apply t := rfl

theorem run_cons (r : Rule) (rs : List Rule) (t : Text) :
    run (r :: rs) t = run rs (r.apply t) := rfl

theorem run_append (rs ss : List Rule) (t : Text) : run (rs ++ ss) t = run ss (run rs t) :=
  List.foldl_append

theorem run_induction {P : Text → Prop} {rs : List Rule} (h : ∀ r ∈ rs, ∀ t, P t → P (r.apply t))
    {t : Text} (ht : P t) : P (run rs t) := by
  induction rs generalizing t with
  | nil => exact ht
  | cons r rs ih =>
    rw [List.forall_mem_cons] at h
    exact ih h.2 (h.1 t ht)

end Rule

namespace Catalog

theorem applyAll_eq_run (gs : List RuleGroup) (t : Text) :
    applyAll gs t = Rule.run (gs.flatMap (·.rules)) t := by
  induction gs generalizing t with
  | nil => rfl
  | cons g gs ih =>
    rw [List.flatMap_cons, Rule.run_append]
    exact ih (g.apply t)

def earlyRules : List Rule := systemRules ++ alertGroup.rules ++ recordGroup.rules

def accessRules (form : Text) : List Rule := (formRules form).take 5

def fixedRules : List Rule := (formRules []).drop 5

def closingRules : List Rule := leftoverGroup.rules ++ cleanupGroup.rules

end Catalog

end GlideBridge
