import GlideBridge.Proofs.CallCounts

/-! Texts in which a name runs on into the next one without a break. There a rule can cut a call
in two, or put what it writes behind the beginning of a call and so complete it. The last rule for
system calls writes its argument first; when no name runs on into such a call, nothing that is
begun in front of it goes on into the argument. -/

namespace GlideBridge

open Text Pieces CallSpace

/-- One of the first texts, a run of the class, and one of the last texts. -/
def junction (froms : List Text) (k : CharClass) (intos : List Text) : List Piece :=
  [.oneOf froms, .many k, .oneOf intos]

namespace Pieces

theorem reads_many_append {k : CharClass} {ps : List Piece} {run u : Text}
    (hrun : ∀ c ∈ run, k.has c = true) (h : reads ps u = true) :
    reads (.many k :: ps) (run ++ u) = true := by
  induction run with
  | nil =>
    cases u with
    | nil => exact h
    | cons c u => rw [List.nil_append, reads_many_cons, h, Bool.or_true]
  | cons c run ih =>
    rw [List.forall_mem_cons] at hrun
    rw [List.cons_append, reads_many_cons, hrun.1, ih hrun.2]
    rfl

theorem reads_oneOf_append {ws : List Text} {w : Text} (hw : w ∈ ws) {ps : List Piece} {u : Text}
    (h : reads ps u = true) : reads (.oneOf ws :: ps) (w ++ u) = true := by
  rw [reads_oneOf, List.any_eq_true]
  exact ⟨w, hw, (reads_literal_append w ps u).trans h⟩

theorem reads_junction_iff {froms intos : List Text} {k : CharClass} {t : Text} :
    reads (junction froms k intos) t = true ↔ ∃ o ∈ froms, ∃ run, (∀ c ∈ run, k.has c = true) ∧
      ∃ i ∈ intos, ∃ u, t = o ++ (run ++ (i ++ u)) := by
  constructor
  · intro h
    rw [← isSome_matchPieces (by simp [junction]), Option.isSome_iff_exists] at h
    obtain ⟨h, hm⟩ := h
    obtain ⟨o, ho, u, g, rfl, hg, -⟩ := exists_of_matchPieces_oneOf hm
    obtain ⟨run, u, g, rfl, hrun, hg, -⟩ := exists_of_matchPieces_many hg
    obtain ⟨i, hi, u, g, rfl, -, -⟩ := exists_of_matchPieces_oneOf hg
    exact ⟨o, ho, run, hrun, i, hi, u, rfl⟩
  · rintro ⟨o, ho, run, hrun, i, hi, u, rfl⟩
    exact reads_oneOf_append ho
      (reads_many_append hrun (reads_oneOf_append hi (reads_nil_pieces u)))

end Pieces

namespace Catalog

def validOpening : Text := "gs.isValid("

def recordChain : List Piece :=
  junction [currentWord ++ ['.'], workflowWord ++ ['.']] .word [form.opening, system.opening]

def formChain : List Piece := junction [form.opening, system.opening] .letter [form.opening]

def nameChain : List Piece :=
  [.oneOf (roots.flatMap fun root => root.inits.tail), .oneOf [validOpening]]

def wordChain : List Piece := junction (roots.map (· ++ ['.'])) .word [validOpening]

def chains : List (List Piece) := [recordChain, formChain, nameChain, wordChain]

/-- No name runs on into another one where a rule would take them apart: no field of a record into a
call, no call that has been begun into a form call, and into a call for validation neither a name
that has been begun nor a word behind a name and a dot. -/
def Unchained (t : Text) : Prop := ∀ ps ∈ chains, ∀ v ∈ t.tails, matchPieces ps v = none

instance (t : Text) : Decidable (Unchained t) :=
  inferInstanceAs (Decidable (∀ ps ∈ chains, ∀ v ∈ t.tails, matchPieces ps v = none))

variable {t : Text}

theorem Unchained.free (h : Unchained t) {ps : List Piece} (hps : ps ∈ chains) : Free ps t := by
  have hend : ∀ ps ∈ chains, .lineEnd ∉ ps := by
    simp [chains, recordChain, formChain, nameChain, wordChain, junction]
  refine free_iff.2 fun v hv _ => ?_
  rw [← isSome_matchPieces (hend ps hps), h ps hps v ((List.mem_tails _ _).2 hv)]
  rfl

theorem mem_tail_inits {a root : Text} (h : a <+: root) (hne : a ≠ []) : a ∈ root.inits.tail := by
  have ha := (List.mem_inits a root).2 h
  cases root with
  | nil => exact absurd (List.prefix_nil.1 h) hne
  | cons c root =>
    rw [List.inits_cons] at ha ⊢
    exact (List.mem_cons.1 ha).resolve_left hne

theorem not_begun (hname : Free nameChain t) (hword : Free wordChain t) {root : Text}
    (hroot : root ∈ roots) {a x y : Text} (hne : a ≠ []) (hy : ∀ c ∈ y, CharClass.isWord c = true)
    (ha : a <+: root ++ '.' :: y) : ¬ a ++ (validOpening ++ x) <:+ t := by
  intro hs
  have happend : a ++ (validOpening ++ x) ≠ [] := by simp [hne]
  -- `a` ends within the name, or within the word behind the dot
  have hbegun : a <+: root ∨ ∃ z, a = (root ++ ['.']) ++ z ∧ z <+: y := by
    rcases List.prefix_or_prefix_of_prefix ha (List.prefix_append root _) with h | ⟨q, rfl⟩
    · exact Or.inl h
    · rw [List.prefix_append_right_inj] at ha
      cases q with
      | nil => exact Or.inl (by simp)
      | cons c z =>
        obtain ⟨rfl, hz⟩ := List.cons_prefix_cons.1 ha
        exact Or.inr ⟨z, by simp, hz⟩
  rcases hbegun with h | ⟨z, rfl, hz⟩
  · have hread : reads nameChain (a ++ (validOpening ++ x)) = true :=
      reads_oneOf_append (List.mem_flatMap.2 ⟨root, hroot, mem_tail_inits h hne⟩)
        (reads_oneOf_append (List.mem_singleton_self _) (reads_nil_pieces x))
    rw [free_iff.1 hname _ hs happend] at hread
    cases hread
  · have hread : reads wordChain (((root ++ ['.']) ++ z) ++ (validOpening ++ x)) = true := by
      rw [List.append_assoc]
      exact reads_junction_iff.2 ⟨_, List.mem_map_of_mem hroot, z, fun c hc => hy c (hz.subset hc),
        validOpening, List.mem_singleton_self _, x, rfl⟩
    rw [free_iff.1 hword _ hs happend] at hread
    cases hread

theorem root_mem_roots (s : CallSpace) : s.root ∈ roots := by cases s <;> simp [root, roots]

theorem exists_begun {froms intos : List Text} {k : CharClass}
    (hfroms : ∀ o ∈ froms, ∃ root ∈ roots, o = root ++ ['.'])
    (hk : ∀ c, k.has c = true → CharClass.isWord c = true)
    (hintos : ∀ i ∈ intos, ∃ s : CallSpace, i = s.opening) {a x : Text}
    (h : reads (junction froms k intos) (a ++ x) = true) :
    reads (junction froms k intos) a = true ∨
      ∃ root ∈ roots, ∃ y, (∀ c ∈ y, CharClass.isWord c = true) ∧ a <+: root ++ '.' :: y := by
  obtain ⟨o, ho, run, hrun, i, hi, u, heq⟩ := reads_junction_iff.1 h
  obtain ⟨root, hroot, rfl⟩ := hfroms o ho
  obtain ⟨s, rfl⟩ := hintos i hi
  have hsplit : a ++ x = ((root ++ '.' :: (run ++ s.root)) ++ ['.']) ++ u := by
    rw [heq, opening_eq_root]
    simp
  -- `a` ends in front of the last dot of the chain, with it, or behind it
  rcases List.prefix_or_prefix_of_prefix (List.prefix_append a x)
    (hsplit ▸ List.prefix_append _ u) with ha | ⟨v, rfl⟩
  · rcases List.prefix_concat_iff.1 ha with rfl | ha
    · refine Or.inl (reads_junction_iff.2 ⟨_, ho, run, hrun, _, hi, [], ?_⟩)
      rw [opening_eq_root]
      simp
    · refine Or.inr ⟨root, hroot, run ++ s.root, fun c hc => ?_, ha⟩
      have hword : ∀ c ∈ s.root, CharClass.isWord c = true := by cases s <;> decide
      exact (List.mem_append.1 hc).elim (fun hc => hk c (hrun c hc)) (hword c)
  · refine Or.inl (reads_junction_iff.2 ⟨_, ho, run, hrun, _, hi, v, ?_⟩)
    rw [opening_eq_root]
    simp

theorem validRule_sparesSeam {froms intos : List Text} {k : CharClass}
    (hfroms : ∀ o ∈ froms, ∃ root ∈ roots, o = root ++ ['.'])
    (hk : ∀ c, k.has c = true → CharClass.isWord c = true)
    (hintos : ∀ i ∈ intos, ∃ s : CallSpace, i = s.opening)
    (hname : Free nameChain t) (hword : Free wordChain t) :
    validRule.SparesSeam (junction froms k intos) t := by
  intro a h t' u hne hs hm hread
  rcases exists_begun hfroms hk hintos hread with hread | ⟨root, hroot, y, hy, ha⟩
  · exact reads_append_of_reads hread _
  · obtain ⟨rest, htaken⟩ := Rule.exists_taken_eq hm
    rw [htaken, List.append_assoc] at hs
    exact absurd hs (not_begun hname hword hroot hne hy ha)

end Catalog

end GlideBridge
