import GlideBridge.Proofs.Chains
import GlideBridge.Proofs.Passing

/-! Hits that run on over the end of a line. What a firm pattern takes does not depend on what
stands behind it, so a rule does to a line what it does to the line alone, unless a hit begins in
the line that only the text behind the line break completes. -/

namespace GlideBridge

open Text Pieces

theorem Spells.split {ps qs : List Piece} {h : Hit} (hs : Spells (ps ++ qs) h) :
    ∃ f g, Spells ps f ∧ Spells qs g ∧ h.taken = f.taken ++ g.taken ∧
      h.fields = f.fields ++ g.fields := by
  generalize hl : ps ++ qs = l at hs
  induction hs generalizing ps with
  | nil =>
    obtain ⟨rfl, rfl⟩ := List.append_eq_nil_iff.1 hl
    exact ⟨⟨[], []⟩, ⟨[], []⟩, .nil, .nil, rfl, rfl⟩
  | @cons p l w fs h hp hs ih =>
    rcases List.append_eq_cons_iff.1 hl with ⟨rfl, rfl⟩ | ⟨ps, rfl, rfl⟩
    · exact ⟨⟨[], []⟩, _, .nil, .cons hp hs, rfl, rfl⟩
    · obtain ⟨f, g, hf, hg, ht, hc⟩ := ih rfl
      exact ⟨f.extend w fs, g, .cons hp hf, hg, by simp [ht], by simp [hc]⟩

theorem Spells.suffix_of_getLast? {ps : List Piece} {h : Hit} (hs : Spells ps h) {w : Text}
    (hw : ps.getLast? = some (.literal w)) : w <:+ h.taken := by
  obtain ⟨qs, rfl⟩ := List.getLast?_eq_some_iff.1 hw
  obtain ⟨f, g, -, hg, ht, -⟩ := hs.split
  cases hg with
  | literal _ hg =>
    cases hg
    exact ⟨f.taken, by simp [ht]⟩

theorem Piece.Takes.reads_append {p : Piece} {ps : List Piece} {w t : Text} {fs : List Text}
    (hp : p.Takes w fs) (hend : p ≠ .lineEnd) (h : reads ps t = true) :
    reads (p :: ps) (w ++ t) = true := by
  cases hp with
  | literal w => exact (reads_literal_append w ps t).trans h
  | one hk => rw [List.singleton_append, reads_one_cons, hk, h, Bool.and_self]
  | many hw => exact reads_many_append hw h
  | @field k w hne hw =>
    obtain ⟨c, w, rfl⟩ := List.exists_cons_of_ne_nil hne
    rw [List.forall_mem_cons] at hw
    rw [List.cons_append, reads_field_cons, hw.1, reads_many_append hw.2 h, Bool.and_self]
  | oneOf hw => exact reads_oneOf_append hw h
  | present c => simp [reads_optional_cons, h]
  | absent c =>
    cases t with
    | nil => exact h
    | cons d t => rw [List.nil_append, reads_optional_cons, h, Bool.or_true]
  | lineEnd => exact absurd rfl hend

theorem Spells.reads_taken {ps : List Piece} {h : Hit} (hs : Spells ps h)
    (hend : .lineEnd ∉ ps) : reads ps h.taken = true := by
  induction hs with
  | nil => exact reads_nil_pieces []
  | cons hp _ ih =>
    rw [List.mem_cons, not_or] at hend
    exact hp.reads_append (Ne.symm hend.1) (ih hend.2)

namespace Pieces

variable {ps : List Piece} {k : CharClass} {t v u b : Text} {h : Hit}

theorem exists_taken_of_none (hend : .lineEnd ∉ ps) {c : Char} (hnone : matchPieces ps v = none)
    (hm : matchPieces ps (v ++ c :: b) = some h) :
    ∃ x y, h.taken = v ++ c :: x ∧ b = x ++ y := by
  have within {x : Text} (hv : v = h.taken ++ x) : False := by
    have hread := reads_append_of_reads ((spells_of_match hm).reads_taken hend) x
    rw [← hv, ← isSome_matchPieces hend, hnone] at hread
    cases hread
  obtain ⟨y, hy⟩ := taken_append_of_match hm
  rcases List.append_eq_append_iff.1 hy with ⟨x, hx, hb⟩ | ⟨x, hx, -⟩
  · cases x with
    | nil => exact (within (x := []) (by simpa using hx.symm)).elim
    | cons d x =>
      obtain ⟨rfl, rfl⟩ := List.cons.inj hb
      exact ⟨x, y, hx, rfl⟩
  · exact (within hx).elim

def stops (k : CharClass) : List Piece → Bool
  | .literal (d :: _) :: _ => !k.has d
  | .one .quote :: _ => !k.has '"' && !k.has '\''
  | _ => false

theorem stops_of_stops (hs : stops k ps = true) : Stops k ps := by
  unfold stops at hs
  split at hs
  · next d w ps => exact stops_literal (by simpa using hs) w ps
  · simp only [Bool.and_eq_true, Bool.not_eq_true'] at hs
    intro c hc
    simp only [mayOpen, CharClass.has, CharClass.isQuote, Bool.or_eq_false_iff,
      beq_eq_false_iff_ne]
    constructor
    · rintro rfl
      rw [hs.1] at hc
      cases hc
    · rintro rfl
      rw [hs.2] at hc
      cases hc
  · cases hs

/-- What a hit takes does not depend on what stands behind it. -/
def firm : List Piece → Bool
  | [] => true
  | .literal _ :: ps | .one _ :: ps => firm ps
  | .many k :: .field (.except d) :: .literal [e] :: ps => d == e && !k.has d && firm ps
  | .many k :: ps | .field k :: ps => stops k ps && firm ps
  | _ => false

theorem longest_append {next : Text → Option Hit} {d : Char} (hd : k.has d = false) {w y u : Text}
    (hnext : ∀ x, x <:+ w → next (x ++ d :: (y ++ u)) = next (x ++ d :: y)) :
    longest k next (w ++ d :: (y ++ u)) = longest k next (w ++ d :: y) := by
  induction w with
  | nil =>
    have hempty : next (d :: (y ++ u)) = next (d :: y) := hnext [] List.suffix_rfl
    simp only [List.nil_append, longest, hd, hempty, Bool.false_eq_true, if_false]
  | cons c w ih =>
    have hwhole : next (c :: (w ++ d :: (y ++ u))) = next (c :: (w ++ d :: y)) :=
      hnext (c :: w) List.suffix_rfl
    simp only [List.cons_append, longest, hwhole,
      ih fun x hx => hnext x (hx.trans (List.suffix_cons c w))]

theorem matchPieces_append_of_except {d : Char} (hd : k.has d = false)
    (hfirm : ∀ y g, matchPieces ps y = some g → matchPieces ps (y ++ u) = some g)
    (hm : matchPieces (.many k :: .field (.except d) :: .literal [d] :: ps) t = some h) :
    matchPieces (.many k :: .field (.except d) :: .literal [d] :: ps) (t ++ u) = some h := by
  obtain ⟨run, x, g, rfl, hrun, hg, -⟩ := exists_of_matchPieces_many hm
  obtain ⟨f, x, g, rfl, -, hf, hg, -⟩ := exists_of_matchPieces_field hg
  obtain ⟨y, g, rfl, hy, -⟩ := matchPieces_literal_eq_some_iff.1 hg
  have hnotMem : d ∉ run ++ f := by
    intro hmem
    rcases List.mem_append.1 hmem with hmem | hmem
    · rw [hrun d hmem] at hd
      cases hd
    · simpa [CharClass.has] using hf d hmem
  -- wherever the blanks end, the field goes on to the same `d`
  have hnext (x : Text) (hx : x <:+ run ++ f) :
      matchPieces (.field (.except d) :: .literal [d] :: ps) (x ++ d :: (y ++ u)) =
        matchPieces (.field (.except d) :: .literal [d] :: ps) (x ++ d :: y) := by
    have hstop : (CharClass.except d).has d = false := by simp [CharClass.has]
    cases x with
    | nil => simp [matchPieces, hstop]
    | cons c x =>
      have hall := CharClass.has_except fun hmem => hnotMem (hx.subset hmem)
      have hfield {z : Text} (hz : matchPieces ps z = some g) :
          matchPieces (.field (.except d) :: .literal [d] :: ps) (c :: x ++ d :: z) =
            some ((g.after [d]).capture (c :: x)) :=
        matchPieces_field_append (List.cons_ne_nil c x) hall (has_head_cons hstop _)
          (matchPieces_literal_some [d] hz)
      rw [hfield hy, hfield (hfirm y g hy)]
  have htext (z : Text) : run ++ (f ++ ([d] ++ z)) = (run ++ f) ++ d :: z := by simp
  have htexts : run ++ (f ++ ([d] ++ y)) ++ u = (run ++ f) ++ d :: (y ++ u) := by simp
  rw [htexts, matchPieces, longest_append hd hnext, ← htext, ← matchPieces, hm]

theorem matchPieces_append_of_firm (hf : firm ps = true) (hm : matchPieces ps t = some h)
    (u : Text) : matchPieces ps (t ++ u) = some h := by
  induction ps using firm.induct generalizing t h with
  | case1 => exact hm
  | case2 w ps ih =>
    obtain ⟨v, g, rfl, hg, rfl⟩ := matchPieces_literal_eq_some_iff.1 hm
    rw [List.append_assoc]
    exact matchPieces_literal_some w (ih hf hg)
  | case3 k ps ih =>
    obtain ⟨c, v, g, rfl, hc, hg, rfl⟩ := matchPieces_one_eq_some_iff.1 hm
    exact matchPieces_one_cons hc (ih hf hg)
  | case4 k d e ps ih =>
    simp only [firm, Bool.and_eq_true, beq_iff_eq, Bool.not_eq_true'] at hf
    obtain ⟨⟨rfl, hd⟩, hf⟩ := hf
    exact matchPieces_append_of_except hd (fun y g => ih hf) hm
  | case5 k ps _ ih =>
    rw [firm, Bool.and_eq_true] at hf
    · have hs := stops_of_stops hf.1
      obtain ⟨run, v, g, rfl, hrun, hg, rfl⟩ := exists_of_matchPieces_many hm
      exact (matchPieces_many_eq_some_iff hs).2
        ⟨run, v ++ u, g, List.append_assoc .., hrun, ih hf.2 hg, rfl⟩
    · assumption
  | case6 k ps ih =>
    rw [firm, Bool.and_eq_true] at hf
    have hs := stops_of_stops hf.1
    obtain ⟨run, v, g, rfl, hne, hrun, hg, rfl⟩ := exists_of_matchPieces_field hm
    exact (matchPieces_field_eq_some_iff hs).2
      ⟨run, v ++ u, g, List.append_assoc .., hne, hrun, ih hf.2 hg, rfl⟩
  | case7 ps => simp [firm] at hf

end Pieces

namespace Pattern

/-- From left to right, some hit begins in the line that only the text behind a line break
completes. -/
inductive RunsOn (p : Pattern) : Text → Prop
  | here {t b : Text} {h : Hit} : matchPieces p.steps t = none →
      matchPieces p.steps (t ++ '\n' :: b) = some h → RunsOn p t
  | kept {c : Char} {t : Text} : matchPieces p.steps (c :: t) = none → RunsOn p t →
      RunsOn p (c :: t)
  | hit {h : Hit} {t : Text} : matchPieces p.steps (h.taken ++ t) = some h → RunsOn p t →
      RunsOn p (h.taken ++ t)

variable {p : Pattern} {t : Text}

theorem RunsOn.exists_suffix (h : p.RunsOn t) (hnew : '\n' ∉ p.opening) :
    ∃ v b g, p.opening <+: v ∧ v <:+ t ∧ matchPieces p.steps v = none ∧
      matchPieces p.steps (v ++ '\n' :: b) = some g := by
  induction h with
  | @here t b g hnone hm =>
    obtain ⟨u, -, hu, -⟩ := matchPieces_literal_eq_some_iff.1 hm
    have hopening := (prefix_append_cons_iff hnew t b).1 ⟨u, hu.symm⟩
    exact ⟨t, b, g, hopening, List.suffix_rfl, hnone, hm⟩
  | @kept c t _ _ ih =>
    obtain ⟨v, b, g, hv, hs, h⟩ := ih
    exact ⟨v, b, g, hv, hs.trans (List.suffix_cons c t), h⟩
  | @hit g t _ _ ih =>
    obtain ⟨v, b, g', hv, hs, h⟩ := ih
    exact ⟨v, b, g', hv, hs.trans (List.suffix_append g.taken t), h⟩

end Pattern

namespace Rule

variable {r : Rule} {t u : Text}

theorem ne_nil_of_runsOn (hr : r.isInline = true) (h : r.pattern.RunsOn t) : t ≠ [] := by
  cases h with
  | here _ hm =>
    rintro rfl
    rw [List.nil_append, matchPieces_line_break hr] at hm
    cases hm
  | kept _ _ => exact List.cons_ne_nil _ _
  | hit hm _ => exact List.append_ne_nil_of_left_ne_nil (Pattern.taken_ne_nil hm) _

theorem apply_append_line_break (hr : r.isInline = true) (hf : firm r.pattern.steps = true)
    (ht : ¬ r.pattern.RunsOn t) (b : Text) :
    r.apply (t ++ '\n' :: b) = r.apply t ++ '\n' :: r.apply b := by
  have hp := lineStart_of_isInline hr
  induction t using r.pattern.scan_induction with
  | nil => exact apply_line_break hr b
  | kept c t hm ih =>
    have hnone : matchPieces r.pattern.steps (c :: (t ++ '\n' :: b)) = none := by
      rw [Option.eq_none_iff_forall_ne_some]
      exact fun h hlonger => ht (.here hm hlonger)
    rw [List.cons_append, apply_kept hp hnone, ih fun h => ht (.kept hm h), apply_kept hp hm,
      List.cons_append]
  | hit h t hm ih =>
    have hlonger := matchPieces_append_of_firm hf hm ('\n' :: b)
    rw [List.append_assoc] at hlonger
    rw [List.append_assoc, apply_hit hp hlonger, ih fun h => ht (.hit hm h), apply_hit hp hm,
      List.append_assoc]

theorem run_append_line_break {rs : List Rule} (hr : ∀ r ∈ rs, r.isInline = true)
    (hf : ∀ r ∈ rs, firm r.pattern.steps = true)
    (ht : ∀ (i : ℕ) (r : Rule), rs[i]? = some r → ¬ r.pattern.RunsOn (run (rs.take i) t))
    (b : Text) :
    run rs (t ++ '\n' :: b) = run rs t ++ '\n' :: run rs b := by
  induction rs generalizing t b with
  | nil => rfl
  | cons r rs ih =>
    rw [List.forall_mem_cons] at hr hf
    have hstep := apply_append_line_break hr.1 hf.1 (ht 0 r rfl) b
    have hrest := ih hr.2 hf.2 (fun i r' h => ht (i + 1) r' h) (r.apply b)
    exact (congrArg (run rs) hstep).trans hrest

end Rule

end GlideBridge
