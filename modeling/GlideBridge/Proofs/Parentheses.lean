import GlideBridge.Proofs.RunningOn

/-! How deep the parentheses of a text are, in a measure that no rule for form calls raises. The
plain depth will not do, since a rule can repeat an argument with an open parenthesis in it or take
an empty pair away. Here parentheses that are open count once, and one in front of which another is
open counts again as long as it is the last character. That no rule raises this is computed from the
pattern and the template, with bounds for what stands in the fields. -/

namespace GlideBridge

open Text Pieces

namespace Text

def nest (d : ℕ) (c : Char) : ℕ :=
  if c = '(' then min (d + 1) 2 else if c = ')' then d - 1 else min d 1

def depth (d : ℕ) (t : Text) : ℕ := t.foldl nest d

/-- Each closing parenthesis has its opening one in front of it, and each opening one is closed. -/
def Balanced (t : Text) : Prop := (∀ u ∈ t.inits, 0 ≤ balance u) ∧ balance t = 0

instance (t : Text) : Decidable (Balanced t) :=
  inferInstanceAs (Decidable ((∀ u ∈ t.inits, 0 ≤ balance u) ∧ balance t = 0))

variable {d e : ℕ} {c : Char} {t : Text}

theorem depth_cons (d : ℕ) (c : Char) (t : Text) : depth d (c :: t) = depth (nest d c) t := rfl

theorem depth_append (d : ℕ) (t u : Text) : depth d (t ++ u) = depth (depth d t) u :=
  List.foldl_append

theorem nest_open (d : ℕ) : nest d '(' = min (d + 1) 2 := rfl

theorem nest_of_ne (ho : c ≠ '(') (hc : c ≠ ')') (d : ℕ) : nest d c = min d 1 := by
  rw [nest, if_neg ho, if_neg hc]

theorem nest_mono (h : d ≤ e) (c : Char) : nest d c ≤ nest e c := by
  unfold nest
  split
  · omega
  · split <;> omega

theorem nest_le_two (h : d ≤ 2) (c : Char) : nest d c ≤ 2 := by
  unfold nest
  split
  · omega
  · split <;> omega

theorem min_le_nest (hc : c ≠ ')') (d : ℕ) : min d 1 ≤ nest d c := by
  unfold nest
  split
  · omega
  · exact le_rfl

theorem depth_mono (h : d ≤ e) (t : Text) : depth d t ≤ depth e t := by
  induction t generalizing d e with
  | nil => exact h
  | cons c t ih => exact ih (nest_mono h c)

theorem depth_le_two (h : d ≤ 2) (t : Text) : depth d t ≤ 2 := by
  induction t generalizing d with
  | nil => exact h
  | cons c t ih => exact ih (nest_le_two h c)

theorem min_le_depth (ht : ')' ∉ t) (d : ℕ) : min d 1 ≤ depth d t := by
  induction t generalizing d with
  | nil => exact min_le_left d 1
  | cons c t ih =>
    rw [List.mem_cons, not_or] at ht
    have hc := min_le_nest (Ne.symm ht.1) d
    have hrest := ih ht.2 (nest d c)
    rw [depth_cons]
    omega

theorem depth_of_plain (hne : t ≠ []) (ht : ∀ c ∈ t, c ≠ '(' ∧ c ≠ ')') (d : ℕ) :
    depth d t = min d 1 := by
  induction t generalizing d with
  | nil => exact absurd rfl hne
  | cons c t ih =>
    rw [List.forall_mem_cons] at ht
    rw [depth_cons, nest_of_ne ht.1.1 ht.1.2]
    cases t with
    | nil => rfl
    | cons e t =>
      rw [ih (List.cons_ne_nil e t) ht.2]
      omega

theorem one_le_depth {a b : Text} (hb : ')' ∉ b) (d : ℕ) : 1 ≤ depth d (a ++ '(' :: b) := by
  have h := min_le_depth hb (nest (depth d a) '(')
  rw [depth_append, depth_cons]
  rw [nest_open] at h ⊢
  omega

theorem depth_le_balance {n : ℤ} (hd : (d : ℤ) ≤ n) (ht : ∀ u, u <+: t → 0 ≤ n + balance u) :
    (depth d t : ℤ) ≤ n + balance t := by
  induction t generalizing d n with
  | nil => simpa [depth, balance] using hd
  | cons c t ih =>
    have hsplit (u : Text) : n + balance (c :: u) = (n + balance [c]) + balance u := by
      rw [← List.singleton_append, balance_append]
      omega
    have hstep : (nest d c : ℤ) ≤ n + balance [c] := by
      have hpos := ht [c] ⟨t, rfl⟩
      by_cases ho : c = '('
      · subst ho
        simp [nest, balance] at hpos ⊢
        omega
      · by_cases hc : c = ')'
        · subst hc
          simp [nest, balance] at hpos ⊢
          omega
        · simp [nest, balance, ho, hc] at hpos ⊢
          omega
    rw [hsplit]
    refine ih hstep fun u hu => ?_
    rw [← hsplit]
    exact ht (c :: u) (List.cons_prefix_cons.2 ⟨rfl, hu⟩)

theorem Balanced.depth_eq_zero (h : Balanced t) : depth 0 t = 0 := by
  have hle := depth_le_balance (d := 0) (n := 0) (by simp) fun u hu => by
    simpa using h.1 u ((List.mem_inits u t).2 hu)
  rw [h.2] at hle
  omega

end Text

namespace CharClass

theorem plain_of_isNeutral {k : CharClass} (hk : k.isNeutral = true) {c : Char}
    (hc : k.has c = true) : c ≠ '(' ∧ c ≠ ')' := by
  have h := isNeutral_has hk hc
  simp only [Text.isNeutral, Bool.and_eq_true, bne_iff_ne] at h
  exact ⟨h.1.2, h.2⟩

/-- No less than this is open behind characters of the class. -/
def floor (k : CharClass) (d : ℕ) : ℕ := if k.has ')' then 0 else min d 1

theorem floor_le_depth {k : CharClass} {t : Text} (ht : ∀ c ∈ t, k.has c = true) {d e : ℕ}
    (h : d ≤ e) : k.floor d ≤ depth e t := by
  unfold floor
  split
  · exact Nat.zero_le _
  · next hk =>
    have hclose := min_le_depth (t := t) (fun hm => hk (ht _ hm)) e
    omega

end CharClass

namespace Piece

def floor : Piece → ℕ → ℕ
  | literal w, d => depth d w
  | one k, d | many k, d | field k, d => k.floor d
  | oneOf _, _ | optional _, _ | lineEnd, _ => 0

end Piece

theorem Piece.Takes.floor_le_depth {p : Piece} {w : Text} {fs : List Text} (hp : p.Takes w fs)
    {d e : ℕ} (hde : d ≤ e) : p.floor d ≤ depth e w := by
  cases hp with
  | literal w => exact depth_mono hde w
  | one hc => exact CharClass.floor_le_depth (List.forall_mem_singleton.2 hc) hde
  | many hw => exact CharClass.floor_le_depth hw hde
  | field _ hw => exact CharClass.floor_le_depth hw hde
  | oneOf _ => exact Nat.zero_le _
  | present _ => exact Nat.zero_le _
  | absent _ => exact Nat.zero_le _
  | lineEnd => exact Nat.zero_le _

namespace Pieces

variable {ps : List Piece} {h : Hit} {d e : ℕ}

theorem floor_le_depth (hs : Spells ps h) (hde : d ≤ e) :
    ps.foldl (fun d p => p.floor d) d ≤ depth e h.taken := by
  induction hs generalizing d e with
  | nil => exact hde
  | cons hp _ ih =>
    rw [List.foldl_cons, Hit.extend_taken, depth_append]
    exact ih (hp.floor_le_depth hde)

def nextField : ℕ → List Piece → Option (ℕ × CharClass × List Piece)
  | _, [] => none
  | d, .field k :: ps => some (d, k, ps)
  | d, p :: ps => nextField (p.floor d) ps

theorem exists_of_nextField {k : CharClass} {qs : List Piece} {m : ℕ}
    (hn : nextField d ps = some (m, k, qs)) (hs : Spells ps h) (hde : d ≤ e) :
    ∃ a run g, h.taken = a ++ (run ++ g.taken) ∧ h.fields = run :: g.fields ∧ Spells qs g ∧
      run ≠ [] ∧ (∀ c ∈ run, k.has c = true) ∧ m ≤ depth e a := by
  induction hs generalizing d e with
  | nil => cases hn
  | @cons p ps w fs h hp hs ih =>
    by_cases hfield : p.isField = true
    · cases hp with
      | field hne hw =>
        cases hn
        exact ⟨[], w, h, rfl, rfl, hs, hne, hw, hde⟩
      | _ => cases hfield
    · -- a piece in front of the field moves what it takes in front of it
      have hnext : nextField (p.floor d) ps = some (m, k, qs) := by
        cases p with
        | field k => exact absurd rfl hfield
        | _ => exact hn
      have hfs : fs = [] := by
        have := hp.length_fields
        rwa [if_neg hfield, List.length_eq_zero_iff] at this
      obtain ⟨a, run, g, ht, hf, hg, hne, hrun, hm⟩ := ih hnext (hp.floor_le_depth hde)
      exact ⟨w ++ a, run, g, by simp [ht], by simp [hfs, hf], hg, hne, hrun, by rwa [depth_append]⟩

end Pieces

namespace Template

/-- No more is open behind the template than behind the pieces, where `u` is open at most in front
of the one and `d` at least in front of the others. The next field of the pieces has the number
`i`, and is compared with its last place in the template. -/
def sinks (i u d : ℕ) (ps : List Piece) : Template → Bool
  | [] => u ≤ ps.foldl (fun d p => p.floor d) d
  | .text l :: ts => sinks i (depth u l) d ps ts
  | .field j :: ts =>
    if ts.contains (.field j) then sinks i 2 d ps ts
    else match nextField d ps with
      | none => false
      | some (m, k, qs) => j == i &&
        if k.isNeutral then sinks (i + 1) (min u 1) (min m 1) qs ts
        else decide (u ≤ m) && (List.range 3).all fun e =>
          (List.range (e + 1)).all fun v => sinks (i + 1) v e qs ts

theorem depth_fill_le {ps : List Piece} {template : Template} {h : Hit} {fs : List Text}
    {u v d e : ℕ} (hsinks : sinks fs.length u d ps template = true) (hs : Spells ps h)
    (hv : v ≤ u) (hu : u ≤ 2) (hde : d ≤ e) (he : e ≤ 2) :
    depth v (template.flatMap (·.fill (fs ++ h.fields))) ≤ depth e h.taken := by
  induction template generalizing ps h fs u v d e with
  | nil =>
    simp only [sinks, decide_eq_true_eq] at hsinks
    exact (hv.trans hsinks).trans (floor_le_depth hs hde)
  | cons q ts ih =>
    rw [List.flatMap_cons, depth_append]
    cases q with
    | text l =>
      exact ih hsinks hs (depth_mono hv l) (depth_le_two hu l) hde he
    | field j =>
      rw [sinks] at hsinks
      split at hsinks
      · exact ih hsinks hs (depth_le_two (hv.trans hu) _) le_rfl hde he
      · split at hsinks
        · cases hsinks
        · next m k qs hn =>
          rw [Bool.and_eq_true, beq_iff_eq] at hsinks
          obtain ⟨rfl, hsinks⟩ := hsinks
          obtain ⟨a, run, g, ht, hf, hg, hne, hrun, hm⟩ := exists_of_nextField hn hs hde
          have hfill : (TemplatePart.field fs.length).fill (fs ++ h.fields) = run := by
            simp [hf]
          have hfields : fs ++ h.fields = (fs ++ [run]) ++ g.fields := by simp [hf]
          have hlength : (fs ++ [run]).length = fs.length + 1 := by simp
          rw [hfill, hfields, ht, depth_append, depth_append]
          rw [← hlength] at hsinks
          split at hsinks
          · next hk =>
            have hplain := fun d =>
              depth_of_plain hne (fun c hc => CharClass.plain_of_isNeutral hk (hrun c hc)) d
            rw [hplain, hplain]
            exact ih hsinks hg (by omega) (by omega) (by omega) (by omega)
          · simp only [Bool.and_eq_true, decide_eq_true_eq, List.all_eq_true, List.mem_range]
              at hsinks
            -- the field is the same on both sides, so what is open behind it is compared
            have hle : depth v run ≤ depth (depth e a) run :=
              depth_mono ((hv.trans hsinks.1).trans hm) run
            have htwo : depth (depth e a) run ≤ 2 := depth_le_two (depth_le_two he a) run
            exact ih (hsinks.2 _ (by omega) _ (by omega)) hg le_rfl (hle.trans htwo) le_rfl htwo

end Template

namespace Rule

variable {r : Rule} {t : Text} {d e : ℕ}

/-- What the rule writes leaves no more open than what it takes. -/
def sinks (r : Rule) : Bool :=
  (List.range 3).all fun e => (List.range (e + 1)).all fun d =>
    Template.sinks 0 d e r.pattern.steps r.template

theorem depth_fill_le (hr : r.sinks = true) {h : Hit} (hs : Spells r.pattern.steps h)
    (hde : d ≤ e) (he : e ≤ 2) : depth d (r.fill h) ≤ depth e h.taken := by
  simp only [sinks, List.all_eq_true, List.mem_range] at hr
  have hsinks : Template.sinks ([] : List Text).length d e r.pattern.steps r.template = true :=
    hr e (by omega) d (by omega)
  exact Template.depth_fill_le hsinks hs le_rfl (hde.trans he) le_rfl he

theorem depth_apply_le (hp : r.pattern.lineStart = false) (hr : r.sinks = true) (hde : d ≤ e)
    (he : e ≤ 2) (t : Text) : depth d (r.apply t) ≤ depth e t := by
  induction t using r.pattern.scan_induction generalizing d e with
  | nil => exact hde
  | kept c t hm ih =>
    rw [apply_kept hp hm]
    exact ih (nest_mono hde c) (nest_le_two he c)
  | hit h t hm ih =>
    rw [apply_hit hp hm, depth_append, depth_append]
    exact ih (depth_fill_le hr (spells_of_match hm) hde he) (depth_le_two he _)

theorem depth_run_le {rs : List Rule} (hp : ∀ r ∈ rs, r.pattern.lineStart = false)
    (hr : ∀ r ∈ rs, r.sinks = true) (hd : d ≤ 2) (t : Text) : depth d (run rs t) ≤ depth d t := by
  refine run_induction (P := fun u => depth d u ≤ depth d t) (fun r hmem u hu => ?_) le_rfl
  exact (depth_apply_le (hp r hmem) (hr r hmem) le_rfl hd u).trans hu

end Rule

namespace Piece

def lacks (c : Char) : Piece → Bool
  | literal w => !w.contains c
  | one k | many k | field k => !k.has c
  | oneOf ws => ws.all (!·.contains c)
  | optional d => d != c
  | lineEnd => true

end Piece

theorem Piece.Takes.not_mem {p : Piece} {w : Text} {fs : List Text} (ht : p.Takes w fs) {c : Char}
    (hp : p.lacks c = true) : c ∉ w := by
  have outside {k : CharClass} {w : Text} (hk : k.has c = false) (hw : ∀ d ∈ w, k.has d = true) :
      c ∉ w := by
    intro hm
    rw [hw c hm] at hk
    cases hk
  cases ht with
  | literal w => simpa [Piece.lacks] using hp
  | @one k d hk => exact outside (by simpa [Piece.lacks] using hp) (List.forall_mem_singleton.2 hk)
  | many hw => exact outside (by simpa [Piece.lacks] using hp) hw
  | field _ hw => exact outside (by simpa [Piece.lacks] using hp) hw
  | oneOf hw => simpa using List.all_eq_true.1 hp _ hw
  | present d =>
    have hd : d ≠ c := by simpa [Piece.lacks] using hp
    exact fun hm => hd (List.mem_singleton.1 hm).symm
  | absent _ => simp
  | lineEnd => simp

theorem Spells.not_mem_taken {ps : List Piece} {h : Hit} (hs : Spells ps h) {c : Char}
    (hp : ∀ p ∈ ps, p.lacks c = true) : c ∉ h.taken := by
  induction hs with
  | nil => simp
  | cons ht _ ih =>
    rw [List.forall_mem_cons] at hp
    rw [Hit.extend_taken, List.mem_append, not_or]
    exact ⟨ht.not_mem hp.1, ih hp.2⟩

namespace Pattern

def closesFirst (p : Pattern) : Bool :=
  p.opening.getLast? == some '(' && p.pieces.getLast? == some (.literal [')']) &&
    p.pieces.dropLast.all (Piece.lacks ')')

theorem exists_taken_of_closesFirst {p : Pattern} (hp : p.closesFirst = true) {h : Hit}
    (hs : Spells p.steps h) :
    ∃ o z, p.opening = o ++ ['('] ∧ h.taken = p.opening ++ (z ++ [')']) ∧ ')' ∉ z := by
  simp only [closesFirst, Bool.and_eq_true, beq_iff_eq, List.all_eq_true] at hp
  obtain ⟨⟨hopening, hlast⟩, hlacks⟩ := hp
  obtain ⟨o, ho⟩ := List.getLast?_eq_some_iff.1 hopening
  obtain ⟨qs, hqs⟩ := List.getLast?_eq_some_iff.1 hlast
  rw [hqs, List.dropLast_concat] at hlacks
  rw [steps, hqs] at hs
  cases hs with
  | literal _ hs =>
    obtain ⟨f, g, hf, hg, ht, -⟩ := hs.split
    cases hg with
    | literal _ hg =>
      cases hg
      exact ⟨o, f.taken, ho, by simp [ht], hf.not_mem_taken hlacks⟩

theorem RunsOn.one_le_depth {p : Pattern} {t : Text} (h : p.RunsOn t) (hnew : '\n' ∉ p.opening)
    (hend : .lineEnd ∉ p.steps) (hp : p.closesFirst = true) (d : ℕ) : 1 ≤ depth d t := by
  obtain ⟨v, b, g, ⟨z, rfl⟩, ⟨s, rfl⟩, hnone, hm⟩ := h.exists_suffix hnew
  obtain ⟨o, y, ho, htaken, hy⟩ := exists_taken_of_closesFirst hp (spells_of_match hm)
  obtain ⟨x, -, hcross, -⟩ := exists_taken_of_none hend hnone hm
  -- what has been read of the call ends in front of its closing parenthesis
  have hz : ')' ∉ z := by
    rw [htaken, List.append_assoc, List.append_cancel_left_eq] at hcross
    rcases List.append_eq_append_iff.1 hcross with ⟨w, hzw, hw⟩ | ⟨w, rfl, -⟩
    · cases w with
      | nil => simpa [hzw] using hy
      | cons c w => simp at hw
    · exact fun hm => hy (List.mem_append_left w hm)
  have hsplit : s ++ (p.opening ++ z) = (s ++ o) ++ '(' :: z := by simp [ho]
  rw [hsplit]
  exact Text.one_le_depth hz d

theorem not_runsOn_of_pieces_nil {p : Pattern} (hnew : '\n' ∉ p.opening) (hp : p.pieces = [])
    (t : Text) : ¬ p.RunsOn t := by
  intro h
  obtain ⟨v, b, g, ⟨z, rfl⟩, -, hnone, -⟩ := h.exists_suffix hnew
  rw [steps, hp, matchPieces_literal_append] at hnone
  cases hnone

end Pattern

end GlideBridge
