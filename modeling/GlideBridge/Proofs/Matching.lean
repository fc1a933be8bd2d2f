import GlideBridge.Pattern.Scan
import Mathlib.Data.List.Basic
import Mathlib.Tactic.Common

/-! What the hits of a pattern are made of, and where they can begin. A run whose class the rest
of the pattern cannot begin with never gives a character back, so it ends at the first character
outside its class. -/

namespace GlideBridge

/-- What holds of all characters of a text is decided along the text. Without the priority the
search for an instance could go through all characters there are. -/
instance (priority := high) Text.decidableForallMem {p : Char → Prop} [DecidablePred p] (t : Text) :
    Decidable (∀ c ∈ t, p c) := List.decidableBAll p t

theorem CharClass.isWord_range {c : Char} (h : isWord c = true) :
    48 ≤ c.toNat ∧ c.toNat ≤ 122 := by
  delta isWord Char.isAlphanum Char.isAlpha Char.isUpper Char.isLower Char.isDigit at h
  simp only [Bool.or_eq_true, Bool.and_eq_true, decide_eq_true_eq, beq_iff_eq, ge_iff_le,
    UInt32.le_iff_toNat_le] at h
  rcases h with ((h | h) | h) | rfl
  · exact ⟨Nat.le_trans (by decide) h.1, Nat.le_trans h.2 (by decide)⟩
  · exact ⟨Nat.le_trans (by decide) h.1, Nat.le_trans h.2 (by decide)⟩
  · exact ⟨Nat.le_trans (by decide) h.1, Nat.le_trans h.2 (by decide)⟩
  · decide

/-- One of the two texts begins with the other. -/
def Text.agree (a b : Text) : Bool := a.isPrefixOf b || b.isPrefixOf a

theorem Text.agree_of_isPrefix {a b t : Text} (ha : a <+: t) (hb : b <+: t) :
    agree a b = true := by
  simp only [agree, Bool.or_eq_true, List.isPrefixOf_iff_prefix]
  exact List.prefix_or_prefix_of_prefix ha hb

theorem Text.eq_of_append_cons {d : Char} {a b x y : Text} (ha : d ∉ a) (hb : d ∉ b)
    (h : a ++ d :: x = b ++ d :: y) : a = b := by
  have take_eq {a x : Text} (ha : d ∉ a) : (a ++ d :: x).takeWhile (· != d) = a := by
    have hall : ∀ c ∈ a, (c != d) = true := fun c hc => by
      simpa using fun he : c = d => ha (he ▸ hc)
    rw [List.takeWhile_append_of_pos hall, List.takeWhile_cons_of_neg (by simp), List.append_nil]
  rw [← take_eq (x := x) ha, h, take_eq hb]

theorem Text.prefix_append_cons_iff {x : Char} {w : Text} (hw : x ∉ w) (t u : Text) :
    w <+: t ++ x :: u ↔ w <+: t := by
  induction t generalizing w with
  | nil =>
    cases w with
    | nil => simp
    | cons c w =>
      have hc : c ≠ x := fun h => hw (h ▸ List.mem_cons_self)
      simp [List.cons_prefix_cons, hc]
  | cons d t ih =>
    cases w with
    | nil => simp
    | cons c w =>
      rw [List.cons_append, List.cons_prefix_cons, List.cons_prefix_cons,
        ih fun h => hw (List.mem_cons_of_mem c h)]

namespace Hit

@[simp] theorem after_taken (w : Text) (h : Hit) : (h.after w).taken = w ++ h.taken := rfl

@[simp] theorem after_fields (w : Text) (h : Hit) : (h.after w).fields = h.fields := rfl

@[simp] theorem after_nil : after [] = id := rfl

theorem after_comp_after (v w : Text) : Hit.after v ∘ Hit.after w = Hit.after (v ++ w) := by
  funext h
  simp [after]

@[simp] theorem capture_taken (w : Text) (h : Hit) : (h.capture w).taken = w ++ h.taken := rfl

@[simp] theorem capture_fields (w : Text) (h : Hit) : (h.capture w).fields = w :: h.fields := rfl

@[simp] theorem extend_taken (w : Text) (fs : List Text) (h : Hit) :
    (h.extend w fs).taken = w ++ h.taken := rfl

@[simp] theorem extend_fields (w : Text) (fs : List Text) (h : Hit) :
    (h.extend w fs).fields = fs ++ h.fields := rfl

end Hit

/-- A hit put together piece by piece, whatever text follows it. -/
inductive Spells : List Piece → Hit → Prop
  | nil : Spells [] ⟨[], []⟩
  | literal {ps h} (w : Text) : Spells ps h → Spells (.literal w :: ps) (h.after w)
  | one {ps h k c} : k.has c = true → Spells ps h → Spells (.one k :: ps) (h.after [c])
  | many {ps h k} {w : Text} : (∀ c ∈ w, k.has c = true) → Spells ps h →
      Spells (.many k :: ps) (h.after w)
  | field {ps h k} {w : Text} : w ≠ [] → (∀ c ∈ w, k.has c = true) → Spells ps h →
      Spells (.field k :: ps) (h.capture w)
  | oneOf {ps h ws} {w : Text} : w ∈ ws → Spells ps h → Spells (.oneOf ws :: ps) (h.after w)
  | present {ps h} (c : Char) : Spells ps h → Spells (.optional c :: ps) (h.after [c])
  | absent {ps h} (c : Char) : Spells ps h → Spells (.optional c :: ps) h
  | lineEnd {ps h} : Spells ps h → Spells (.lineEnd :: ps) h

theorem Spells.cons {p : Piece} {ps : List Piece} {w : Text} {fs : List Text} {h : Hit}
    (hp : p.Takes w fs) (hs : Spells ps h) : Spells (p :: ps) (h.extend w fs) := by
  cases hp with
  | literal w => exact .literal w hs
  | one hc => exact .one hc hs
  | many hw => exact .many hw hs
  | field hne hw => exact .field hne hw hs
  | oneOf hw => exact .oneOf hw hs
  | present c => exact .present c hs
  | absent c => exact .absent c hs
  | lineEnd => exact .lineEnd hs

@[elab_as_elim, induction_eliminator]
theorem Spells.recTakes {motive : (ps : List Piece) → (h : Hit) → Spells ps h → Prop}
    (nil : motive [] ⟨[], []⟩ .nil)
    (cons : ∀ {p ps w fs h} (hp : Piece.Takes p w fs) (hs : Spells ps h), motive ps h hs →
      motive (p :: ps) (h.extend w fs) (.cons hp hs))
    {ps : List Piece} {h : Hit} (hs : Spells ps h) : motive ps h hs := by
  induction hs using Spells.rec with
  | nil => exact nil
  | literal w hs ih => exact cons (.literal w) hs ih
  | one hc hs ih => exact cons (.one hc) hs ih
  | many hw hs ih => exact cons (.many hw) hs ih
  | field hne hw hs ih => exact cons (.field hne hw) hs ih
  | oneOf hw hs ih => exact cons (.oneOf hw) hs ih
  | present c hs ih => exact cons (.present c) hs ih
  | absent c hs ih => exact cons (.absent c) hs ih
  | lineEnd hs ih => exact cons .lineEnd hs ih

theorem spells_of_match {ps : List Piece} {t : Text} {h : Hit} (hm : matchPieces ps t = some h) :
    Spells ps h := by
  induction ps generalizing t h with
  | nil => cases hm; exact .nil
  | cons p ps ih =>
    obtain ⟨w, fs, u, g, hp, -, hg, rfl⟩ := exists_of_matchPieces_cons hm
    exact .cons hp (ih hg)

namespace Piece

def isField : Piece → Bool
  | field _ => true
  | _ => false

variable {p : Piece} {w : Text} {fs : List Text}

theorem Takes.length_fields (hp : p.Takes w fs) :
    fs.length = if p.isField = true then 1 else 0 := by
  cases hp <;> rfl

theorem Takes.eq_of_mem_fields (hp : p.Takes w fs) {f : Text} (hf : f ∈ fs) : f = w := by
  cases hp with
  | field _ _ => exact List.mem_singleton.1 hf
  | _ => cases hf

end Piece

theorem Spells.length_fields {ps : List Piece} {h : Hit} (hs : Spells ps h) :
    h.fields.length = ps.countP Piece.isField := by
  induction hs with
  | nil => rfl
  | cons hp _ ih =>
    rw [Hit.extend_fields, List.length_append, hp.length_fields, ih, List.countP_cons, Nat.add_comm]

theorem Spells.fields_ne_nil {ps : List Piece} {h : Hit} (hs : Spells ps h)
    (hp : ps.any Piece.isField = true) : h.fields ≠ [] := by
  have hpos : 0 < h.fields.length := by
    rw [hs.length_fields]
    exact List.countP_pos_iff.2 (List.any_eq_true.1 hp)
  exact List.ne_nil_of_length_pos hpos

theorem Spells.infix_of_literal {ps : List Piece} {h : Hit} (hs : Spells ps h) {w : Text}
    (hw : .literal w ∈ ps) : w <:+: h.taken := by
  induction hs with
  | nil => cases hw
  | cons hp _ ih =>
    rcases List.mem_cons.1 hw with rfl | hw
    · cases hp
      exact (List.prefix_append w _).isInfix
    · exact List.infix_append_of_infix_right (ih hw)

theorem Spells.mem_taken {ps : List Piece} {h : Hit} (hs : Spells ps h) {w : Text} {c : Char}
    (hw : .literal w ∈ ps) (hc : c ∈ w) : c ∈ h.taken := (hs.infix_of_literal hw).subset hc

theorem Spells.infix_taken {ps : List Piece} {h : Hit} (hs : Spells ps h) :
    ∀ f ∈ h.fields, f <:+: h.taken := by
  induction hs with
  | nil => simp
  | cons hp _ ih =>
    refine List.forall_mem_append.2 ⟨fun f hf => ?_, fun f hf => ?_⟩
    · rw [hp.eq_of_mem_fields hf]
      exact List.infix_append_left
    · exact List.infix_append_of_infix_right (ih f hf)

theorem Spells.has_of_mem_fields {ps : List Piece} {h : Hit} (hs : Spells ps h) {k : CharClass}
    (hk : ∀ k', .field k' ∈ ps → k' = k) : ∀ f ∈ h.fields, ∀ c ∈ f, k.has c = true := by
  induction hs with
  | nil => simp
  | cons hp _ ih =>
    refine List.forall_mem_append.2 ⟨?_, ih fun k' hm => hk k' (List.mem_cons_of_mem _ hm)⟩
    cases hp with
    | field _ hw =>
      obtain rfl := hk _ List.mem_cons_self
      exact List.forall_mem_singleton.2 hw
    | _ => exact List.forall_mem_nil _

/-- Whether a hit of the pieces can begin with `c`; too often yes, never too often no. -/
def mayOpen : List Piece → Char → Bool
  | [], _ => true
  | .literal [] :: ps, c => mayOpen ps c
  | .literal (d :: _) :: _, c => c == d
  | .one k :: _, c => k.has c
  | .many k :: ps, c => k.has c || mayOpen ps c
  | .field k :: _, c => k.has c
  | .oneOf _ :: _, _ => true
  | .optional d :: ps, c => c == d || mayOpen ps c
  | .lineEnd :: _, c => c == '\n'

theorem matchPieces_eq_none_of_mayOpen {ps : List Piece} {c : Char} (t : Text)
    (h : mayOpen ps c = false) : matchPieces ps (c :: t) = none := by
  induction ps with
  | nil => cases h
  | cons p ps ih =>
    cases p with
    | literal w =>
      cases w with
      | nil => simp [matchPieces, Text.dropPrefix?, ih h]
      | cons d w =>
        have hd : d ≠ c := by rintro rfl; simp [mayOpen] at h
        simp [matchPieces, Text.dropPrefix?, hd]
    | one k => simp only [mayOpen] at h; simp [matchPieces, h]
    | many k =>
      simp only [mayOpen, Bool.or_eq_false_iff] at h
      simp [matchPieces, longest, h.1, ih h.2]
    | field k => simp only [mayOpen] at h; simp [matchPieces, h]
    | oneOf ws => cases h
    | optional d =>
      simp only [mayOpen, Bool.or_eq_false_iff, beq_eq_false_iff_ne, ne_eq] at h
      simp [matchPieces, h.1, ih h.2]
    | lineEnd =>
      simp only [mayOpen, beq_eq_false_iff_ne, ne_eq] at h
      simp [matchPieces, h]

theorem longest_of_maximal {k : CharClass} {next : Text → Option Hit} {run u : Text} {h : Hit}
    (hr : ∀ c ∈ run, k.has c = true) (hu : ∀ c ∈ u.head?, k.has c = false) (hn : next u = some h) :
    longest k next (run ++ u) = some (run, h) := by
  induction run with
  | nil =>
    cases u with
    | nil => simp [longest, hn]
    | cons c u => simp [longest, hn, hu c rfl]
  | cons c run ih =>
    have hrun := ih fun d hd => hr d (List.mem_cons_of_mem c hd)
    rw [List.cons_append, longest, if_pos (hr c List.mem_cons_self), hrun]

def Stops (k : CharClass) (ps : List Piece) : Prop := ∀ c, k.has c = true → mayOpen ps c = false

theorem stops_literal {k : CharClass} {d : Char} (hd : k.has d = false) (w : Text)
    (ps : List Piece) : Stops k (.literal (d :: w) :: ps) := by
  intro c hc
  have hne : c ≠ d := by rintro rfl; simp [hc] at hd
  simpa [mayOpen] using hne

theorem longest_eq_some_iff {k : CharClass} {ps : List Piece} (hs : Stops k ps) {t : Text}
    {r : Text × Hit} : longest k (matchPieces ps) t = some r ↔
      (∀ c ∈ r.1, k.has c = true) ∧ ∃ u, t = r.1 ++ u ∧ matchPieces ps u = some r.2 := by
  constructor
  · exact longest_run
  · rintro ⟨hr, u, rfl, hu⟩
    refine longest_of_maximal hr (fun c hc => ?_) hu
    cases u with
    | nil => cases hc
    | cons d u =>
      obtain rfl : d = c := by simpa using hc
      by_contra hk
      rw [matchPieces_eq_none_of_mayOpen u (hs d (by simpa using hk))] at hu
      cases hu

theorem matchPieces_literal_append (w : Text) (ps : List Piece) (t : Text) :
    matchPieces (.literal w :: ps) (w ++ t) = (matchPieces ps t).map (Hit.after w) := by
  rw [matchPieces, Text.dropPrefix?_eq_some_iff.2 rfl]

theorem matchPieces_literal_eq_some_iff {w : Text} {ps : List Piece} {t : Text} {h : Hit} :
    matchPieces (.literal w :: ps) t = some h ↔
      ∃ u g, t = w ++ u ∧ matchPieces ps u = some g ∧ h = g.after w := by
  constructor
  · intro hm
    obtain ⟨v, fs, u, g, hp, ht, hg, rfl⟩ := exists_of_matchPieces_cons hm
    cases hp with
    | literal => exact ⟨u, g, ht, hg, rfl⟩
  · rintro ⟨u, g, rfl, hg, rfl⟩
    rw [matchPieces_literal_append, hg, Option.map_some]

theorem exists_of_matchPieces_many {k : CharClass} {ps : List Piece} {t : Text} {h : Hit}
    (hm : matchPieces (.many k :: ps) t = some h) :
    ∃ run u g, t = run ++ u ∧ (∀ c ∈ run, k.has c = true) ∧ matchPieces ps u = some g ∧
      h = g.after run := by
  obtain ⟨w, fs, u, g, hp, ht, hg, rfl⟩ := exists_of_matchPieces_cons hm
  cases hp with
  | many hw => exact ⟨w, u, g, ht, hw, hg, rfl⟩

theorem matchPieces_many_eq_some_iff {k : CharClass} {ps : List Piece} (hs : Stops k ps)
    {t : Text} {h : Hit} : matchPieces (.many k :: ps) t = some h ↔
      ∃ run u g, t = run ++ u ∧ (∀ c ∈ run, k.has c = true) ∧ matchPieces ps u = some g ∧
        h = g.after run := by
  refine ⟨exists_of_matchPieces_many, ?_⟩
  rintro ⟨run, u, g, ht, hc, hu, rfl⟩
  rw [matchPieces, (longest_eq_some_iff (r := (run, g)) hs).2 ⟨hc, u, ht, hu⟩, Option.map_some]

theorem exists_of_matchPieces_field {k : CharClass} {ps : List Piece} {t : Text} {h : Hit}
    (hm : matchPieces (.field k :: ps) t = some h) :
    ∃ run u g, t = run ++ u ∧ run ≠ [] ∧ (∀ c ∈ run, k.has c = true) ∧
      matchPieces ps u = some g ∧ h = g.capture run := by
  obtain ⟨w, fs, u, g, hp, ht, hg, rfl⟩ := exists_of_matchPieces_cons hm
  cases hp with
  | field hne hw => exact ⟨w, u, g, ht, hne, hw, hg, rfl⟩

theorem matchPieces_field_eq_some_iff {k : CharClass} {ps : List Piece} (hs : Stops k ps)
    {t : Text} {h : Hit} : matchPieces (.field k :: ps) t = some h ↔
      ∃ run u g, t = run ++ u ∧ run ≠ [] ∧ (∀ c ∈ run, k.has c = true) ∧
        matchPieces ps u = some g ∧ h = g.capture run := by
  refine ⟨exists_of_matchPieces_field, ?_⟩
  rintro ⟨run, u, g, rfl, hne, hrun, hu, rfl⟩
  obtain ⟨c, run, rfl⟩ := List.exists_cons_of_ne_nil hne
  have hr : longest k (matchPieces ps) (run ++ u) = some (run, g) :=
    (longest_eq_some_iff hs).2 ⟨fun d hd => hrun d (List.mem_cons_of_mem c hd), u, rfl, hu⟩
  rw [List.cons_append, matchPieces, if_pos (hrun c List.mem_cons_self), hr, Option.map_some]

theorem exists_of_matchPieces_oneOf {ws : List Text} {ps : List Piece} {t : Text} {h : Hit}
    (hm : matchPieces (.oneOf ws :: ps) t = some h) :
    ∃ w ∈ ws, ∃ u g, t = w ++ u ∧ matchPieces ps u = some g ∧ h = g.after w := by
  obtain ⟨w, fs, u, g, hp, ht, hg, rfl⟩ := exists_of_matchPieces_cons hm
  cases hp with
  | oneOf hw => exact ⟨w, hw, u, g, ht, hg, rfl⟩

theorem matchPieces_one_eq_some_iff {k : CharClass} {ps : List Piece} {t : Text} {h : Hit} :
    matchPieces (.one k :: ps) t = some h ↔
      ∃ c u g, t = c :: u ∧ k.has c = true ∧ matchPieces ps u = some g ∧ h = g.after [c] := by
  constructor
  · intro hm
    obtain ⟨v, fs, u, g, hp, ht, hg, rfl⟩ := exists_of_matchPieces_cons hm
    cases hp with
    | one hc => exact ⟨_, u, g, ht, hc, hg, rfl⟩
  · rintro ⟨c, u, g, rfl, hc, hg, rfl⟩
    rw [matchPieces, if_pos hc, hg, Option.map_some]

section Forward

variable {k : CharClass} {ps : List Piece} {w u : Text} {h : Hit}

theorem has_head_cons {d : Char} (hd : k.has d = false) (t : Text) :
    ∀ c ∈ (d :: t).head?, k.has c = false := by
  simpa using hd

theorem matchPieces_many_append (hr : ∀ c ∈ w, k.has c = true)
    (hu : ∀ c ∈ u.head?, k.has c = false) (hm : matchPieces ps u = some h) :
    matchPieces (.many k :: ps) (w ++ u) = some (h.after w) := by
  rw [matchPieces, longest_of_maximal hr hu hm, Option.map_some]

theorem matchPieces_field_append (hne : w ≠ []) (hr : ∀ c ∈ w, k.has c = true)
    (hu : ∀ c ∈ u.head?, k.has c = false) (hm : matchPieces ps u = some h) :
    matchPieces (.field k :: ps) (w ++ u) = some (h.capture w) := by
  obtain ⟨c, w, rfl⟩ := List.exists_cons_of_ne_nil hne
  rw [List.forall_mem_cons] at hr
  rw [List.cons_append, matchPieces, if_pos hr.1, longest_of_maximal hr.2 hu hm, Option.map_some]

theorem matchPieces_one_cons {c : Char} (hc : k.has c = true) (hm : matchPieces ps u = some h) :
    matchPieces (.one k :: ps) (c :: u) = some (h.after [c]) :=
  matchPieces_one_eq_some_iff.2 ⟨c, u, h, rfl, hc, hm, rfl⟩

theorem matchPieces_literal_some (w : Text) (hm : matchPieces ps u = some h) :
    matchPieces (.literal w :: ps) (w ++ u) = some (h.after w) := by
  rw [matchPieces_literal_append, hm, Option.map_some]

theorem matchPieces_oneOf_some {ws : List Text} (hw : w ∈ ws)
    (hother : ∀ v ∈ ws, v <+: w ++ u → v = w) (hm : matchPieces ps u = some h) :
    matchPieces (.oneOf ws :: ps) (w ++ u) = some (h.after w) := by
  rw [matchPieces]
  induction ws with
  | nil => cases hw
  | cons v ws ih =>
    rw [List.forall_mem_cons] at hother
    rw [List.findSome?_cons]
    by_cases hv : v = w
    · simp only [hv, Text.dropPrefix?_eq_some_iff.2 rfl, hm, Option.map_some]
    · have hnone : Text.dropPrefix? v (w ++ u) = none := by
        rw [Option.eq_none_iff_forall_ne_some]
        intro x hx
        exact hv (hother.1 ⟨x, (Text.dropPrefix?_eq_some_iff.1 hx).symm⟩)
      simp only [hnone]
      exact ih ((List.mem_cons.1 hw).resolve_left (Ne.symm hv)) hother.2

theorem matchPieces_optional_cons (c : Char) (hm : matchPieces ps u = some h) :
    matchPieces (.optional c :: ps) (c :: u) = some (h.after [c]) := by
  rw [matchPieces, if_pos rfl, hm]

end Forward

end GlideBridge
