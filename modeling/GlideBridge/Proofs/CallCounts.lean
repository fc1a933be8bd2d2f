import GlideBridge.Proofs.CallRules
import GlideBridge.Proofs.Sites
import Mathlib.Algebra.BigOperators.Ring.Finset
import Mathlib.Tactic.Ring

/-! How often a call stands in a text, and what a rule does to that number. A hit that begins no
call itself has the calls of its fields only, when what stands between the fields neither begins a
call nor lets one through; so the rule changes the number only by the fields that its template
repeats or drops. -/

namespace GlideBridge

open Text Pieces

def Text.occurrences (w : Text) : Text → ℕ := sites w.isPrefixOf

def Hit.occurrences (w : Text) (h : Hit) : ℕ := (h.fields.map w.occurrences).sum

theorem Hit.occurrences_eq_sum (w : Text) (h : Hit) : h.occurrences w =
    ((List.range h.fields.length).map fun i => w.occurrences (h.fields.getD i [])).sum := by
  have hmap := congrArg (List.map w.occurrences) h.map_getD_range
  rw [List.map_map] at hmap
  rw [Hit.occurrences, ← hmap]
  rfl

namespace Rule

def written (w : Text) (r : Rule) (h : Hit) : ℕ :=
  ((r.template.filterMap TemplatePart.index?).map fun i => w.occurrences (h.fields.getD i [])).sum

/-- What the hits of the rule add by repeating fields, less what they take by dropping some. -/
def surplus (w : Text) (r : Rule) (t : Text) : ℤ :=
  ((r.pattern.hits t).map fun h => (r.written w h : ℤ) - h.occurrences w).sum

def runSurplus (w : Text) : List Rule → Text → ℤ
  | [], _ => 0
  | r :: rs, t => r.surplus w t + runSurplus w rs (r.apply t)

variable {r : Rule} {rs : List Rule} {ps : List Piece} {w t u : Text}

theorem runSurplus_append (rs ss : List Rule) (t : Text) :
    runSurplus w (rs ++ ss) t = runSurplus w rs t + runSurplus w ss (run rs t) := by
  induction rs generalizing t with
  | nil => simp [runSurplus, run]
  | cons r rs ih =>
    rw [List.cons_append, runSurplus, runSurplus, ih, add_assoc]
    rfl

theorem length_fields_of_mem_hits (hp : r.pattern.lineStart = false) {h : Hit}
    (hh : h ∈ r.pattern.hits t) : h.fields.length = r.pattern.steps.countP Piece.isField := by
  obtain ⟨g, hg, hgh⟩ := List.mem_filterMap.1 hh
  cases g with
  | kept c => cases hgh
  | hit g =>
    cases hgh
    exact ((Pattern.cuts_scan hp t).spells hg).length_fields

theorem surplus_of_conserves (hr : r.conserves = true) (w t : Text) : r.surplus w t = 0 := by
  simp only [conserves, Bool.and_eq_true, Bool.not_eq_true', beq_iff_eq] at hr
  obtain ⟨⟨⟨⟨hp, -⟩, -⟩, hindex⟩, -⟩ := hr
  refine List.sum_eq_zero fun n hn => ?_
  obtain ⟨h, hh, rfl⟩ := List.mem_map.1 hn
  rw [written, hindex, ← length_fields_of_mem_hits hp hh, ← h.occurrences_eq_sum]
  exact sub_self _

theorem runSurplus_append_of_conserve (hrs : rs.all conserves = true) (ss : List Rule)
    (w t : Text) :
    runSurplus w (rs ++ ss) t = runSurplus w ss (run rs t) := by
  induction rs generalizing t with
  | nil => rfl
  | cons r rs ih =>
    rw [List.all_cons, Bool.and_eq_true] at hrs
    rw [List.cons_append, runSurplus, surplus_of_conserves hrs.1, zero_add, ih hrs.2, run_cons]

theorem runSurplus_of_conserve (hrs : rs.all conserves = true) (w t : Text) :
    runSurplus w rs t = 0 := by
  have h := runSurplus_append_of_conserve hrs [] w t
  rwa [List.append_nil] at h

/-- How often `w` stands in the field with the given index, over all hits. -/
def inField (w : Text) (r : Rule) (i : ℕ) (t : Text) : ℕ :=
  ((r.pattern.hits t).map fun h => w.occurrences (h.fields.getD i [])).sum

/-- The template writes the field with the given index so many times, and each other one once. -/
def writes (r : Rule) (i k : ℕ) : Bool :=
  let indices := List.range (r.pattern.steps.countP Piece.isField)
  !r.pattern.lineStart && indices.contains i &&
    (r.template.filterMap TemplatePart.index?).isPerm (List.replicate k i ++ indices.erase i)

theorem written_sub_occurrences {i k : ℕ} (hr : r.writes i k = true) (w : Text) {h : Hit}
    (hh : h ∈ r.pattern.hits t) : (r.written w h : ℤ) - h.occurrences w =
      (k - 1) * (w.occurrences (h.fields.getD i []) : ℕ) := by
  simp only [writes, Bool.and_eq_true, Bool.not_eq_true', List.contains_iff_mem,
    List.isPerm_iff] at hr
  obtain ⟨⟨hp, hi⟩, hwrites⟩ := hr
  have hwritten := (hwrites.map fun i => w.occurrences (h.fields.getD i [])).sum_eq
  have hoccurrences :=
    ((List.perm_cons_erase hi).map fun i => w.occurrences (h.fields.getD i [])).sum_eq
  rw [List.map_append, List.sum_append, List.map_replicate, List.sum_replicate_nat] at hwritten
  rw [← length_fields_of_mem_hits hp hh, ← h.occurrences_eq_sum, List.map_cons, List.sum_cons,
    length_fields_of_mem_hits hp hh] at hoccurrences
  rw [written, hwritten, hoccurrences]
  push_cast
  ring

theorem surplus_of_writes {i k : ℕ} (hr : r.writes i k = true) (w t : Text) :
    r.surplus w t = (k - 1) * r.inField w i t := by
  have hhit : ∀ h ∈ r.pattern.hits t, (r.written w h : ℤ) - h.occurrences w =
      (k - 1) * (w.occurrences (h.fields.getD i []) : ℕ) :=
    fun h hh => written_sub_occurrences hr w hh
  rw [surplus, List.map_congr_left hhit, List.sum_map_mul_left, inField, Nat.cast_list_sum,
    List.map_map]
  rfl

def KeepsSeam (w : Text) (r : Rule) (t : Text) : Prop :=
  ∀ a h t' u, a ≠ [] → a ++ (h.taken ++ t') <:+ t →
    matchPieces r.pattern.steps (h.taken ++ t') = some h →
    w.isPrefixOf (a ++ (r.fill h ++ u)) = w.isPrefixOf (a ++ (h.taken ++ t'))

def CountsFields (w : Text) (r : Rule) (t : Text) : Prop :=
  ∀ h t', h.taken ++ t' <:+ t → matchPieces r.pattern.steps (h.taken ++ t') = some h →
    w.occurrences (h.taken ++ t') = h.occurrences w + w.occurrences t'

theorem Rewrites.occurrences_eq (h : Rewrites r t u) (hp : r.pattern.lineStart = false)
    (hw : Refines ps w.isPrefixOf) (hsealed : Template.isSealed ps r.template = true)
    (hseam : r.KeepsSeam w t) (hfields : r.CountsFields w t) :
    (w.occurrences u : ℤ) = w.occurrences t + r.surplus w t := by
  induction h with
  | nil => rfl
  | @kept c t u hm hr ih =>
    have hsuffix : t <:+ c :: t := List.suffix_cons c t
    have hu := ih (fun a h t' u hne hs => hseam a h t' u hne (hs.trans hsuffix))
      fun h t' hs => hfields h t' (hs.trans hsuffix)
    -- the text may begin at a kept character and go on into what a template has written
    have hc : w.isPrefixOf (c :: u) = w.isPrefixOf (c :: t) := by
      refine hr.kept_append (P := fun v => w.isPrefixOf v = w.isPrefixOf (c :: t)) (a := [c])
        (by simp) rfl fun b h t' u' hb heq hm => ?_
      rw [List.singleton_append] at heq
      rw [heq]
      exact hseam b h t' u' hb (heq ▸ List.suffix_rfl) hm
    rw [Text.occurrences] at hu
    rw [surplus, Pattern.hits_kept hp hm, ← surplus, Text.occurrences, sites, sites, hc,
      Nat.cast_add, Nat.cast_add, hu, add_assoc]
  | @hit h t u hm _ ih =>
    have hsuffix : t <:+ h.taken ++ t := List.suffix_append _ t
    have hu := ih (fun a h t' u hne hs => hseam a h t' u hne (hs.trans hsuffix))
      fun h t' hs => hfields h t' (hs.trans hsuffix)
    rw [surplus, Pattern.hits_hit hp hm, List.map_cons, List.sum_cons, ← surplus,
      hfields h t List.suffix_rfl hm]
    rw [Text.occurrences] at hu ⊢
    rw [fill, Template.sites_fill hw hsealed, Nat.cast_add, Nat.cast_add, hu]
    rw [← Text.occurrences, ← written]
    abel

def Counts (w : Text) (r : Rule) (t : Text) : Prop :=
  (w.occurrences (r.apply t) : ℤ) = w.occurrences t + r.surplus w t

def RunCounts (w : Text) (rs : List Rule) (t : Text) : Prop :=
  (w.occurrences (run rs t) : ℤ) = w.occurrences t + runSurplus w rs t

theorem RunCounts.append (hr : RunCounts w rs t) {ss : List Rule} (hs : RunCounts w ss (run rs t)) :
    RunCounts w (rs ++ ss) t := by
  rw [RunCounts] at hr hs ⊢
  rw [run_append, runSurplus_append, hs, hr, add_assoc]

theorem runCounts_singleton (h : r.Counts w t) : RunCounts w [r] t := by
  rw [Counts] at h
  rw [RunCounts, run_singleton, runSurplus, runSurplus, add_zero, h]

theorem runCounts_of_invariant {I : Text → Prop} (hkeep : ∀ r ∈ rs, ∀ t, I t → I (r.apply t))
    (hcount : ∀ r ∈ rs, ∀ t, I t → r.Counts w t) (ht : I t) : RunCounts w rs t ∧ I (run rs t) := by
  induction rs generalizing t with
  | nil => exact ⟨(add_zero _).symm, ht⟩
  | cons r rs ih =>
    rw [List.forall_mem_cons] at hkeep hcount
    obtain ⟨hcounts, hI⟩ := ih hkeep.2 hcount.2 (hkeep.1 t ht)
    refine ⟨?_, hI⟩
    have hr := hcount.1 t ht
    rw [Counts] at hr
    rw [RunCounts] at hcounts ⊢
    rw [runSurplus, ← add_assoc, ← hr]
    exact hcounts

end Rule

/-- A character that no call has. -/
def isPause (c : Char) : Bool := !c.isAlpha && c != '_' && c != '.' && c != '('

def CharClass.isPause : CharClass → Bool
  | blank | quote => true
  | _ => false

theorem CharClass.isPause_has {k : CharClass} (hk : k.isPause = true) {c : Char}
    (hc : k.has c = true) : GlideBridge.isPause c = true := by
  cases k with
  | blank =>
    have hne (d : Char) (hd : isBlank d = false) : c ≠ d := by
      rintro rfl
      rw [has, hd] at hc
      cases hc
    have halpha : c.isAlpha = false := by
      rw [← Bool.not_eq_true]
      intro ha
      have := isBlank_of_isWord (c := c) (by simp [isWord, Char.isAlphanum, ha])
      exact hne c this rfl
    simp [GlideBridge.isPause, halpha, hne '_' (by decide), hne '.' (by decide),
      hne '(' (by decide)]
  | quote =>
    simp only [has, isQuote, Bool.or_eq_true, beq_iff_eq] at hc
    rcases hc with rfl | rfl <;> decide
  | _ => cases hk

namespace CallSpace

variable {s : CallSpace} {name : Text} {ps : List Piece} {t : Text}

def steps (s : CallSpace) : List Piece := [.literal s.opening, .field .letter, .literal ['(']]

theorem reads_steps_iff : reads s.steps t = true ↔ s.Starts t := by
  have hend : .lineEnd ∉ s.steps := by simp [steps]
  rw [← isSome_matchPieces hend, steps, ← pattern_steps, Option.isSome_iff_ne_none, Ne,
    match_eq_none_iff, Classical.not_not]

theorem name_eq_of_isPrefix {name' : Text} (hn : IsName name) (hn' : IsName name')
    (h : s.callText name <+: t) (h' : s.callText name' <+: t) : name = name' := by
  have hopen {n : Text} (hn : IsName n) : '(' ∉ s.opening ++ n := by
    have := not_mem_name hn (c := '(') (by decide)
    cases s <;> simp [opening, this]
  obtain ⟨u, rfl⟩ := h
  obtain ⟨u', hu⟩ := h'
  rw [callText, callText, ← List.append_assoc, ← List.append_assoc, List.append_assoc,
    List.append_assoc _ ['(']] at hu
  exact (List.append_cancel_left (eq_of_append_cons (hopen hn') (hopen hn) hu)).symm

theorem refines (hn : IsName name) : Refines s.steps (s.callText name).isPrefixOf where
  reads_of h := reads_steps_iff.2 ⟨name, hn, List.isPrefixOf_iff_prefix.1 h⟩
  stable := by
    intro a h b
    obtain ⟨name', hn', hp'⟩ := reads_steps_iff.1 h
    rw [Bool.eq_iff_iff, List.isPrefixOf_iff_prefix, List.isPrefixOf_iff_prefix]
    refine ⟨fun hp => ?_, fun hp => hp.trans (List.prefix_append a b)⟩
    rwa [name_eq_of_isPrefix hn hn' hp (hp'.trans (List.prefix_append a b))]

theorem not_mem_callText_of_isPause (hn : IsName name) {c : Char} (hc : isPause c = true) :
    c ∉ s.callText name := by
  simp only [isPause, Bool.and_eq_true, Bool.not_eq_true', bne_iff_ne, ne_eq] at hc
  refine not_mem_callText hn hc.1.1.1 ?_
  have hletter (d : Char) (hd : d.isAlpha = true) : c ≠ d := by
    rintro rfl
    rw [hc.1.1.1] at hd
    cases hd
  cases s <;> simp [callText, opening, hc, hletter 'g', hletter 'f', hletter 'o', hletter 'r',
    hletter 'm', hletter 's']

theorem isPrefixOf_append_pause (hn : IsName name) {c : Char} (hc : isPause c = true) (a t : Text) :
    (s.callText name).isPrefixOf (a ++ c :: t) = (s.callText name).isPrefixOf a := by
  rw [Bool.eq_iff_iff, List.isPrefixOf_iff_prefix, List.isPrefixOf_iff_prefix]
  exact prefix_append_cons_iff (not_mem_callText_of_isPause hn hc) a t

theorem occurrences_pause_append (hn : IsName name) {w : Text} (hw : ∀ c ∈ w, isPause c = true)
    (t : Text) : (s.callText name).occurrences (w ++ t) = (s.callText name).occurrences t := by
  refine sites_append_of_none fun v hv hne => ?_
  obtain ⟨c, v, rfl⟩ := List.exists_cons_of_ne_nil hne
  have h := isPrefixOf_append_pause (s := s) hn (hw c (hv.subset List.mem_cons_self)) [] (v ++ t)
  rw [List.nil_append] at h
  obtain ⟨x, hx⟩ := s.callText_eq_cons name
  rw [List.cons_append, h, hx]
  rfl

/-- What comes behind a field lets no call through that begins in the field. -/
def closes (s : CallSpace) : List Piece → Bool
  | .literal l :: _ => cuts s.steps l
  | .one k :: _ => k.isPause
  | .many k :: ps => k.isPause && closes s ps
  | _ => false

/-- No call begins in what the pieces take but in the fields, and none goes beyond a field. -/
def passes (s : CallSpace) : List Piece → Bool
  | [] => true
  | .literal l :: ps => silent s.steps l && passes s ps
  | .one k :: ps | .many k :: ps => k.isPause && passes s ps
  | .optional c :: ps => isPause c && passes s ps
  | .field _ :: ps => closes s ps && passes s ps
  | .oneOf _ :: _ | .lineEnd :: _ => false

theorem isPrefixOf_append_closes (hn : IsName name) {h : Hit} (hs : Spells ps h)
    (hps : s.closes ps = true) {a : Text} (hne : a ≠ []) (t : Text) :
    (s.callText name).isPrefixOf (a ++ (h.taken ++ t)) = (s.callText name).isPrefixOf a := by
  induction hs with
  | nil => cases hps
  | @cons p ps w fs h hp _ ih =>
    rw [Hit.extend_taken, List.append_assoc]
    cases hp with
    | literal l => exact (refines hn).append_eq (reads_append_of_cuts hps hne _)
    | one hc => exact isPrefixOf_append_pause hn (CharClass.isPause_has hps hc) a _
    | many hw =>
      rw [closes, Bool.and_eq_true] at hps
      cases w with
      | nil => exact ih hps.2
      | cons c w =>
        exact isPrefixOf_append_pause hn (CharClass.isPause_has hps.1 (hw c List.mem_cons_self)) a _
    | _ => cases hps

theorem passes_tail {p : Piece} (hps : s.passes (p :: ps) = true) : s.passes ps = true := by
  cases p with
  | oneOf ws => cases hps
  | lineEnd => cases hps
  | _ => exact (Bool.and_eq_true_iff.1 hps).2

theorem occurrences_takes (hn : IsName name) {p : Piece} {w : Text} {fs : List Text} {h : Hit}
    (hp : p.Takes w fs) (hs : Spells ps h) (hps : s.passes (p :: ps) = true) (t : Text) :
    (s.callText name).occurrences (w ++ (h.taken ++ t)) =
      (fs.map (s.callText name).occurrences).sum +
        (s.callText name).occurrences (h.taken ++ t) := by
  have pause {w : Text} (hw : ∀ c ∈ w, isPause c = true) :
      (s.callText name).occurrences (w ++ (h.taken ++ t)) =
        0 + (s.callText name).occurrences (h.taken ++ t) :=
    (occurrences_pause_append hn hw _).trans (Nat.zero_add _).symm
  cases hp with
  | oneOf _ => cases hps
  | lineEnd => cases hps
  | absent c => exact pause (by simp)
  | literal l =>
    rw [passes, Bool.and_eq_true] at hps
    exact ((refines hn).sites_silent_append hps.1 _).trans (Nat.zero_add _).symm
  | one hc =>
    rw [passes, Bool.and_eq_true] at hps
    exact pause (List.forall_mem_singleton.2 (CharClass.isPause_has hps.1 hc))
  | many hw =>
    rw [passes, Bool.and_eq_true] at hps
    exact pause fun c hc => CharClass.isPause_has hps.1 (hw c hc)
  | present c =>
    rw [passes, Bool.and_eq_true] at hps
    exact pause (List.forall_mem_singleton.2 hps.1)
  | field _ _ =>
    rw [passes, Bool.and_eq_true] at hps
    rw [List.map_singleton, List.sum_singleton]
    exact sites_append fun v hv hne => isPrefixOf_append_closes hn hs hps.1 hne t

theorem occurrences_taken (hn : IsName name) {h : Hit} (hs : Spells ps h)
    (hps : s.passes ps = true) (t : Text) : (s.callText name).occurrences (h.taken ++ t) =
      h.occurrences (s.callText name) + (s.callText name).occurrences t := by
  induction hs with
  | nil => simp [Hit.occurrences]
  | cons hp hs ih =>
    rw [Hit.extend_taken, List.append_assoc, occurrences_takes hn hp hs hps t, ih (passes_tail hps),
      Hit.occurrences, Hit.occurrences, Hit.extend_fields, List.map_append, List.sum_append,
      Nat.add_assoc]

def Skips (s : CallSpace) (name : Text) (r : Rule) : Prop :=
  ∀ h t, matchPieces r.pattern.steps (h.taken ++ t) = some h →
    (s.callText name).isPrefixOf (h.taken ++ t) = false

theorem skips_of_refuses {r : Rule} (hn : IsName name)
    (hr : refuses s.steps r.pattern.opening = true) : s.Skips name r := by
  intro h t hm
  obtain ⟨rest, hrest⟩ := Rule.exists_taken_eq hm
  rw [hrest, List.append_assoc]
  exact (refines hn).eq_false (reads_append_of_refuses hr _)

theorem skips_of_answers {rs : List Rule} {nss : List (List Text)}
    (h : List.Forall₂ s.Answers rs nss) (hn : IsName name) (hname : name ∉ nss.flatten) :
    ∀ r ∈ rs, s.Skips name r := by
  induction h with
  | nil => simp
  | @cons r names rs nss hr _ ih =>
    simp only [List.flatten_cons, List.mem_append, not_or] at hname
    refine List.forall_mem_cons.2 ⟨fun h t hm => ?_, ih hname.2⟩
    rw [← Bool.not_eq_true, List.isPrefixOf_iff_prefix]
    rintro ⟨q, hq⟩
    rw [← hq] at hm
    exact hname.1 (hr.name_mem name q h hn hm)

def takesApart (s : CallSpace) (p : Pattern) : Bool :=
  s.passes (.literal p.opening.tail :: p.pieces)

theorem countsFields {r : Rule} (hn : IsName name)
    (hpass : s.takesApart r.pattern = true)
    (hskip : s.Skips name r) (t : Text) : r.CountsFields (s.callText name) t := by
  intro h t' _ hm
  have hfalse := hskip h t' hm
  obtain ⟨c, o, ho⟩ := List.exists_cons_of_ne_nil r.pattern.opening_ne
  obtain ⟨u, g, -, hg, rfl⟩ := matchPieces_literal_eq_some_iff.1 hm
  rw [takesApart, ho, List.tail_cons] at hpass
  have htaken := occurrences_taken hn (.literal o (spells_of_match hg)) hpass t'
  rw [Hit.after_taken, ho, List.cons_append, List.cons_append] at hfalse ⊢
  rw [Text.occurrences] at htaken ⊢
  rw [sites, hfalse]
  simpa [Hit.occurrences] using htaken

def writesApart (s : CallSpace) (r : Rule) : Bool :=
  Template.isSealed s.steps r.template && (Template.head? r.template).any (cuts s.steps)

theorem isPrefixOf_append_taken {r : Rule} (hn : IsName name)
    (hopening : cuts s.steps r.pattern.opening = true) {a : Text} {h : Hit} (hne : a ≠ [])
    (hm : matchPieces r.pattern.steps (h.taken ++ t) = some h) :
    (s.callText name).isPrefixOf (a ++ (h.taken ++ t)) = (s.callText name).isPrefixOf a := by
  obtain ⟨rest, htaken⟩ := Rule.exists_taken_eq hm
  rw [htaken, List.append_assoc]
  exact (refines hn).append_eq (reads_append_of_cuts hopening hne _)

theorem counts_of_keepsSeam {r : Rule} (hn : IsName name) (hp : r.pattern.lineStart = false)
    (hsealed : Template.isSealed s.steps r.template = true)
    (hseam : r.KeepsSeam (s.callText name) t) (hfields : r.CountsFields (s.callText name) t) :
    r.Counts (s.callText name) t :=
  (Rule.rewrites_apply hp t).occurrences_eq hp (refines hn) hsealed hseam hfields

theorem counts_of_writesApart {r : Rule} (hn : IsName name) (hp : r.pattern.lineStart = false)
    (hr : s.writesApart r = true)
    (htaken : ∀ a h t', a ≠ [] → matchPieces r.pattern.steps (h.taken ++ t') = some h →
      (s.callText name).isPrefixOf (a ++ (h.taken ++ t')) = (s.callText name).isPrefixOf a)
    (hfields : r.CountsFields (s.callText name) t) : r.Counts (s.callText name) t := by
  rw [writesApart, Bool.and_eq_true, Option.any_eq_true] at hr
  obtain ⟨hsealed, l, hl, hcuts⟩ := hr
  refine counts_of_keepsSeam hn hp hsealed (fun a h t' u hne _ hm => ?_) hfields
  obtain ⟨rest, hfill⟩ := Rule.exists_fill_eq hl h
  rw [htaken a h t' hne hm, hfill, List.append_assoc]
  exact (refines hn).append_eq (reads_append_of_cuts hcuts hne _)

def isPlain (s : CallSpace) (r : Rule) : Bool :=
  !r.pattern.lineStart && s.writesApart r && s.takesApart r.pattern &&
    cuts s.steps r.pattern.opening

theorem counts_plain {r : Rule} (hn : IsName name) (hr : s.isPlain r = true)
    (hskip : s.Skips name r) (t : Text) : r.Counts (s.callText name) t := by
  simp only [isPlain, Bool.and_eq_true, Bool.not_eq_true'] at hr
  obtain ⟨⟨⟨hp, hwrites⟩, htakes⟩, hopening⟩ := hr
  exact counts_of_writesApart hn hp hwrites (fun a h t' => isPrefixOf_append_taken hn hopening)
    (countsFields hn htakes hskip t)

theorem callText_split {a b : Text} (h : s.callText name = a ++ b) (hb : b ≠ []) :
    (∃ o, s.opening = a ++ o ∧ o ≠ [] ∧ b = o ++ (name ++ ['('])) ∨
      ∃ n₁ n₂, name = n₁ ++ n₂ ∧ a = s.opening ++ n₁ ∧ b = n₂ ++ ['('] := by
  obtain ⟨b, d, rfl⟩ := (List.eq_nil_or_concat b).resolve_left hb
  rw [callText, List.concat_eq_append, ← List.append_assoc, ← List.append_assoc] at h
  obtain ⟨hname, hd⟩ := List.append_inj' h rfl
  obtain rfl : '(' = d := List.singleton_inj.1 hd
  rw [List.concat_eq_append]
  rcases List.append_eq_append_iff.1 hname with ⟨x, hx, rfl⟩ | ⟨o, ho, rfl⟩
  · exact Or.inr ⟨x, b, rfl, hx, rfl⟩
  · by_cases hne : o = []
    · subst hne
      exact Or.inr ⟨[], name, rfl, by simpa using ho.symm, rfl⟩
    · exact Or.inl ⟨o, ho, hne, by simp⟩

theorem isPrefixOf_append_of_split {a x : Text}
    (hopening : ∀ o, s.opening = a ++ o → o ≠ [] → ¬ o ++ (name ++ ['(']) <+: x)
    (hname : ∀ n₁ n₂, name = n₁ ++ n₂ → a = s.opening ++ n₁ → ¬ n₂ ++ ['('] <+: x) :
    (s.callText name).isPrefixOf (a ++ x) = (s.callText name).isPrefixOf a := by
  rw [Bool.eq_iff_iff, List.isPrefixOf_iff_prefix, List.isPrefixOf_iff_prefix]
  refine ⟨fun hp => ?_, fun hp => hp.trans (List.prefix_append a x)⟩
  rcases List.prefix_or_prefix_of_prefix hp (List.prefix_append a x) with hp' | ⟨b, hb⟩
  · exact hp'
  · by_cases hbn : b = []
    · rw [hbn, List.append_nil] at hb
      exact hb ▸ List.prefix_rfl
    · rw [← hb, List.prefix_append_right_inj] at hp
      rcases callText_split hb.symm hbn with ⟨o, ho, hon, rfl⟩ | ⟨n₁, n₂, hn, ha, rfl⟩
      · exact absurd hp (hopening o ho hon)
      · exact absurd hp (hname n₁ n₂ hn ha)

def interrupts (s : CallSpace) (l : Text) : Bool :=
  s.opening.tail.tails.all fun o => o.isEmpty || !agree o l

theorem not_isPrefix_of_interrupts {l a o y x : Text} (hl : s.interrupts l = true) (hne : a ≠ [])
    (ho : s.opening = a ++ o) (hon : o ≠ []) : ¬ o ++ y <+: l ++ x := by
  intro hp
  obtain ⟨c, a, rfl⟩ := List.exists_cons_of_ne_nil hne
  have htail : o <:+ s.opening.tail := by rw [ho]; exact List.suffix_append a o
  have hagree := List.all_eq_true.1 hl o ((List.mem_tails _ _).2 htail)
  rw [agree_of_isPrefix ((List.prefix_append o y).trans hp) (List.prefix_append l x)] at hagree
  simp [hon] at hagree

theorem isPrefixOf_append_of_open_not_mem {a x : Text} (hx : '(' ∉ x) :
    (s.callText name).isPrefixOf (a ++ x) = (s.callText name).isPrefixOf a :=
  isPrefixOf_append_of_split (fun _ _ _ hp => hx (hp.subset (by simp)))
    fun _ _ _ _ hp => hx (hp.subset (by simp))

theorem occurrences_append_open (hn : IsName name) {w : Text} (hw : '.' ∉ w) (t : Text) :
    (s.callText name).occurrences (w ++ '(' :: t) = (s.callText name).occurrences t := by
  have hassoc : w ++ '(' :: t = (w ++ ['(']) ++ t := by simp
  rw [hassoc]
  refine sites_append_of_none fun v hv hne => ?_
  rw [← Bool.not_eq_true, List.isPrefixOf_iff_prefix]
  exact fun hp => quiet_append_open hw v hv hne s t ⟨name, hn, hp⟩

end CallSpace

end GlideBridge
