import GlideBridge.Proofs.Rewriting

/-! Places where a call of one of the two namespaces begins. No call begins inside the text of
another, so the hits of a call pattern are all its places, and the rules for calls that are left
over put a comment mark in front of each of them and change nothing else. -/

namespace GlideBridge

inductive CallSpace where
  | form
  | system
  deriving DecidableEq, Repr

namespace CallSpace

def opening : CallSpace → Text
  | form => ['g', '_', 'f', 'o', 'r', 'm', '.']
  | system => ['g', 's', '.']

def pattern : CallSpace → Pattern
  | form => Catalog.formCall
  | system => Catalog.systemCall

def callText (s : CallSpace) (name : Text) : Text := s.opening ++ (name ++ ['('])

def IsName (name : Text) : Prop := name ≠ [] ∧ ∀ c ∈ name, c.isAlpha = true

/-- A call of the namespace begins at the start of `t`. -/
def Starts (s : CallSpace) (t : Text) : Prop := ∃ name, IsName name ∧ s.callText name <+: t

theorem pattern_inline (s : CallSpace) : s.pattern.lineStart = false := by cases s <;> rfl

theorem pattern_opening (s : CallSpace) : s.pattern.opening = s.opening := by
  cases s <;> exact String.toList_ofList

theorem pattern_steps (s : CallSpace) :
    s.pattern.steps = [.literal s.opening, .field .letter, .literal ['(']] := by cases s <;> rfl

theorem match_eq_some_iff {s : CallSpace} {t : Text} {h : Hit} :
    matchPieces s.pattern.steps t = some h ↔
      ∃ name, IsName name ∧ s.callText name <+: t ∧ h = ⟨s.callText name, [name]⟩ := by
  rw [pattern_steps, matchPieces_literal_eq_some_iff]
  have hstop : Stops .letter [.literal ['(']] := stops_literal (by decide) _ _
  constructor
  · rintro ⟨u, g, rfl, hg, rfl⟩
    obtain ⟨name, v, f, rfl, hne, hname, hf, rfl⟩ := (matchPieces_field_eq_some_iff hstop).1 hg
    obtain ⟨v, e, rfl, he, rfl⟩ := matchPieces_literal_eq_some_iff.1 hf
    cases he
    exact ⟨name, ⟨hne, hname⟩, ⟨v, by simp [callText]⟩, by simp [callText, Hit.after, Hit.capture]⟩
  · rintro ⟨name, ⟨hne, hname⟩, ⟨v, rfl⟩, rfl⟩
    refine ⟨name ++ ('(' :: v), ⟨name ++ ['('], [name]⟩, by simp [callText], ?_, rfl⟩
    refine (matchPieces_field_eq_some_iff hstop).2
      ⟨name, '(' :: v, ⟨['('], []⟩, rfl, hne, hname, ?_, rfl⟩
    exact matchPieces_literal_eq_some_iff.2 ⟨v, ⟨[], []⟩, rfl, rfl, rfl⟩

theorem match_eq_none_iff {s : CallSpace} {t : Text} :
    matchPieces s.pattern.steps t = none ↔ ¬ s.Starts t := by
  rw [Option.eq_none_iff_forall_ne_some]
  constructor
  · rintro h ⟨name, hn, hp⟩
    exact h _ (match_eq_some_iff.2 ⟨name, hn, hp, rfl⟩)
  · intro h g hg
    obtain ⟨name, hn, hp, -⟩ := match_eq_some_iff.1 hg
    exact h ⟨name, hn, hp⟩

theorem opening_eq (s : CallSpace) : ∃ o, s.opening = 'g' :: o ∧ 'g' ∉ o ∧ '.' ∈ o ∧ '(' ∉ o := by
  cases s
  · exact ⟨['_', 'f', 'o', 'r', 'm', '.'], rfl, by decide, by decide, by decide⟩
  · exact ⟨['s', '.'], rfl, by decide, by decide, by decide⟩

theorem Starts.head {s : CallSpace} {c : Char} {t : Text} (h : s.Starts (c :: t)) : c = 'g' := by
  obtain ⟨name, -, v, hv⟩ := h
  obtain ⟨o, ho, -⟩ := s.opening_eq
  rw [callText, ho, List.cons_append, List.cons_append] at hv
  exact (List.cons.inj hv).1.symm

theorem callText_eq_cons (s : CallSpace) (name : Text) :
    ∃ w, s.callText name = 'g' :: w := by
  obtain ⟨o, ho, -⟩ := s.opening_eq
  exact ⟨o ++ (name ++ ['(']), by rw [callText, ho, List.cons_append]⟩

theorem not_starts_nil (s : CallSpace) : ¬ s.Starts [] := by
  rintro ⟨name, -, hp⟩
  obtain ⟨w, hw⟩ := s.callText_eq_cons name
  rw [hw] at hp
  exact absurd (List.prefix_nil.1 hp) (by simp)

theorem Starts.unique {s s' : CallSpace} {t : Text} (h : s.Starts t) (h' : s'.Starts t) :
    s = s' := by
  obtain ⟨name, -, u, hu⟩ := h
  obtain ⟨name', -, u', hu'⟩ := h'
  rw [← hu'] at hu
  cases s <;> cases s' <;> first | rfl | (simp [callText, opening] at hu)

theorem not_starts_append_open {s : CallSpace} {w : Text} (hw : '.' ∉ w) (t : Text) :
    ¬ s.Starts (w ++ '(' :: t) := by
  rintro ⟨name, -, u, hu⟩
  obtain ⟨o, ho, -, hmem, hpar⟩ := s.opening_eq
  rw [callText, ho, List.append_assoc] at hu
  rcases List.append_eq_append_iff.1 hu with ⟨x, rfl, -⟩ | ⟨x, hx, hx'⟩
  · exact hw (List.mem_append_left _ (List.mem_cons_of_mem _ hmem))
  · cases x with
    | nil =>
      rw [List.append_nil] at hx
      exact hw (hx ▸ List.mem_cons_of_mem _ hmem)
    | cons d x =>
      obtain ⟨rfl, -⟩ := List.cons.inj hx'
      have hopen : '(' ∈ 'g' :: o := hx ▸ List.mem_append_right w List.mem_cons_self
      rcases List.mem_cons.1 hopen with heq | hopen
      · exact absurd heq (by decide)
      · exact hpar hopen

def Quiet (w : Text) : Prop :=
  ∀ v, v <:+ w → v ≠ [] → ∀ (s : CallSpace) (t : Text), ¬ s.Starts (v ++ t)

theorem Quiet.of_cons {c : Char} {w : Text} (h : Quiet (c :: w)) : Quiet w :=
  fun v hv => h v (hv.trans (List.suffix_cons c w))

theorem Quiet.cons {c : Char} {w : Text}
    (hc : ∀ (s : CallSpace) (t : Text), ¬ s.Starts (c :: (w ++ t))) (hw : Quiet w) :
    Quiet (c :: w) := by
  intro v hv hne s t
  rcases List.suffix_cons_iff.1 hv with rfl | hv
  · exact hc s t
  · exact hw v hv hne s t

theorem Quiet.append_of_not_mem {o w : Text} (ho : 'g' ∉ o) (hw : Quiet w) : Quiet (o ++ w) := by
  induction o with
  | nil => exact hw
  | cons c o ih =>
    rw [List.mem_cons, not_or] at ho
    exact .cons (fun _ _ hs => ho.1 hs.head.symm) (ih ho.2)

theorem quiet_append_open {w : Text} (hw : '.' ∉ w) : Quiet (w ++ ['(']) := by
  rintro v ⟨x, hx⟩ hne s t
  obtain ⟨v, d, rfl⟩ := (List.eq_nil_or_concat v).resolve_left hne
  rw [List.concat_eq_append, ← List.append_assoc] at hx
  obtain ⟨rfl, hd⟩ := List.append_inj' hx rfl
  obtain rfl := List.singleton_inj.1 hd
  rw [List.concat_eq_append, List.append_assoc]
  exact not_starts_append_open (fun hm => hw (List.mem_append_right x hm)) t

theorem not_mem_name {name : Text} (hn : IsName name) {c : Char} (hc : c.isAlpha = false) :
    c ∉ name := by
  intro hm
  rw [hn.2 c hm] at hc
  cases hc

theorem quiet_tail_callText {s : CallSpace} {name w : Text} (hn : IsName name)
    (hw : s.callText name = 'g' :: w) : Quiet w := by
  obtain ⟨o, ho, hg, -⟩ := s.opening_eq
  rw [callText, ho, List.cons_append] at hw
  rw [← (List.cons.inj hw).2]
  exact (quiet_append_open (not_mem_name hn (by decide))).append_of_not_mem hg

theorem not_mem_callText {s : CallSpace} {name : Text} (hn : IsName name) {c : Char}
    (hc : c.isAlpha = false) (hs : c ∉ s.callText []) : c ∉ s.callText name := by
  simp only [callText, List.nil_append, List.mem_append, not_or] at hs ⊢
  exact ⟨hs.1, not_mem_name hn hc, hs.2⟩

theorem slash_not_mem_callText {s : CallSpace} {name : Text} (hn : IsName name) :
    '/' ∉ s.callText name := not_mem_callText hn (by decide) (by cases s <;> decide)

instance (s : CallSpace) (t : Text) : Decidable (s.Starts t) :=
  decidable_of_iff ((matchPieces s.pattern.steps t).isSome = true) <| by
    rw [Option.isSome_iff_ne_none, Ne, match_eq_none_iff, Classical.not_not]

/-- The text with a comment mark in front of every call of the namespaces. -/
def mark (S : List CallSpace) : Text → Text
  | [] => []
  | c :: t => if ∃ s ∈ S, s.Starts (c :: t) then '/' :: '/' :: ' ' :: c :: mark S t
    else c :: mark S t

theorem prefix_mark_iff {S : List CallSpace} {w t : Text} (hslash : '/' ∉ w) (hw : Quiet w) :
    w <+: mark S t ↔ w <+: t := by
  induction w generalizing t with
  | nil => simp
  | cons d w ih =>
    cases t with
    | nil => simp [mark]
    | cons c t =>
      have hd : '/' ≠ d := fun h => hslash (h ▸ List.mem_cons_self)
      have hcons : d :: w <+: c :: mark S t ↔ d :: w <+: c :: t := by
        rw [List.cons_prefix_cons, List.cons_prefix_cons,
          ih (fun h => hslash (List.mem_cons_of_mem d h)) hw.of_cons]
      rw [mark]
      split
      · next hs =>
        obtain ⟨s, -, hs⟩ := hs
        constructor
        · intro hp
          exact absurd (List.cons_prefix_cons.1 hp).1.symm hd
        · rintro ⟨u, hu⟩
          rw [← hu] at hs
          exact absurd hs (hw _ List.suffix_rfl (by simp) s u)
      · exact hcons

theorem prefix_cons_mark_iff {S : List CallSpace} {s : CallSpace} {name : Text}
    (hn : IsName name) (c : Char) (t : Text) :
    s.callText name <+: c :: mark S t ↔ s.callText name <+: c :: t := by
  obtain ⟨w, hw⟩ := s.callText_eq_cons name
  have hslash : '/' ∉ w :=
    fun h => slash_not_mem_callText (s := s) hn (hw ▸ List.mem_cons_of_mem _ h)
  rw [hw, List.cons_prefix_cons, List.cons_prefix_cons,
    prefix_mark_iff hslash (quiet_tail_callText hn hw)]

theorem starts_cons_mark_iff {S : List CallSpace} (s : CallSpace) (c : Char) (t : Text) :
    s.Starts (c :: mark S t) ↔ s.Starts (c :: t) := by
  constructor
  · rintro ⟨name, hn, hp⟩
    exact ⟨name, hn, (prefix_cons_mark_iff hn c t).1 hp⟩
  · rintro ⟨name, hn, hp⟩
    exact ⟨name, hn, (prefix_cons_mark_iff hn c t).2 hp⟩

theorem mark_cons_of_not_starts {s : CallSpace} {c : Char} {t : Text} (h : ¬ s.Starts (c :: t)) :
    mark [s] (c :: t) = c :: mark [s] t := by
  simp [mark, h]

theorem mark_cons_of_starts {s : CallSpace} {c : Char} {t : Text} (h : s.Starts (c :: t)) :
    mark [s] (c :: t) = '/' :: '/' :: ' ' :: c :: mark [s] t := by
  simp [mark, h]

theorem mark_quiet_append {s : CallSpace} {w : Text} (hw : Quiet w) (t : Text) :
    mark [s] (w ++ t) = w ++ mark [s] t := by
  induction w with
  | nil => rfl
  | cons c w ih =>
    have hc : ¬ s.Starts (c :: (w ++ t)) := hw (c :: w) List.suffix_rfl (by simp) s t
    rw [List.cons_append, mark_cons_of_not_starts hc, ih hw.of_cons, List.cons_append]

def leftoverRule (s : CallSpace) : Rule :=
  ⟨s.pattern, [.text ('/' :: '/' :: ' ' :: s.opening), .field 0, .text ['(']]⟩

theorem leftoverRule_fill (s : CallSpace) (name : Text) :
    s.leftoverRule.fill ⟨s.callText name, [name]⟩ = '/' :: '/' :: ' ' :: s.callText name := by
  simp [leftoverRule, Rule.fill, callText]

theorem leftoverRule_apply (s : CallSpace) (t : Text) : s.leftoverRule.apply t = mark [s] t := by
  induction t using s.pattern.scan_induction with
  | nil => rfl
  | kept c t hm ih =>
    rw [Rule.apply_kept s.pattern_inline hm, mark_cons_of_not_starts (match_eq_none_iff.1 hm), ih]
  | hit h t hm ih =>
    rw [Rule.apply_hit s.pattern_inline hm]
    obtain ⟨name, hn, -, rfl⟩ := match_eq_some_iff.1 hm
    obtain ⟨w, hw⟩ := s.callText_eq_cons name
    have hs : s.Starts ('g' :: (w ++ t)) := ⟨name, hn, by rw [hw]; exact ⟨t, rfl⟩⟩
    rw [leftoverRule_fill, ih]
    simp only [hw, List.cons_append, mark_cons_of_starts hs,
      mark_quiet_append (quiet_tail_callText hn hw)]

theorem not_starts_cons {s : CallSpace} {c : Char} (hc : c ≠ 'g') (t : Text) :
    ¬ s.Starts (c :: t) := fun h => hc h.head

theorem mark_comment_append (s : CallSpace) (t : Text) :
    mark [s] ('/' :: '/' :: ' ' :: t) = '/' :: '/' :: ' ' :: mark [s] t := by
  rw [mark_cons_of_not_starts (not_starts_cons (by decide) _),
    mark_cons_of_not_starts (not_starts_cons (by decide) _),
    mark_cons_of_not_starts (not_starts_cons (by decide) _)]

theorem mark_mark {s : CallSpace} {S : List CallSpace} (hs : s ∉ S) (t : Text) :
    mark [s] (mark S t) = mark (s :: S) t := by
  induction t with
  | nil => rfl
  | cons c t ih =>
    by_cases hS : ∃ s ∈ S, s.Starts (c :: t)
    · -- calls of two namespaces do not begin at one place
      have hne : ¬ s.Starts (c :: mark S t) := by
        obtain ⟨s', hs', hstart⟩ := hS
        intro h
        obtain rfl := Starts.unique ((starts_cons_mark_iff s c t).1 h) hstart
        exact hs hs'
      have hany : ∃ s' ∈ s :: S, s'.Starts (c :: t) := by
        obtain ⟨s', hs', hstart⟩ := hS
        exact ⟨s', List.mem_cons_of_mem s hs', hstart⟩
      have hl : mark S (c :: t) = '/' :: '/' :: ' ' :: c :: mark S t := by rw [mark, if_pos hS]
      rw [hl, mark_comment_append, mark_cons_of_not_starts hne, ih]
      exact (if_pos hany).symm
    · have hl : mark S (c :: t) = c :: mark S t := by rw [mark, if_neg hS]
      have hr : mark (s :: S) (c :: t) = if ∃ s' ∈ s :: S, s'.Starts (c :: t)
        then '/' :: '/' :: ' ' :: c :: mark (s :: S) t else c :: mark (s :: S) t := rfl
      rw [hl, hr, ← ih]
      by_cases h : s.Starts (c :: t)
      · rw [mark_cons_of_starts ((starts_cons_mark_iff s c t).2 h),
          if_pos ⟨s, List.mem_cons_self, h⟩]
      · have hnone : ¬ ∃ s' ∈ s :: S, s'.Starts (c :: t) := by
          rintro ⟨s', hs', hstart⟩
          rcases List.mem_cons.1 hs' with rfl | hs'
          · exact h hstart
          · exact hS ⟨s', hs', hstart⟩
        rw [mark_cons_of_not_starts (fun hstart => h ((starts_cons_mark_iff s c t).1 hstart)),
          if_neg hnone]

theorem leftoverGroup_apply (t : Text) :
    Catalog.leftoverGroup.apply t = mark [system, form] t := by
  have hrules : Catalog.leftoverGroup.apply t =
      system.leftoverRule.apply (form.leftoverRule.apply t) := rfl
  rw [hrules, leftoverRule_apply, leftoverRule_apply, mark_mark (by decide)]

def callAt? (s : CallSpace) (t : Text) : Option Text :=
  (matchPieces s.pattern.steps t).map fun h => h.taken.dropLast

def calls (s : CallSpace) : Text → List Text
  | [] => []
  | c :: t => (s.callAt? (c :: t)).toList ++ s.calls t

theorem callAt?_eq_none {s : CallSpace} {t : Text} (h : ¬ s.Starts t) : s.callAt? t = none := by
  rw [callAt?, match_eq_none_iff.2 h, Option.map_none]

theorem callAt?_congr {s : CallSpace} {t u : Text}
    (h : ∀ name, IsName name → (s.callText name <+: t ↔ s.callText name <+: u)) :
    s.callAt? t = s.callAt? u := by
  have hm : matchPieces s.pattern.steps t = matchPieces s.pattern.steps u := by
    ext g
    simp only [match_eq_some_iff]
    constructor
    · rintro ⟨name, hn, hp, rfl⟩
      exact ⟨name, hn, (h name hn).1 hp, rfl⟩
    · rintro ⟨name, hn, hp, rfl⟩
      exact ⟨name, hn, (h name hn).2 hp, rfl⟩
  rw [callAt?, callAt?, hm]

theorem exists_name_of_mem_calls {s : CallSpace} {t call : Text} (h : call ∈ s.calls t) :
    ∃ name, IsName name ∧ call = s.opening ++ name := by
  induction t with
  | nil => cases h
  | cons c t ih =>
    rw [calls, List.mem_append, Option.mem_toList] at h
    refine h.elim (fun h => ?_) ih
    obtain ⟨g, hg, rfl⟩ := Option.map_eq_some_iff.1 h
    obtain ⟨name, hn, -, rfl⟩ := match_eq_some_iff.1 hg
    exact ⟨name, hn, by simp [callText, ← List.append_assoc]⟩

theorem calls_cons_of_ne {s : CallSpace} {c : Char} (hc : c ≠ 'g') (t : Text) :
    s.calls (c :: t) = s.calls t := by
  rw [calls, callAt?_eq_none (not_starts_cons hc t)]
  rfl

theorem calls_append_of_not_starts {s : CallSpace} {w t : Text}
    (hw : ∀ v, v <:+ w → v ≠ [] → ¬ s.Starts (v ++ t)) : s.calls (w ++ t) = s.calls t := by
  induction w with
  | nil => rfl
  | cons c w ih =>
    have hc : ¬ s.Starts (c :: (w ++ t)) := hw (c :: w) List.suffix_rfl (by simp)
    rw [List.cons_append, calls, callAt?_eq_none hc,
      ih fun v hv => hw v (hv.trans (List.suffix_cons c w))]
    rfl

theorem calls_quiet_append {s : CallSpace} {w : Text} (hw : Quiet w) (t : Text) :
    s.calls (w ++ t) = s.calls t :=
  calls_append_of_not_starts fun v hv hne => hw v hv hne s t

theorem calls_callText_append {s : CallSpace} {name : Text} (hn : IsName name) (t : Text) :
    s.calls (s.callText name ++ t) = (s.opening ++ name) :: s.calls t := by
  obtain ⟨w, hw⟩ := s.callText_eq_cons name
  have hm : matchPieces s.pattern.steps (s.callText name ++ t) = some ⟨s.callText name, [name]⟩ :=
    match_eq_some_iff.2 ⟨name, hn, List.prefix_append _ t, rfl⟩
  have hcall : s.callAt? ('g' :: (w ++ t)) = some (s.opening ++ name) := by
    rw [callAt?, ← List.cons_append, ← hw, hm]
    simp [callText, ← List.append_assoc]
  rw [hw, List.cons_append, calls, hcall, calls_quiet_append (quiet_tail_callText hn hw)]
  rfl

theorem hits_eq_calls (s : CallSpace) (t : Text) :
    (s.pattern.hits t).map (fun h => h.taken.dropLast) = s.calls t := by
  induction t using s.pattern.scan_induction with
  | nil => rfl
  | kept c t hm ih =>
    rw [Pattern.hits_kept s.pattern_inline hm, calls, callAt?_eq_none (match_eq_none_iff.1 hm)]
    exact ih
  | hit h t hm ih =>
    rw [Pattern.hits_hit s.pattern_inline hm]
    obtain ⟨name, hn, -, rfl⟩ := match_eq_some_iff.1 hm
    rw [calls_callText_append hn, ← ih]
    simp [callText, ← List.append_assoc]

theorem leftoverCalls_eq (t : Text) :
    Catalog.leftoverCalls t = form.calls t ++ system.calls t := by
  rw [← hits_eq_calls, ← hits_eq_calls]
  simp only [Catalog.leftoverCalls, List.flatMap_cons, List.flatMap_nil, List.append_nil]
  rfl

theorem calls_mark (s : CallSpace) (S : List CallSpace) (t : Text) :
    s.calls (mark S t) = s.calls t := by
  induction t with
  | nil => rfl
  | cons c t ih =>
    have hcons : s.calls (c :: mark S t) = s.calls (c :: t) := by
      rw [calls, calls, ih, callAt?_congr fun name hn => prefix_cons_mark_iff hn c t]
    rw [mark]
    split
    · rw [calls_cons_of_ne (by decide), calls_cons_of_ne (by decide),
        calls_cons_of_ne (by decide), hcons]
    · exact hcons

/-- Every call of the namespace stands behind a comment mark. -/
inductive Marked (s : CallSpace) : Text → Prop
  | nil : Marked s []
  | plain {c : Char} {t : Text} : ¬ s.Starts (c :: t) → Marked s t → Marked s (c :: t)
  | call {t : Text} : Marked s t → Marked s ('/' :: '/' :: ' ' :: 'g' :: t)

theorem marked_mark {s : CallSpace} {S : List CallSpace} (hs : s ∈ S) (t : Text) :
    s.Marked (mark S t) := by
  induction t with
  | nil => exact .nil
  | cons c t ih =>
    rw [mark]
    split
    · next hS =>
      obtain ⟨s', -, hstart⟩ := hS
      obtain rfl := hstart.head
      exact .call ih
    · next hS =>
      refine .plain (fun hstart => hS ⟨s, hs, ?_⟩) ih
      exact (starts_cons_mark_iff s c t).1 hstart

theorem Marked.suffix_of_starts {s : CallSpace} {t : Text} (h : s.Marked t) {before after : Text}
    (ht : t = before ++ after) (hs : s.Starts after) : ['/', '/', ' '] <:+ before := by
  induction h generalizing before with
  | nil =>
    obtain ⟨-, rfl⟩ := List.append_eq_nil_iff.1 ht.symm
    exact absurd hs (not_starts_nil s)
  | @plain c t hc _ ih =>
    cases before with
    | nil => exact absurd (ht ▸ hs) hc
    | cons d before =>
      obtain ⟨rfl, hrest⟩ := List.cons.inj ht
      exact (ih hrest).trans (List.suffix_cons _ _)
  | @call t _ ih =>
    have hsplit : ['/', '/', ' '] ++ 'g' :: t = before ++ after := ht
    rcases List.append_eq_append_iff.1 hsplit with ⟨x, rfl, hx⟩ | ⟨x, hx, rfl⟩
    · cases x with
      | nil => simp
      | cons c x =>
        obtain ⟨rfl, hrest⟩ := List.cons.inj hx
        exact ((ih hrest).trans (List.suffix_cons 'g' x)).trans (List.suffix_append _ _)
    · -- the call does not begin inside the mark, which has no `g`
      cases x with
      | nil => simp [hx]
      | cons c x =>
        obtain rfl : c = 'g' := hs.head
        have hmem : 'g' ∈ ['/', '/', ' '] := hx ▸ by simp
        exact absurd hmem (by decide)

end CallSpace

end GlideBridge
