import GlideBridge.Proofs.CallCounts
import GlideBridge.Proofs.Report

/-! Calls whose name has a digit or an underscore, or stands apart from its parenthesis. The rules
for calls that are left over look for letters and the parenthesis directly behind them, so such a
call is passed over: it goes into the handler as it is in the converted script, and no comment
mark is put in front of it. -/

namespace GlideBridge

open Text

namespace CallSpace

variable {s : CallSpace} {S : List CallSpace} {name blanks v w t u : Text}

def looseText (s : CallSpace) (name blanks : Text) : Text :=
  s.opening ++ (name ++ (blanks ++ ['(']))

structure IsLoose (name blanks : Text) : Prop where
  name_ne : name ≠ []
  word : ∀ c ∈ name, CharClass.isWord c = true
  blank : ∀ c ∈ blanks, isBlank c = true

structure IsPassedOver (name blanks : Text) : Prop extends IsLoose name blanks where
  line : '\n' ∉ blanks
  apart : ¬ IsName name ∨ blanks ≠ []

theorem IsLoose.not_mem {c : Char} (h : IsLoose name blanks) (hword : CharClass.isWord c = false)
    (hblank : isBlank c = false) : c ∉ name ++ blanks := by
  intro hm
  rcases List.mem_append.1 hm with hm | hm
  · rw [h.word c hm] at hword
    cases hword
  · rw [h.blank c hm] at hblank
    cases hblank

theorem name_eq_of_isPrefix_looseText {s' : CallSpace} {name' : Text} (hn : IsName name')
    (h : IsLoose name blanks) (hp : s'.callText name' <+: s.looseText name blanks ++ t) :
    name' = name ++ blanks := by
  have hopen := h.not_mem (c := '(') (by decide) (by decide)
  obtain ⟨u, hu⟩ := hp
  have hu' : s'.opening ++ (name' ++ '(' :: u) = s.opening ++ ((name ++ blanks) ++ '(' :: t) := by
    simpa [callText, looseText] using hu
  have hs : s' = s := by
    cases s <;> cases s' <;> first | rfl | (simp [opening] at hu')
  rw [hs] at hu'
  exact eq_of_append_cons (not_mem_name hn (by decide)) hopen (List.append_cancel_left hu')

namespace IsPassedOver

theorem not_starts (h : IsPassedOver name blanks) (s s' : CallSpace) (t : Text) :
    ¬ s'.Starts (s.looseText name blanks ++ t) := by
  rintro ⟨name', hn, hp⟩
  obtain rfl := name_eq_of_isPrefix_looseText hn h.toIsLoose hp
  have hblanks : blanks = [] := by
    refine List.eq_nil_iff_forall_not_mem.2 fun c hc => ?_
    have halpha := hn.2 c (List.mem_append_right name hc)
    have hword : CharClass.isWord c = true := by simp [CharClass.isWord, Char.isAlphanum, halpha]
    have hblank := h.blank c hc
    rw [isBlank_of_isWord hword] at hblank
    cases hblank
  refine h.apart.elim (fun hname => hname ?_) fun hne => hne hblanks
  rwa [hblanks, List.append_nil] at hn

theorem looseText_eq (h : IsPassedOver name blanks) (s : CallSpace) :
    ∃ v, s.looseText name blanks = 'g' :: (v ++ ['(']) ∧ Quiet ('g' :: (v ++ ['('])) ∧
      ∀ c ∈ ['/', ';', '\n'], c ∉ v := by
  obtain ⟨o, ho, hg, -⟩ := s.opening_eq
  have hdot := h.toIsLoose.not_mem (c := '.') (by decide) (by decide)
  have heq : s.looseText name blanks = 'g' :: ((o ++ (name ++ blanks)) ++ ['(']) := by
    simp [looseText, ho]
  refine ⟨o ++ (name ++ blanks), heq, ?_, fun c hc => ?_⟩
  · refine .cons (fun s' t => ?_) ?_
    · rw [← List.cons_append, ← heq]
      exact h.not_starts s s' t
    · rw [List.append_assoc]
      exact (quiet_append_open hdot).append_of_not_mem hg
  · have hopening : ∀ c ∈ ['/', ';', '\n'], c ∉ s.opening := by cases s <;> decide
    have hout := hopening c hc
    rw [ho, List.mem_cons, not_or] at hout
    rw [List.mem_append, not_or]
    refine ⟨hout.2, ?_⟩
    simp only [List.mem_cons, List.not_mem_nil, or_false] at hc
    rcases hc with rfl | rfl | rfl
    · exact h.toIsLoose.not_mem (by decide) (by decide)
    · exact h.toIsLoose.not_mem (by decide) (by decide)
    · rw [List.mem_append, not_or]
      refine ⟨fun hm => ?_, h.line⟩
      exact absurd (h.word _ hm) (by decide)

end IsPassedOver

theorem cons_prefix_mark_iff {d : Char} (hd : d ≠ 'g') (hmark : agree (d :: v) ['/', '/'] = false)
    (hv : ∀ t, v <+: mark S t ↔ v <+: t) (t : Text) : d :: v <+: mark S t ↔ d :: v <+: t := by
  cases t with
  | nil => rfl
  | cons c t =>
    rw [mark]
    split
    · next hs =>
      obtain ⟨s, -, hs⟩ := hs
      refine iff_of_false (fun hp => ?_) fun hp => hd ((List.cons_prefix_cons.1 hp).1.trans hs.head)
      rw [agree_of_isPrefix hp ⟨_, rfl⟩] at hmark
      cases hmark
    · rw [List.cons_prefix_cons, List.cons_prefix_cons, hv]

theorem occurrences_cons_of_not_isPrefix {c : Char} (h : ¬ v <+: c :: t) :
    Text.occurrences v (c :: t) = Text.occurrences v t := by
  have hbool : v.isPrefixOf (c :: t) = false := by
    rwa [← Bool.not_eq_true, List.isPrefixOf_iff_prefix]
  rw [Text.occurrences, sites, hbool]
  exact Nat.zero_add _

theorem occurrences_cons_of_ne {c d : Char} (h : d ≠ c) :
    Text.occurrences (d :: v) (c :: t) = Text.occurrences (d :: v) t :=
  occurrences_cons_of_not_isPrefix fun hp => h (List.cons_prefix_cons.1 hp).1

theorem occurrences_cons_congr {c : Char} (hp : v <+: c :: t ↔ v <+: c :: u)
    (h : Text.occurrences v t = Text.occurrences v u) :
    Text.occurrences v (c :: t) = Text.occurrences v (c :: u) := by
  have hbool : v.isPrefixOf (c :: t) = v.isPrefixOf (c :: u) := by
    rwa [Bool.eq_iff_iff, List.isPrefixOf_iff_prefix, List.isPrefixOf_iff_prefix]
  rw [Text.occurrences] at h ⊢
  rw [sites, sites, hbool, h]

theorem occurrences_mark (hslash : '/' ∉ w) (hw : Quiet w) (t : Text) :
    Text.occurrences ('g' :: w) (mark S t) = Text.occurrences ('g' :: w) t := by
  induction t with
  | nil => rfl
  | cons c t ih =>
    have hcons : Text.occurrences ('g' :: w) (c :: mark S t) =
        Text.occurrences ('g' :: w) (c :: t) := by
      refine occurrences_cons_congr ?_ ih
      rw [List.cons_prefix_cons, List.cons_prefix_cons, prefix_mark_iff hslash hw]
    rw [mark]
    split
    · rw [occurrences_cons_of_ne (by decide), occurrences_cons_of_ne (by decide),
        occurrences_cons_of_ne (by decide), hcons]
    · exact hcons

theorem occurrences_mark_comment (hslash : '/' ∉ w) (hw : Quiet ('g' :: w)) (t : Text) :
    Text.occurrences ('/' :: '/' :: ' ' :: 'g' :: w) (mark S t) =
      Text.occurrences ('/' :: '/' :: ' ' :: 'g' :: w) t := by
  have htail (t : Text) : w <+: mark S t ↔ w <+: t := prefix_mark_iff hslash hw.of_cons
  have hcall (t : Text) : 'g' :: w <+: mark S t ↔ 'g' :: w <+: t :=
    prefix_mark_iff (by simp [hslash]) hw
  have hspace := cons_prefix_mark_iff (d := ' ') (by decide) rfl hcall
  have hmark := cons_prefix_mark_iff (d := '/') (by decide) rfl hspace
  induction t with
  | nil => rfl
  | cons c t ih =>
    rw [mark]
    split
    · next hs =>
      obtain ⟨s, -, hs⟩ := hs
      obtain rfl := hs.head
      -- behind the new mark stands a call of letters, which the quiet text cannot begin
      have hfirst : ¬ '/' :: '/' :: ' ' :: 'g' :: w <+: '/' :: '/' :: ' ' :: 'g' :: mark S t := by
        simp only [List.cons_prefix_cons, true_and, htail]
        rintro ⟨x, rfl⟩
        exact hw _ List.suffix_rfl (List.cons_ne_nil _ _) s x hs
      have hsecond : ¬ '/' :: '/' :: ' ' :: 'g' :: w <+: '/' :: ' ' :: 'g' :: mark S t := by
        simp [List.cons_prefix_cons]
      rw [occurrences_cons_of_not_isPrefix hfirst, occurrences_cons_of_not_isPrefix hsecond,
        occurrences_cons_of_ne (by decide), occurrences_cons_of_ne (by decide), ih,
        occurrences_cons_of_ne (by decide)]
    · refine occurrences_cons_congr ?_ ih
      rw [List.cons_prefix_cons, List.cons_prefix_cons, hmark]

theorem occurrences_relaid (h : Relaid t u) {d : Char} (hd : d ≠ ';' ∧ isBlank d = false)
    (hsemi : ';' ∉ v) (hline : '\n' ∉ v) :
    Text.occurrences (d :: (v ++ ['('])) t = Text.occurrences (d :: (v ++ ['('])) u := by
  -- no occurrence begins at a character that comes or goes
  have hne {c : Char} (hc : c = ';' ∨ isBlank c = true) : d ≠ c := by
    rintro rfl
    rcases hc with hc | hc
    · exact hd.1 hc
    · rw [hd.2] at hc
      cases hc
  have hblank {x : Text} (hx : ∀ c ∈ x, isBlank c = true) (t : Text) :
      Text.occurrences (d :: (v ++ ['('])) (x ++ t) = Text.occurrences (d :: (v ++ ['('])) t := by
    induction x with
    | nil => rfl
    | cons c x ih =>
      rw [List.cons_append, occurrences_cons_of_ne (hne (Or.inr (hx c List.mem_cons_self))),
        ih fun e he => hx e (List.mem_cons_of_mem c he)]
  induction h with
  | nil => rfl
  | @keep t u c h ih =>
    refine occurrences_cons_congr ?_ ih
    exact (h.keep c).prefix_iff (w := d :: v) (by simp [hsemi, Ne.symm hd.1])
      (by simp [hline, Ne.symm (hne (c := '\n') (by decide))])
  | drop hc _ _ ih => rw [occurrences_cons_of_ne (hne hc), ih]
  | indent hunit _ ih =>
    have hbreak : d ≠ '\n' := hne (by decide)
    rw [occurrences_cons_of_ne hbreak, occurrences_cons_of_ne hbreak, hblank hunit, ih]

theorem occurrences_append_line (hv : '\n' ∉ v) (hne : v ≠ []) (a b : Text) :
    Text.occurrences v (a ++ '\n' :: b) = Text.occurrences v a + Text.occurrences v b := by
  obtain ⟨d, v, rfl⟩ := List.exists_cons_of_ne_nil hne
  have hbreak : d ≠ '\n' := fun h => hv (h ▸ List.mem_cons_self)
  have happend : Text.occurrences (d :: v) (a ++ '\n' :: b) =
      Text.occurrences (d :: v) a + Text.occurrences (d :: v) ('\n' :: b) := by
    refine sites_append fun x _ _ => ?_
    rw [Bool.eq_iff_iff, List.isPrefixOf_iff_prefix, List.isPrefixOf_iff_prefix]
    exact prefix_append_cons_iff hv x b
  rw [happend, occurrences_cons_of_ne hbreak]

theorem occurrences_eq_zero {c : Char} (hv : c ∈ v) (ht : c ∉ t) : Text.occurrences v t = 0 := by
  refine sites_eq_zero_iff.2 fun x hx _ => ?_
  rw [← Bool.not_eq_true, List.isPrefixOf_iff_prefix]
  exact fun hp => ht (hx.subset (hp.subset hv))

theorem occurrences_output (o : Options) (hunit : ∀ c ∈ o.unit, isBlank c = true) (source : Text)
    {d : Char} (hd : d ≠ ';' ∧ isBlank d = false) (hdot : '.' ∈ v) (hsemi : ';' ∉ v)
    (hline : '\n' ∉ v)
    (hmark : ∀ t, Text.occurrences (d :: (v ++ ['('])) (mark [system, form] t) =
      Text.occurrences (d :: (v ++ ['('])) t) :
    Text.occurrences (d :: (v ++ ['('])) (convert o source).output =
      Text.occurrences (d :: (v ++ ['('])) (Conversion.documented o.form source) := by
  have hbreak : d ≠ '\n' := by
    rintro rfl
    exact absurd hd.2 (by decide)
  have hcallline : '\n' ∉ d :: (v ++ ['(']) := by simp [hline, Ne.symm hbreak]
  have hcalldot : '.' ∈ d :: (v ++ ['(']) := by simp [hdot]
  have hindent := occurrences_relaid (relaid_indent hunit (Conversion.body o.form source)) hd hsemi
    hline
  rw [occurrences_cons_of_ne hbreak, occurrences_cons_of_ne hbreak] at hindent
  have hbody : Text.occurrences (d :: (v ++ ['('])) (Conversion.body o.form source) =
      Text.occurrences (d :: (v ++ ['('])) (Conversion.documented o.form source) := by
    rw [Conversion.body_eq, ← occurrences_relaid (Catalog.relaid_cleanup _) hd hsemi hline, hmark]
  rw [Conversion.output_eq, occurrences_append_line hcallline (List.cons_ne_nil _ _),
    occurrences_append_line hcallline (List.cons_ne_nil _ _),
    occurrences_eq_zero hcalldot (Handler.dot_not_mem_heading o.event),
    occurrences_eq_zero (t := ['}']) hcalldot (by decide), ← hindent, hbody, Nat.zero_add,
    Nat.add_zero]

theorem IsPassedOver.occurrences_output (h : IsPassedOver name blanks) (s : CallSpace) (o : Options)
    (hunit : ∀ c ∈ o.unit, isBlank c = true) (source : Text) :
    Text.occurrences (s.looseText name blanks) (convert o source).output =
        Text.occurrences (s.looseText name blanks) (Conversion.documented o.form source) ∧
      Text.occurrences (['/', '/', ' '] ++ s.looseText name blanks) (convert o source).output =
        Text.occurrences (['/', '/', ' '] ++ s.looseText name blanks)
          (Conversion.documented o.form source) := by
  obtain ⟨v, hv, hquiet, hout⟩ := h.looseText_eq s
  have hdot : '.' ∈ v := by
    have hmem : '.' ∈ s.looseText name blanks := by cases s <;> simp [looseText, opening]
    simpa [hv] using hmem
  have hslash : '/' ∉ v ++ ['('] := by simp [hout '/' (by decide)]
  have hsemi := hout ';' (by decide)
  have hline := hout '\n' (by decide)
  rw [hv]
  constructor
  · exact CallSpace.occurrences_output o hunit source (by decide) hdot hsemi hline
      (occurrences_mark hslash hquiet.of_cons)
  · exact CallSpace.occurrences_output (v := '/' :: ' ' :: 'g' :: v) o hunit source (by decide)
      (by simp [hdot]) (by simp [hsemi]) (by simp [hline]) (occurrences_mark_comment hslash hquiet)

theorem not_mem_leftovers (o : Options) (source : Text) (s : CallSpace) (hname : ¬ IsName name) :
    s.opening ++ name ∉ (convert o source).leftovers := by
  rw [Conversion.leftovers_eq, leftoverCalls_eq, List.mem_append, not_or]
  have hnot (s' : CallSpace) :
      s.opening ++ name ∉ s'.calls (Conversion.documented o.form source) := by
    intro hm
    obtain ⟨name', hn, heq⟩ := exists_name_of_mem_calls hm
    have hs : s' = s := by cases s <;> cases s' <;> first | rfl | simp [opening] at heq
    rw [hs] at heq
    exact hname (List.append_cancel_left heq ▸ hn)
  exact ⟨hnot .form, hnot .system⟩

end CallSpace

open CallSpace

/-- A call in the handler stands directly behind a comment mark, unless its name has a digit or an
underscore or there are blanks in front of its parenthesis. Such calls are as many as in the
converted script, and so are those among them that stand behind a comment mark. A name with a digit
or an underscore is not in the list of calls left over either. -/
theorem convert_loose_calls (o : Options) (hunit : ∀ c ∈ o.unit, isBlank c = true)
    (source : Text) (s : CallSpace) {name blanks : Text} (h : IsLoose name blanks) :
    (∀ before after, (convert o source).output = before ++ (s.looseText name blanks ++ after) →
        "// ".toList <:+ before ∨ ¬ IsName name ∨ blanks ≠ []) ∧
      (IsPassedOver name blanks →
        Text.occurrences (s.looseText name blanks) (convert o source).output =
            Text.occurrences (s.looseText name blanks) (Conversion.documented o.form source) ∧
          Text.occurrences ("// ".toList ++ s.looseText name blanks) (convert o source).output =
            Text.occurrences ("// ".toList ++ s.looseText name blanks)
              (Conversion.documented o.form source)) ∧
      (¬ IsName name → s.opening ++ name ∉ (convert o source).leftovers) := by
  have hmark : ("// " : Text) = ['/', '/', ' '] := String.toList_ofList
  rw [hmark]
  refine ⟨fun before after ht => ?_, fun hover => hover.occurrences_output s o hunit source,
    fun hname => not_mem_leftovers o source s hname⟩
  rw [or_iff_not_imp_right, not_or, not_not, not_not]
  rintro ⟨hname, rfl⟩
  have hstart : s.Starts (s.looseText name [] ++ after) := ⟨name, hname, List.prefix_append _ after⟩
  exact (marked_output o hunit source s).suffix_of_starts ht hstart

theorem convert_loose_calls_digit :
    (∀ c ∈ ['\t'], isBlank c = true) ∧ IsLoose ['f', 'o', 'o', '2'] [] ∧
      IsPassedOver ['f', 'o', 'o', '2'] [] ∧
      Text.occurrences "gs.foo2(" (convert { unit := ['\t'] } "gs.foo(gs.foo2(1));").output = 1 ∧
      Text.occurrences "// gs.foo2(" (convert { unit := ['\t'] } "gs.foo(gs.foo2(1));").output =
        0 := by
  have hunit : ∀ c ∈ ['\t'], isBlank c = true := by decide
  have h : IsLoose ['f', 'o', 'o', '2'] [] := ⟨by decide, by decide, by decide⟩
  have hdigit : ¬ IsName ['f', 'o', 'o', '2'] := fun hn => absurd (hn.2 '2' (by decide)) (by decide)
  have hover : IsPassedOver ['f', 'o', 'o', '2'] [] := ⟨h, by decide, Or.inl hdigit⟩
  obtain ⟨hcount, hmarked⟩ :=
    (convert_loose_calls { unit := ['\t'] } hunit "gs.foo(gs.foo2(1));" .system h).2.1 hover
  exact ⟨hunit, h, hover, hcount.trans (by decide +kernel), hmarked.trans (by decide +kernel)⟩

/-- There is no comment in the handler, and the list of calls left over is empty. -/
theorem exists_loose_call_not_marked :
    IsLoose ['f', 'o', 'o', '2'] [] ∧ IsLoose ['f', 'o', 'o'] [' '] ∧
      (∀ call ∈ [system.looseText ['f', 'o', 'o', '2'] [], system.looseText ['f', 'o', 'o'] [' ']],
        ' ' :: call <:+: (convert {} "gs.foo2(1);\ngs.foo (1);").output) ∧
      '/' ∉ (convert {} "gs.foo2(1);\ngs.foo (1);").output ∧
      (convert {} "gs.foo2(1);\ngs.foo (1);").leftovers = [] := by
  refine ⟨⟨by decide, by decide, by decide⟩, ⟨by decide, by decide, by decide⟩, ?_⟩
  decide +kernel

end GlideBridge
