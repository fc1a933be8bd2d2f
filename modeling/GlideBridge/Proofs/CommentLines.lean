import GlideBridge.Proofs.ClosingLines

/-! Lines with a call that is left over. The comment mark comes directly in front of the call, so
such a line is a comment line if nothing but blanks stands in front of its first call, or the
beginning of a comment, and otherwise the mark leaves half a statement in front of it. A scan of
the beginnings of the lines follows this through the closing steps. -/

namespace GlideBridge

open Text

def CallSpace.Begins (t : Text) : Prop := ∃ s ∈ [system, form], s.Starts t

instance (t : Text) : Decidable (CallSpace.Begins t) :=
  inferInstanceAs (Decidable (∃ s ∈ [CallSpace.system, .form], s.Starts t))

theorem Relaid.begins_iff {t u : Text} (h : Relaid t u) :
    CallSpace.Begins t ↔ CallSpace.Begins u := by
  simp only [CallSpace.Begins, h.starts_iff]

namespace CallSpace

theorem Begins.head {c : Char} {t : Text} (h : Begins (c :: t)) : c = 'g' := by
  obtain ⟨s, -, hs⟩ := h
  exact hs.head

theorem not_begins_cons {c : Char} (hc : c ≠ 'g') (t : Text) : ¬ Begins (c :: t) :=
  fun h => hc h.head

theorem not_begins_of_dot_not_mem {t : Text} (ht : '.' ∉ t) : ¬ Begins t :=
  fun ⟨_, _, hs⟩ => not_starts_of_dot_not_mem ht hs

theorem begins_append_line_iff (t u : Text) : Begins (t ++ '\n' :: u) ↔ Begins t := by
  simp only [Begins, starts_append_line_iff]

theorem begins_cons_mark_iff (c : Char) (t : Text) :
    Begins (c :: mark [system, form] t) ↔ Begins (c :: t) := by
  simp only [Begins, starts_cons_mark_iff]

end CallSpace

namespace Text

theorem head_trimLeft {t : Text} : ∀ c ∈ (trimLeft t).head?, isBlank c = false := by
  intro c hc
  have h := List.head?_dropWhile_not isBlank t
  rw [trimLeft] at hc
  rw [hc] at h
  exact h

theorem exists_joinLines_eq_of_mem {l : Text} {ls : List Text} (h : l ∈ ls) :
    ∃ a b, joinLines ls = a ++ (l ++ b) ∧ ∀ c ∈ a.getLast?, c = '\n' := by
  induction ls with
  | nil => cases h
  | cons m ls ih =>
    by_cases hne : ls = []
    · subst hne
      obtain rfl := List.mem_singleton.1 h
      exact ⟨[], [], by simp [joinLines_singleton], by simp⟩
    · rw [joinLines_cons m hne]
      rcases List.mem_cons.1 h with rfl | h
      · exact ⟨[], _, rfl, by simp⟩
      · obtain ⟨a, b, hab, ha⟩ := ih h
        refine ⟨m ++ '\n' :: a, b, by simp [hab], ?_⟩
        rw [List.getLast?_append_cons]
        cases a with
        | nil => simp
        | cons c a => simpa using ha

def beforeCall? : Text → Option Text
  | [] => none
  | c :: t => if CallSpace.Begins (c :: t) then some [] else (beforeCall? t).map (c :: ·)

theorem exists_of_beforeCall? {l a : Text} (h : beforeCall? l = some a) :
    ∃ b, l = a ++ b ∧ CallSpace.Begins b := by
  induction l generalizing a with
  | nil => cases h
  | cons c l ih =>
    rw [beforeCall?] at h
    split at h
    · next hb =>
      cases h
      exact ⟨_, rfl, hb⟩
    · obtain ⟨a, ha, rfl⟩ := Option.map_eq_some_iff.1 h
      obtain ⟨b, rfl, hb⟩ := ih ha
      exact ⟨b, rfl, hb⟩

theorem isSome_beforeCall? {a b : Text} (hb : CallSpace.Begins b) :
    (beforeCall? (a ++ b)).isSome = true := by
  induction a with
  | nil =>
    obtain ⟨c, b, rfl⟩ := List.exists_cons_of_ne_nil (l := b) fun h =>
      CallSpace.not_begins_of_dot_not_mem List.not_mem_nil (h ▸ hb)
    simp [beforeCall?, hb]
  | cons c a ih =>
    rw [List.cons_append, beforeCall?]
    split
    · rfl
    · rwa [Option.isSome_map]

/-- A call stands in the text, and its namespace is not the end of a longer word. -/
def AddressesCall (l : Text) : Prop :=
  ∃ a b, l = a ++ b ∧ (∀ c ∈ a.getLast?, CharClass.isWord c = false) ∧ CallSpace.Begins b

end Text

inductive LineHead
  | blank
  | slash
  | comment
  | code
  deriving DecidableEq, Repr

namespace LineHead

def next : LineHead → Char → LineHead
  | blank, c => if isBlank c then blank else if c = '/' then slash else code
  | slash, c => if c = '/' then comment else code
  | q, _ => q

def read (q : LineHead) (t : Text) : LineHead := t.foldl next q

def marked : LineHead → LineHead
  | code => code
  | _ => comment

@[simp] theorem read_nil (q : LineHead) : q.read [] = q := rfl

@[simp] theorem read_cons (q : LineHead) (c : Char) (t : Text) :
    q.read (c :: t) = (q.next c).read t := rfl

theorem read_append (q : LineHead) (t u : Text) : q.read (t ++ u) = (q.read t).read u :=
  List.foldl_append

@[simp] theorem read_comment (t : Text) : comment.read t = comment := by
  induction t with
  | nil => rfl
  | cons c t ih => exact ih

@[simp] theorem read_code (t : Text) : code.read t = code := by
  induction t with
  | nil => rfl
  | cons c t ih => exact ih

theorem next_blank {c : Char} (hc : isBlank c = true) : blank.next c = blank := if_pos hc

theorem next_visible {c : Char} (hc : isBlank c = false) :
    blank.next c = if c = '/' then slash else code := by simp [next, hc]

theorem next_slash (c : Char) : slash.next c = if c = '/' then comment else code := rfl

theorem read_slash_eq_comment_iff (t : Text) : slash.read t = comment ↔ ['/'] <+: t := by
  cases t with
  | nil => simp
  | cons c t =>
    rw [read_cons, next_slash]
    split
    · next hc => simp [hc]
    · next hc => simp [Ne.symm hc]

theorem read_mark (q : LineHead) : q.read ['/', '/', ' '] = q.marked := by cases q <;> rfl

theorem read_call (q : LineHead) {b : Text} (hb : CallSpace.Begins b) :
    q.read b = comment ↔ q = comment := by
  obtain ⟨c, b, rfl⟩ := List.exists_cons_of_ne_nil (l := b) fun h =>
    CallSpace.not_begins_of_dot_not_mem List.not_mem_nil (h ▸ hb)
  obtain rfl := hb.head
  cases q <;> simp [next, isBlank, blankRanges]

theorem read_trimLeft (t : Text) : blank.read (trimLeft t) = blank.read t := by
  induction t with
  | nil => rfl
  | cons c t ih =>
    rw [trimLeft, List.dropWhile_cons]
    split
    · next hc => rw [read_cons, next_blank hc, ← ih, trimLeft]
    · rfl

theorem read_eq_comment_iff (t : Text) : blank.read t = comment ↔ ['/', '/'] <+: trimLeft t := by
  have hhead := head_trimLeft (t := t)
  rw [← read_trimLeft]
  generalize trimLeft t = v at hhead
  cases v with
  | nil => simp
  | cons c v =>
    rw [read_cons, next_visible (hhead c rfl)]
    split
    · next hc =>
      rw [hc, List.cons_prefix_cons, eq_self_iff_true, true_and]
      exact read_slash_eq_comment_iff v
    · next hc => simp [Ne.symm hc]

theorem marked_read_eq_comment_iff (t : Text) :
    (blank.read t).marked = comment ↔ agree (trimLeft t) ['/', '/'] = true := by
  have hhead := head_trimLeft (t := t)
  rw [← read_trimLeft]
  generalize trimLeft t = v at hhead
  cases v with
  | nil => simp [marked, agree]
  | cons c v =>
    rw [read_cons, next_visible (hhead c rfl)]
    split
    · next hc =>
      subst hc
      cases v with
      | nil => simp [marked, agree]
      | cons d v =>
        by_cases hd : d = '/'
        · simp [hd, next_slash, marked, agree]
        · simp [hd, Ne.symm hd, next_slash, marked, agree]
    · next hc => simp [marked, agree, hc, Ne.symm hc]

/-- One more character of the text. The state is `none` from the first call of a line to the end of
the line. -/
def advance (q : Option LineHead) (c : Char) : Option LineHead :=
  if c = '\n' then some blank else q.map fun q => q.next c

/-- What each line with a call begins with in front of its first call. -/
def atCalls : Option LineHead → Text → List LineHead
  | _, [] => []
  | q, c :: t =>
    if CallSpace.Begins (c :: t) then q.toList ++ atCalls none t else atCalls (advance q c) t

theorem advance_blank {c : Char} (hc : isBlank c = true) :
    advance (some blank) c = some blank := by
  rw [advance, Option.map_some, next_blank hc, ite_self]

theorem advance_of_ne {c : Char} (hc : c ≠ '\n') (q : Option LineHead) :
    advance q c = q.map fun q => q.next c := if_neg hc

theorem advance_mark (q : Option LineHead) :
    advance (advance (advance q '/') '/') ' ' = q.map marked := by
  rw [advance_of_ne (by decide), advance_of_ne (by decide), advance_of_ne (by decide),
    Option.map_map, Option.map_map]
  exact congrArg (Option.map · q) (funext read_mark)

theorem atCalls_call {t : Text} (h : CallSpace.Begins ('g' :: t)) (q : Option LineHead) :
    atCalls q ('g' :: t) = q.toList ++ atCalls none t := if_pos h

theorem atCalls_kept {c : Char} {t : Text} (h : ¬ CallSpace.Begins (c :: t))
    (q : Option LineHead) : atCalls q (c :: t) = atCalls (advance q c) t := if_neg h

theorem atCalls_line_break (q : Option LineHead) (t : Text) :
    atCalls q ('\n' :: t) = atCalls (some blank) t :=
  atCalls_kept (CallSpace.not_begins_cons (by decide) t) q

theorem atCalls_blank_append {w : Text} (hw : ∀ c ∈ w, isBlank c = true) (t : Text) :
    atCalls (some blank) (w ++ t) = atCalls (some blank) t := by
  induction w with
  | nil => rfl
  | cons c w ih =>
    have hc := hw c List.mem_cons_self
    rw [List.cons_append, atCalls_kept (CallSpace.not_begins_cons (Relaid.ne_of_blank hc) _),
      advance_blank hc, ih fun d hd => hw d (List.mem_cons_of_mem c hd)]

theorem atCalls_congr {t : Text} (ht : ∀ c ∈ t.head?, c = '\n') (q q' : Option LineHead) :
    atCalls q t = atCalls q' t := by
  cases t with
  | nil => rfl
  | cons c t =>
    obtain rfl := ht c rfl
    rw [atCalls_line_break, atCalls_line_break]

theorem atCalls_relaid {t u : Text} (h : Relaid t u) (q : Option LineHead) :
    atCalls q t = atCalls q u := by
  induction h generalizing q with
  | nil => rfl
  | @keep t u c h ih =>
    have hbegins := (h.keep c).begins_iff
    by_cases hb : CallSpace.Begins (c :: t)
    · obtain rfl := hb.head
      rw [atCalls_call hb, atCalls_call (hbegins.1 hb), ih]
    · rw [atCalls_kept hb, atCalls_kept fun h => hb (hbegins.2 h), ih]
  | @drop c t u hc hu _ ih =>
    have hg : c ≠ 'g' := hc.elim (fun h => h ▸ by decide) Relaid.ne_of_blank
    -- what is dropped stands at the end of a line, where the state no longer matters
    rw [atCalls_kept (CallSpace.not_begins_cons hg t), ih]
    exact atCalls_congr hu _ _
  | indent hunit _ ih =>
    rw [atCalls_line_break, atCalls_line_break, atCalls_blank_append hunit, ih]

theorem atCalls_mark (q : Option LineHead) (t : Text) :
    atCalls q (CallSpace.mark [.system, .form] t) = (atCalls q t).map marked := by
  induction t generalizing q with
  | nil => rfl
  | cons c t ih =>
    have hbegins := CallSpace.begins_cons_mark_iff c t
    rw [CallSpace.mark]
    split
    · next hb =>
      obtain rfl := CallSpace.Begins.head hb
      have hskip {d : Char} (hd : d ≠ 'g') (q : Option LineHead) (u : Text) :
          atCalls q (d :: u) = atCalls (advance q d) u :=
        atCalls_kept (CallSpace.not_begins_cons hd u) q
      rw [hskip (by decide), hskip (by decide), hskip (by decide), atCalls_call (hbegins.2 hb),
        atCalls_call hb, ih, advance_mark, List.map_append]
      cases q <;> rfl
    · next hb => rw [atCalls_kept fun h => hb (hbegins.1 h), atCalls_kept hb, ih]

theorem atCalls_append_line (q : Option LineHead) (l t : Text) :
    atCalls q (l ++ '\n' :: t) = atCalls q l ++ atCalls (some blank) t := by
  induction l generalizing q with
  | nil => exact atCalls_line_break q t
  | cons c l ih =>
    have hbegins := CallSpace.begins_append_line_iff (c :: l) t
    rw [List.cons_append] at hbegins ⊢
    by_cases hb : CallSpace.Begins (c :: l)
    · obtain rfl := hb.head
      rw [atCalls_call (hbegins.2 hb), atCalls_call hb, ih, List.append_assoc]
    · rw [atCalls_kept fun h => hb (hbegins.1 h), atCalls_kept hb, ih]

theorem atCalls_none {l : Text} (hl : '\n' ∉ l) : atCalls none l = [] := by
  induction l with
  | nil => rfl
  | cons c l ih =>
    rw [List.mem_cons, not_or] at hl
    rw [atCalls, advance_of_ne (Ne.symm hl.1), Option.map_none, ih hl.2]
    exact ite_self _

theorem atCalls_of_not_mem {l : Text} (hl : '\n' ∉ l) (q : LineHead) :
    atCalls (some q) l = ((beforeCall? l).map q.read).toList := by
  induction l generalizing q with
  | nil => rfl
  | cons c l ih =>
    rw [List.mem_cons, not_or] at hl
    rw [beforeCall?]
    by_cases hb : CallSpace.Begins (c :: l)
    · obtain rfl := hb.head
      rw [atCalls_call hb, atCalls_none hl.2, if_pos hb]
      rfl
    · rw [atCalls_kept hb, advance_of_ne (Ne.symm hl.1), Option.map_some, ih hl.2, if_neg hb,
        Option.map_map]
      rfl

theorem atCalls_eq_filterMap (t : Text) :
    atCalls (some blank) t = (lines t).filterMap fun l => (beforeCall? l).map blank.read := by
  induction t using lines_induction with
  | line l hl =>
    rw [lines_of_not_mem hl, List.filterMap_cons, atCalls_of_not_mem hl]
    cases beforeCall? l <;> rfl
  | more l t hl ih =>
    rw [lines_append_line_break, lines_of_not_mem hl, List.singleton_append, List.filterMap_cons,
      atCalls_append_line, ih, atCalls_of_not_mem hl]
    cases beforeCall? l <;> rfl

theorem forall_atCalls_iff {p : LineHead → Prop} (t : Text) :
    (∀ q ∈ atCalls (some blank) t, p q) ↔ ∀ l ∈ lines t, ∀ a ∈ beforeCall? l, p (blank.read a) := by
  rw [atCalls_eq_filterMap]
  constructor
  · intro h l hl a ha
    exact h _ (List.mem_filterMap.2 ⟨l, hl, by rw [ha, Option.map_some]⟩)
  · intro h q hq
    obtain ⟨l, hl, hread⟩ := List.mem_filterMap.1 hq
    obtain ⟨a, ha, rfl⟩ := Option.map_eq_some_iff.1 hread
    exact h l hl a ha

theorem atCalls_of_dot_not_mem {t : Text} (ht : '.' ∉ t) (q : Option LineHead) :
    atCalls q t = [] := by
  induction t generalizing q with
  | nil => rfl
  | cons c t ih =>
    rw [atCalls_kept (CallSpace.not_begins_of_dot_not_mem ht),
      ih fun h => ht (List.mem_cons_of_mem c h)]

theorem atCalls_body (form source : Text) (q : Option LineHead) :
    atCalls q (Conversion.body form source) =
      (atCalls q (Conversion.documented form source)).map marked := by
  rw [Conversion.body_eq, ← atCalls_relaid (Catalog.relaid_cleanup _), atCalls_mark]

theorem atCalls_output (o : Options) (hunit : ∀ c ∈ o.unit, isBlank c = true) (source : Text) :
    atCalls (some blank) (convert o source).output =
      (atCalls (some blank) (Conversion.documented o.form source)).map marked := by
  have hindent := atCalls_relaid (relaid_indent hunit (Conversion.body o.form source)) none
  rw [atCalls_line_break, atCalls_line_break] at hindent
  rw [Conversion.output_eq, atCalls_append_line, atCalls_append_line,
    atCalls_of_dot_not_mem (Handler.dot_not_mem_heading o.event),
    atCalls_of_dot_not_mem (t := ['}']) (by decide), ← hindent, atCalls_body,
    List.nil_append, List.append_nil]

end LineHead

theorem addressesCall_of_mem_lines_output (o : Options) (hunit : ∀ c ∈ o.unit, isBlank c = true)
    (source : Text) {l a : Text} (hl : l ∈ lines (convert o source).output)
    (ha : beforeCall? l = some a) : l.AddressesCall := by
  obtain ⟨b, rfl, hb⟩ := exists_of_beforeCall? ha
  refine ⟨a, b, rfl, ?_, hb⟩
  obtain ⟨x, y, hxy, hx⟩ := exists_joinLines_eq_of_mem hl
  rw [joinLines_lines, List.append_assoc, ← List.append_assoc] at hxy
  obtain ⟨s, -, name, hn, hp⟩ := hb
  have hstart : s.Starts (b ++ y) := ⟨name, hn, hp.trans (List.prefix_append b y)⟩
  obtain ⟨z, hz⟩ := (marked_output o hunit source s).suffix_of_starts hxy hstart
  have hlast : (x ++ a).getLast? = some ' ' := by rw [← hz]; simp
  intro c hc
  cases a with
  | nil => simp at hc
  | cons d a =>
    rw [List.getLast?_append_cons, hc] at hlast
    obtain rfl := Option.some.inj hlast
    decide

theorem isComment_iff_of_beforeCall? {l a : Text} (ha : beforeCall? l = some a) :
    ['/', '/'] <+: trimLeft l ↔ LineHead.blank.read a = .comment := by
  obtain ⟨b, rfl, hb⟩ := exists_of_beforeCall? ha
  rw [← LineHead.read_eq_comment_iff, LineHead.read_append, LineHead.read_call _ hb]

theorem isComment_iff_of_mem_lines_output (o : Options) (hunit : ∀ c ∈ o.unit, isBlank c = true)
    (source : Text) {l : Text} (hl : l ∈ lines (convert o source).output) :
    (l.AddressesCall → ['/', '/'] <+: trimLeft l) ↔
      ∀ a ∈ beforeCall? l, LineHead.blank.read a = .comment := by
  constructor
  · intro h a ha
    have hcall := addressesCall_of_mem_lines_output o hunit source hl ha
    exact (isComment_iff_of_beforeCall? ha).1 (h hcall)
  · rintro h ⟨x, y, rfl, -, hy⟩
    obtain ⟨a, ha⟩ := Option.isSome_iff_exists.1 (isSome_beforeCall? (a := x) hy)
    exact (isComment_iff_of_beforeCall? ha).2 (h a ha)

/-- The lines of a handler with a call are comment lines if and only if, in the converted script,
nothing but blanks stands in front of the first call of each line, or the beginning of a
comment. -/
theorem convert_comment_lines (o : Options) (hunit : ∀ c ∈ o.unit, isBlank c = true)
    (source : Text) :
    (∀ l ∈ lines (convert o source).output, l.AddressesCall → "//".toList <+: trimLeft l) ↔
      ∀ l ∈ lines (Conversion.documented o.form source), ∀ a ∈ beforeCall? l,
        agree (trimLeft a) "//" = true := by
  have hmark : ("//" : Text) = ['/', '/'] := String.toList_ofList
  rw [hmark]
  calc (∀ l ∈ lines (convert o source).output, l.AddressesCall → ['/', '/'] <+: trimLeft l)
    _ ↔ ∀ l ∈ lines (convert o source).output, ∀ a ∈ beforeCall? l,
          LineHead.blank.read a = .comment :=
        forall₂_congr fun _ hl => isComment_iff_of_mem_lines_output o hunit source hl
    _ ↔ ∀ q ∈ LineHead.atCalls (some .blank) (convert o source).output, q = .comment :=
        (LineHead.forall_atCalls_iff (p := fun q => q = .comment) _).symm
    _ ↔ ∀ q ∈ LineHead.atCalls (some .blank) (Conversion.documented o.form source),
          q.marked = .comment := by
        rw [LineHead.atCalls_output o hunit, List.forall_mem_map]
    _ ↔ ∀ l ∈ lines (Conversion.documented o.form source), ∀ a ∈ beforeCall? l,
          (LineHead.blank.read a).marked = .comment :=
        LineHead.forall_atCalls_iff (p := fun q => q.marked = .comment) _
    _ ↔ ∀ l ∈ lines (Conversion.documented o.form source), ∀ a ∈ beforeCall? l,
          agree (trimLeft a) ['/', '/'] = true := by
        simp only [LineHead.marked_read_eq_comment_iff]

theorem convert_comment_lines_tab :
    (∀ c ∈ ['\t'], isBlank c = true) ∧
      ∀ l ∈ lines (convert { unit := ['\t'] } "gs.foo(1);\n// gs.bar(2);").output,
        l.AddressesCall → "//".toList <+: trimLeft l := by
  have hunit : ∀ c ∈ ['\t'], isBlank c = true := by decide
  exact ⟨hunit, (convert_comment_lines { unit := ['\t'] } hunit "gs.foo(1);\n// gs.bar(2);").2
    (by decide +kernel)⟩

/-- Half a statement is left in front of the comment. -/
theorem exists_line_not_comment :
    ∃ l ∈ lines (convert {} "x = gs.foo(1);").output,
      l.AddressesCall ∧ ¬ "//".toList <+: trimLeft l := by
  have hcall : CallSpace.Begins (CallSpace.system.callText ['f', 'o', 'o'] ++ ['1', ')']) :=
    ⟨.system, by decide, ['f', 'o', 'o'], ⟨by decide, by decide⟩, List.prefix_append _ _⟩
  refine ⟨[' ', ' ', ' ', ' ', 'x', ' ', '=', ' ', '/', '/', ' '] ++
    (CallSpace.system.callText ['f', 'o', 'o'] ++ ['1', ')']), ?_, ⟨_, _, rfl, ?_, hcall⟩, ?_⟩
  · decide +kernel
  · rintro c ⟨⟩
    decide
  · decide

end GlideBridge
