import GlideBridge.Proofs.LineWise

/-! Where a rule can begin to work on a line. A rule for one of the four names begins at the name
and a dot, the rule for alerts ends its opening at a parenthesis, and the one for declarations
looks for a blank and a word behind its keyword. Whether a line that a template writes has such a
place is seen from the texts of the template alone when the fields have neither dots nor
parentheses nor blanks. -/

namespace GlideBridge

namespace Text

def currentWord : Text := ['c', 'u', 'r', 'r', 'e', 'n', 't']

def workflowWord : Text := ['w', 'o', 'r', 'k', 'f', 'l', 'o', 'w']

def roots : List Text := [['g', 's'], ['g', '_', 'f', 'o', 'r', 'm'], currentWord, workflowWord]

def alertWord : Text := ['a', 'l', 'e', 'r', 't']

def declarationWord : Text := ['v', 'a', 'r']

def Rootless (t : Text) : Prop := ∀ o ∈ roots, ¬ o ++ ['.'] <:+: t

/-- A parenthesis stands behind a character that is not blank, and not behind an alert. -/
def Alertless (t : Text) : Prop :=
  ∀ a b, t = a ++ '(' :: b → (∃ c ∈ a.getLast?, isBlank c = false) ∧ ¬ alertWord <:+ a

/-- Neither a blank nor a word follows the keyword and a blank. -/
def Declarationless (t : Text) : Prop :=
  ∀ a c b, t = a ++ c :: b → isBlank c = true → declarationWord <:+ a →
    ∃ d ∈ b.head?, isBlank d = false ∧ CharClass.isWord d = false

def Ended (t : Text) : Prop := ∃ c ∈ t.getLast?, c = ';' ∨ c = ')'

theorem Ended.of_suffix {v l : Text} (hl : Ended l) (hv : v <:+ l) (hne : v ≠ []) : Ended v := by
  obtain ⟨x, rfl⟩ := hv
  rwa [Ended, List.getLast?_append_of_ne_nil x hne] at hl

theorem Ended.split {v t w x : Text} (hv : Ended v) (hw : ∀ c ∈ w, c ≠ ';' ∧ c ≠ ')')
    (h : v ++ t = w ++ x) : ∃ d y, v = w ++ d :: y ∧ x = d :: (y ++ t) := by
  obtain ⟨e, he, hend⟩ := hv
  have hew : e ∉ w := fun hm => hend.elim (hw e hm).1 (hw e hm).2
  rcases List.append_eq_append_iff.1 h with ⟨y, rfl, -⟩ | ⟨y, rfl, rfl⟩
  · exact absurd (List.mem_append_left y (List.mem_of_getLast? he)) hew
  · cases y with
    | nil => exact absurd (List.mem_of_getLast? he) (by simpa using hew)
    | cons d y => exact ⟨d, y, rfl, rfl⟩

theorem split_of_not_mem {c : Char} {l rest a b : Text} (hc : c ∉ rest)
    (h : l ++ rest = a ++ c :: b) : ∃ y, l = a ++ c :: y ∧ b = y ++ rest := by
  rcases List.append_eq_append_iff.1 h with ⟨y, -, rfl⟩ | ⟨y, rfl, hy⟩
  · exact absurd (by simp) hc
  · cases y with
    | nil =>
      obtain rfl : c :: b = rest := hy
      exact absurd List.mem_cons_self hc
    | cons d y =>
      obtain ⟨rfl, rfl⟩ := List.cons.inj hy
      exact ⟨y, rfl, rfl⟩

theorem Rootless.append {l rest : Text} (hl : Rootless l) (hrest : '.' ∉ rest) :
    Rootless (l ++ rest) := by
  rintro o ho ⟨a, b, hab⟩
  obtain ⟨y, hy, -⟩ := split_of_not_mem (a := a ++ o) (b := b) hrest (by rw [← hab]; simp)
  exact hl o ho ⟨a, y, by rw [hy]; simp⟩

theorem Alertless.append {l rest : Text} (hl : Alertless l) (hrest : '(' ∉ rest) :
    Alertless (l ++ rest) := by
  intro a b hab
  obtain ⟨y, hy, -⟩ := split_of_not_mem hrest hab
  exact hl a y hy

theorem Declarationless.append {l rest : Text} (hl : Declarationless l)
    (hrest : ∀ c ∈ rest, isBlank c = false) : Declarationless (l ++ rest) := by
  intro a c b hab hc hw
  have hmem : c ∉ rest := fun hm => by
    rw [hrest c hm] at hc
    cases hc
  obtain ⟨y, hy, rfl⟩ := split_of_not_mem hmem hab
  obtain ⟨d, hd, hnot⟩ := hl a c y hy hc hw
  refine ⟨d, ?_, hnot⟩
  rw [List.head?_append, hd]
  rfl

theorem Ended.append {rest : Text} (hrest : Ended rest) (l : Text) : Ended (l ++ rest) := by
  obtain ⟨c, hc, hend⟩ := hrest
  exact ⟨c, by rw [List.getLast?_append, hc]; rfl, hend⟩

theorem suffix_of_infix_dot {o x y : Text} (hx : '.' ∉ x) (hy : '.' ∉ y)
    (h : o ++ ['.'] <:+: x ++ '.' :: y) : o <:+ x := by
  obtain ⟨a, b, hab⟩ := h
  have hsplit : x ++ '.' :: y = (a ++ o) ++ '.' :: b := by
    rw [← hab]
    simp
  exact ⟨a, ((List.append_cons_inj_of_notMem hx hy).1 hsplit).1.symm⟩

theorem rootless_of_dot_not_mem {t : Text} (ht : '.' ∉ t) : Rootless t :=
  fun o _ h => ht (h.subset (by simp))

theorem alertless_of_open_not_mem {t : Text} (ht : '(' ∉ t) : Alertless t :=
  fun a b hab => absurd (by simp [hab]) ht

end Text

open Text

namespace Rule

variable {r : Rule} {l : Text}

theorem sends_of_not_isInfix {w : Text} (hr : r.isInline = true) (hw : w <+: r.pattern.opening)
    (hline : '\n' ∉ w) (hl : ¬ w <:+: l) : r.Sends l l := by
  refine sends_of_no_hit hr fun v hv _ t ht => ?_
  rw [Option.eq_none_iff_forall_ne_some]
  intro h hm
  obtain ⟨u, -, hu, -⟩ := matchPieces_literal_eq_some_iff.1 hm
  have hpre : w <+: v ++ t := hw.trans ⟨u, hu.symm⟩
  exact hl (((ht.prefix_iff hline v).1 hpre).isInfix.trans hv.isInfix)

end Rule

inductive RecordName where
  | current
  | workflow

namespace RecordName

def word : RecordName → Text
  | current => currentWord
  | workflow => workflowWord

def rule : RecordName → Rule
  | current => Catalog.currentRule
  | workflow => Catalog.workflowRule

variable (o : RecordName)

theorem word_mem : o.word ∈ [currentWord, workflowWord] := by cases o <;> simp [word]

theorem line_not_mem_word : '\n' ∉ o.word ++ ['.'] := by cases o <;> decide

theorem rule_opening : o.rule.pattern.opening = o.word ++ ['.'] := by
  cases o <;> exact String.toList_ofList

theorem rule_inline : o.rule.isInline = true := by
  cases o <;> exact Rule.isInline_of_opening rfl String.toList_ofList (by decide)

theorem rule_sends {l : Text} (h : ¬ o.word ++ ['.'] <:+: l) : o.rule.Sends l l :=
  Rule.sends_of_not_isInfix o.rule_inline (o.rule_opening ▸ List.prefix_rfl) o.line_not_mem_word h

end RecordName

namespace Catalog

theorem alertRule_opening : alertRule.pattern.opening = alertWord := String.toList_ofList

theorem declarationRule_opening : declarationRule.pattern.opening = declarationWord :=
  String.toList_ofList

theorem alertRule_inline : alertRule.isInline = true :=
  Rule.isInline_of_opening rfl alertRule_opening (by decide)

theorem declarationRule_inline : declarationRule.isInline = true :=
  Rule.isInline_of_opening rfl declarationRule_opening (by decide)

theorem ne_of_blank {c d : Char} (hc : isBlank c = true) (hd : isBlank d = false) : c ≠ d := by
  rintro rfl
  rw [hc] at hd
  cases hd

theorem alertRule_sends {l : Text} (hl : Alertless l) (hend : Ended l) : alertRule.Sends l l := by
  refine Rule.sends_of_no_hit alertRule_inline fun v hv hne t _ => ?_
  rw [Option.eq_none_iff_forall_ne_some]
  intro h hm
  obtain ⟨u, g, hu, hg, -⟩ := matchPieces_literal_eq_some_iff.1 hm
  obtain ⟨run, u, g, rfl, hrun, hg, -⟩ := exists_of_matchPieces_many hg
  obtain ⟨u, g, rfl, -, -⟩ := matchPieces_literal_eq_some_iff.1 hg
  rw [alertRule_opening, ← List.append_assoc] at hu
  have hout : ∀ c ∈ alertWord ++ run, c ≠ ';' ∧ c ≠ ')' := by
    intro c hc
    rcases List.mem_append.1 hc with hc | hc
    · exact (by decide : ∀ c ∈ alertWord, c ≠ ';' ∧ c ≠ ')') c hc
    · exact ⟨ne_of_blank (hrun c hc) (by decide), ne_of_blank (hrun c hc) (by decide)⟩
  obtain ⟨d, y, rfl, hy⟩ := (hend.of_suffix hv hne).split hout hu
  obtain rfl : '(' = d := (List.cons.inj hy).1
  obtain ⟨x, rfl⟩ := hv
  obtain ⟨⟨c, hc, hblank⟩, halert⟩ := hl (x ++ (alertWord ++ run)) y (by simp)
  rcases List.eq_nil_or_concat run with rfl | ⟨run, b, rfl⟩
  · exact halert ⟨x, by simp⟩
  · have hb : b = c := by simpa using hc
    exact ne_of_blank (hrun c (by simp [hb])) hblank rfl

theorem declarationRule_sends {l : Text} (hl : Declarationless l) (hend : Ended l) :
    declarationRule.Sends l l := by
  refine Rule.sends_of_no_hit declarationRule_inline fun v hv hne t _ => ?_
  rw [Option.eq_none_iff_forall_ne_some]
  intro h hm
  obtain ⟨u, g, hu, hg, -⟩ := matchPieces_literal_eq_some_iff.1 hm
  obtain ⟨c, u, g, rfl, hc, hg, -⟩ := matchPieces_one_eq_some_iff.1 hg
  obtain ⟨run, u, g, rfl, hrun, hg, -⟩ := exists_of_matchPieces_many hg
  obtain ⟨name, u, g, rfl, hne', hname, -, -⟩ := exists_of_matchPieces_field hg
  obtain ⟨d, name, rfl⟩ := List.exists_cons_of_ne_nil hne'
  have hsplit : v ++ t = (declarationWord ++ c :: run) ++ (d :: (name ++ u)) := by
    rw [hu, declarationRule_opening]
    simp
  have hblank : ∀ e ∈ c :: run, isBlank e = true := List.forall_mem_cons.2 ⟨hc, hrun⟩
  have hout : ∀ e ∈ declarationWord ++ c :: run, e ≠ ';' ∧ e ≠ ')' := by
    intro e he
    rcases List.mem_append.1 he with he | he
    · exact (by decide : ∀ c ∈ declarationWord, c ≠ ';' ∧ c ≠ ')') e he
    · exact ⟨ne_of_blank (hblank e he) (by decide), ne_of_blank (hblank e he) (by decide)⟩
  -- the end of the line is neither in the keyword nor among the blanks, so the name begins in it
  obtain ⟨e, y, rfl, hy⟩ := (hend.of_suffix hv hne).split hout hsplit
  obtain rfl : d = e := (List.cons.inj hy).1
  obtain ⟨x, rfl⟩ := hv
  obtain ⟨e, he, hnot, hword⟩ := hl (x ++ declarationWord) c (run ++ d :: y) (by simp) hc
    (List.suffix_append x declarationWord)
  cases run with
  | nil =>
    obtain rfl : d = e := by simpa using he
    exact absurd (hname d List.mem_cons_self) (by simpa [CharClass.has] using hword)
  | cons b run =>
    obtain rfl : b = e := by simpa using he
    exact absurd (hrun b List.mem_cons_self) (by simpa [CharClass.has] using hnot)

end Catalog

namespace Text

def everywhere (ok : Text → Char → Text → Bool) : Text → Text → Bool
  | _, [] => true
  | before, c :: after => ok before c after && everywhere ok (c :: before) after

theorem everywhere_split {ok : Text → Char → Text → Bool} {before a b : Text} {c : Char}
    (h : everywhere ok before (a ++ c :: b) = true) : ok (a.reverse ++ before) c b = true := by
  induction a generalizing before with
  | nil =>
    rw [List.nil_append, everywhere, Bool.and_eq_true] at h
    exact h.1
  | cons d a ih =>
    rw [List.cons_append, everywhere, Bool.and_eq_true] at h
    simpa using ih h.2

/-- None of the rules for names, alerts and declarations begins at the character, whatever stands
in front of the text and behind it. -/
def isCalmAt (before : Text) (c : Char) (after : Text) : Bool :=
  (c != '.' || roots.all fun o => !agree before o.reverse) &&
    (c != '(' || before.head?.any (!isBlank ·) && !agree before alertWord.reverse) &&
    (!isBlank c || !agree before declarationWord.reverse ||
      after.head?.any fun d => !isBlank d && !CharClass.isWord d)

def isCalm (t : Text) : Bool := everywhere isCalmAt [] t

theorem agree_reverse {p a w : Text} (hp : p <:+ a) (hw : w <:+ a) :
    agree p.reverse w.reverse = true :=
  agree_of_isPrefix (List.reverse_prefix.2 hp) (List.reverse_prefix.2 hw)

end Text

theorem exists_text_of_fill_eq {template : Template} {fields : List Text} {c : Char}
    (hc : ∀ f ∈ fields, c ∉ f) {a b : Text} (h : template.flatMap (·.fill fields) = a ++ c :: b) :
    ∃ p q, TemplatePart.text (p ++ c :: q) ∈ template ∧ p <:+ a ∧ q <+: b := by
  induction template generalizing a with
  | nil => simp at h
  | cons x template ih =>
    have later {a' : Text} (ha : a' <:+ a) (h : template.flatMap (·.fill fields) = a' ++ c :: b) :
        ∃ p q, TemplatePart.text (p ++ c :: q) ∈ x :: template ∧ p <:+ a ∧ q <+: b := by
      obtain ⟨p, q, hm, hp, hq⟩ := ih h
      exact ⟨p, q, List.mem_cons_of_mem x hm, hp.trans ha, hq⟩
    rw [List.flatMap_cons] at h
    rcases List.append_eq_append_iff.1 h with ⟨y, rfl, hy⟩ | ⟨y, hx, hy⟩
    · exact later (List.suffix_append _ y) hy
    · cases y with
      | nil => exact later (List.nil_suffix (l := a)) (by simpa using hy.symm)
      | cons d y =>
        obtain ⟨rfl, rfl⟩ := List.cons.inj hy
        cases x with
        | text l =>
          obtain rfl : l = a ++ c :: y := hx
          exact ⟨a, y, List.mem_cons_self, List.suffix_rfl, List.prefix_append y _⟩
        | field i =>
          rcases TemplatePart.fill_field_eq_nil_or_mem fields i with hnil | hmem
          · simp [hnil] at hx
          · exact absurd (by simp [hx]) (hc _ hmem)

namespace Template

def merge : Template → Template
  | [] => []
  | .field i :: template => .field i :: merge template
  | .text a :: template =>
    match merge template with
    | .text b :: rest => .text (a ++ b) :: rest
    | rest => .text a :: rest

def isCalm (template : Template) : Bool :=
  (merge template).all fun
    | .text l => Text.isCalm l
    | .field _ => true

variable {template : Template} {fields : List Text}

theorem fill_merge (template : Template) (fields : List Text) :
    (merge template).flatMap (·.fill fields) = template.flatMap (·.fill fields) := by
  induction template with
  | nil => rfl
  | cons x template ih =>
    rw [List.flatMap_cons, ← ih]
    cases x with
    | field i => rfl
    | text a =>
      rw [merge]
      split
      · next b rest heq => simp [heq]
      · simp

theorem exists_calm_split (ht : isCalm template = true) {c : Char} (hc : ∀ f ∈ fields, c ∉ f)
    {a b : Text} (h : template.flatMap (·.fill fields) = a ++ c :: b) :
    ∃ p q, isCalmAt p.reverse c q = true ∧ p <:+ a ∧ q <+: b := by
  rw [← fill_merge] at h
  obtain ⟨p, q, hm, hp, hq⟩ := exists_text_of_fill_eq hc h
  have hl : Text.isCalm (p ++ c :: q) = true := List.all_eq_true.1 ht _ hm
  exact ⟨p, q, by simpa using everywhere_split hl, hp, hq⟩

theorem rootless_fill (ht : isCalm template = true) (hf : ∀ f ∈ fields, '.' ∉ f) :
    Rootless (template.flatMap (·.fill fields)) := by
  rintro o ho ⟨a, b, hab⟩
  have hsplit : template.flatMap (·.fill fields) = (a ++ o) ++ '.' :: b := by
    rw [← hab]
    simp
  obtain ⟨p, q, hcalm, hp, -⟩ := exists_calm_split ht hf hsplit
  simp only [isCalmAt, Bool.and_eq_true, bne_self_eq_false, Bool.false_or,
    List.all_eq_true] at hcalm
  have hagree := hcalm.1.1 o ho
  rw [agree_reverse hp (List.suffix_append a o)] at hagree
  cases hagree

theorem alertless_fill (ht : isCalm template = true) (hf : ∀ f ∈ fields, '(' ∉ f) :
    Alertless (template.flatMap (·.fill fields)) := by
  intro a b hab
  obtain ⟨p, q, hcalm, hp, -⟩ := exists_calm_split ht hf hab
  simp only [isCalmAt, Bool.and_eq_true, bne_self_eq_false, Bool.false_or, Bool.not_eq_true',
    List.head?_reverse, Option.any_eq_true] at hcalm
  obtain ⟨⟨-, ⟨c, hc, hblank⟩, halert⟩, -⟩ := hcalm
  refine ⟨⟨c, ?_, hblank⟩, fun hw => ?_⟩
  · obtain ⟨x, rfl⟩ := hp
    rw [List.getLast?_append, hc]
    rfl
  · rw [agree_reverse hp hw] at halert
    cases halert

theorem declarationless_fill (ht : isCalm template = true)
    (hf : ∀ f ∈ fields, ∀ c ∈ f, isBlank c = false) :
    Declarationless (template.flatMap (·.fill fields)) := by
  intro a c b hab hc hw
  have hmem : ∀ f ∈ fields, c ∉ f := fun f hfm hcm => by
    have := hf f hfm c hcm
    rw [hc] at this
    cases this
  obtain ⟨p, q, hcalm, hp, hq⟩ := exists_calm_split ht hmem hab
  simp only [isCalmAt, Bool.and_eq_true, hc, Bool.not_true, Bool.false_or, agree_reverse hp hw,
    Option.any_eq_true, Bool.not_eq_true'] at hcalm
  obtain ⟨-, d, hd, hblank, hword⟩ := hcalm
  refine ⟨d, ?_, hblank, hword⟩
  obtain ⟨x, rfl⟩ := hq
  rw [List.head?_append, hd]
  rfl

def texts (template : Template) : List Text :=
  template.filterMap fun
    | .text l => some l
    | .field _ => none

theorem not_mem_fill {c : Char} (ht : ∀ l ∈ texts template, c ∉ l) (hf : ∀ f ∈ fields, c ∉ f) :
    c ∉ template.flatMap (·.fill fields) := by
  intro hc
  obtain ⟨a, b, hab⟩ := List.append_of_mem hc
  obtain ⟨p, q, hm, -, -⟩ := exists_text_of_fill_eq hf hab
  exact ht _ (List.mem_filterMap.2 ⟨_, hm, rfl⟩) (by simp)

end Template

end GlideBridge
