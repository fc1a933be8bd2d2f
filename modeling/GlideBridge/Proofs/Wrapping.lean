import GlideBridge.Proofs.Reading
import GlideBridge.Proofs.Report
import GlideBridge.Proofs.Sites
import Mathlib.Data.List.TakeWhile

/-! Functions around bodies. Taking a function away leaves its body without the blanks at its ends,
however the head is laid out, as long as no other head stands at the beginning of a line. A script
without a function around it stays as it is unless its last character is a closing brace. -/

namespace GlideBridge

open Text Pieces

instance (priority := high) Text.decidableForallHead {p : Char → Prop} [DecidablePred p] :
    (o : Option Char) → Decidable (∀ c ∈ o, p c)
  | none => isTrue nofun
  | some c => decidable_of_iff (p c) (by simp)

structure Blanks where
  text : Text
  blank : ∀ c ∈ text, isBlank c = true

theorem Blanks.forall_head_append (b : Blanks) {P : Char → Prop}
    (hP : ∀ c, isBlank c = true → P c) {t : Text} (ht : ∀ c ∈ t.head?, P c) :
    ∀ c ∈ (b.text ++ t).head?, P c := by
  have hblank := b.blank
  generalize b.text = w at hblank
  cases w with
  | nil => exact ht
  | cons d w =>
    intro c hc
    obtain rfl : d = c := by simpa using hc
    exact hP d (hblank d List.mem_cons_self)

theorem Blanks.head_append (b : Blanks) {d : Char} (hd : CharClass.isWord d = false) (t : Text) :
    ∀ c ∈ (b.text ++ d :: t).head?, CharClass.word.has c = false := by
  refine b.forall_head_append (fun c hc => ?_) (has_head_cons (k := .word) hd t)
  rw [← Bool.not_eq_true]
  intro hword
  rw [isBlank_of_isWord hword] at hc
  cases hc

namespace Text

theorem trimLeft_blank_append {w : Text} (hw : ∀ c ∈ w, isBlank c = true) (t : Text) :
    trimLeft (w ++ t) = trimLeft t := List.dropWhile_append_of_pos hw

theorem trimLeft_cons_of_blank {c : Char} (hc : isBlank c = true) (t : Text) :
    trimLeft (c :: t) = trimLeft t := List.dropWhile_cons_of_pos hc

theorem trimLeft_of_head {c : Char} (hc : isBlank c = false) (t : Text) :
    trimLeft (c :: t) = c :: t := List.dropWhile_cons_of_neg (by simp [hc])

theorem trimLeft_append_cons {d : Char} (hd : isBlank d = false) (t u : Text) :
    trimLeft (t ++ d :: u) = trimLeft t ++ d :: u := by
  induction t with
  | nil => exact trimLeft_of_head hd u
  | cons c t ih =>
    cases hc : isBlank c with
    | true =>
      rw [List.cons_append, trimLeft_cons_of_blank hc, trimLeft_cons_of_blank hc, ih]
    | false => rw [List.cons_append, trimLeft_of_head hc, trimLeft_of_head hc, List.cons_append]

theorem trimRight_append_blank {w : Text} (hw : ∀ c ∈ w, isBlank c = true) (t : Text) :
    trimRight (t ++ w) = trimRight t := by
  rw [trimRight, List.reverse_append, List.dropWhile_append_of_pos (by simpa using hw), trimRight]

theorem trimRight_of_last {t : Text} (ht : ∀ c ∈ t.getLast?, isBlank c = false) :
    trimRight t = t := by
  rw [trimRight]
  rcases t.eq_nil_or_concat with rfl | ⟨u, c, rfl⟩
  · rfl
  · have hc : isBlank c = false := ht c (by simp)
    simp [hc]

theorem trimLeft_of_blank {w : Text} (hw : ∀ c ∈ w, isBlank c = true) : trimLeft w = [] :=
  List.dropWhile_eq_nil_iff.2 hw

theorem head_trimLeft_indent {unit w : Text} (hunit : ∀ c ∈ unit, isBlank c = true)
    (hw : ∀ c ∈ w, isBlank c = true) (t : Text) :
    (trimLeft (indent unit t ++ w)).head? = (trimLeft t).head? := by
  rw [indent_eq, List.append_assoc, trimLeft_blank_append hunit]
  induction t with
  | nil => rw [List.flatMap_nil, List.nil_append, trimLeft_of_blank hw]; rfl
  | cons c t ih =>
    rw [List.flatMap_cons, List.append_assoc]
    split
    · next hc =>
      have hblank : isBlank c = true := by rw [hc]; decide
      rw [List.cons_append, trimLeft_cons_of_blank (by decide), trimLeft_blank_append hunit, ih,
        trimLeft_cons_of_blank hblank]
    · rw [List.singleton_append]
      cases hc : isBlank c with
      | true => rw [trimLeft_cons_of_blank hc, ih, trimLeft_cons_of_blank hc]
      | false => rw [trimLeft_of_head hc, trimLeft_of_head hc]; rfl

theorem trim_blank_append_blank {v w : Text} (hv : ∀ c ∈ v, isBlank c = true)
    (hw : ∀ c ∈ w, isBlank c = true) (t : Text) : trim (v ++ (t ++ w)) = trim t := by
  rw [trim, trimLeft_blank_append hv, trim]
  by_cases ht : ∀ c ∈ t, isBlank c = true
  · rw [trimLeft_blank_append ht, trimLeft_of_blank hw, trimLeft_of_blank ht]
  · push Not at ht
    obtain ⟨c, hc, hblank⟩ := ht
    obtain ⟨a, b, rfl⟩ := List.append_of_mem hc
    have hblank : isBlank c = false := by simpa using hblank
    rw [List.append_assoc, List.cons_append, trimLeft_append_cons hblank,
      trimLeft_append_cons hblank, ← List.cons_append, ← List.append_assoc,
      trimRight_append_blank hw]

end Text

namespace Handler

def keyword : Text := ['f', 'u', 'n', 'c', 't', 'i', 'o', 'n']

theorem declarationHead_opening : declarationHead.opening = keyword := String.toList_ofList

theorem matchAt_of_ne {c : Char} {fresh : Bool} (hc : fresh = true → c ≠ 'f') (t : Text) :
    declarationHead.matchAt fresh (c :: t) = none := by
  cases fresh with
  | false => rfl
  | true =>
    rw [Option.eq_none_iff_forall_ne_some]
    intro h hm
    obtain ⟨u, g, hu, -⟩ := matchPieces_literal_eq_some_iff.1 hm
    rw [declarationHead_opening] at hu
    exact hc rfl (List.cons.inj hu).1

/-- No head of a function stands at the beginning of a line. What the text begins with is the
beginning of a line if it is `fresh`. -/
def Headless (fresh : Bool) (t : Text) : Prop :=
  ∀ a b, t = a ++ b → Pattern.freshAfter fresh a = true → declarationHead.matchAt true b = none

theorem headless_cons_iff {fresh : Bool} {c : Char} {t : Text} : Headless fresh (c :: t) ↔
    (fresh = true → declarationHead.matchAt true (c :: t) = none) ∧ Headless (c == '\n') t := by
  have hfresh (a : Text) :
      Pattern.freshAfter fresh (c :: a) = Pattern.freshAfter (c == '\n') a := by
    cases a with
    | nil => rfl
    | cons d a => simp [Pattern.freshAfter, List.getLast?_cons]
  constructor
  · refine fun h => ⟨fun hf => h [] _ rfl hf, fun a b hab ha => ?_⟩
    exact h (c :: a) b (by rw [hab, List.cons_append]) ((hfresh a).trans ha)
  · rintro ⟨hc, ht⟩ a b hab ha
    cases a with
    | nil =>
      obtain rfl : c :: t = b := hab
      exact hc ha
    | cons d a =>
      obtain ⟨rfl, hab'⟩ := List.cons.inj hab
      exact ht a b hab' ((hfresh a).symm.trans ha)

theorem headless_nil (fresh : Bool) : Headless fresh [] := by
  intro a b hab _
  obtain ⟨-, rfl⟩ := List.append_eq_nil_iff.1 hab.symm
  rfl

instance Headless.decidable : (fresh : Bool) → (t : Text) → Decidable (Headless fresh t)
  | fresh, [] => isTrue (headless_nil fresh)
  | fresh, c :: t =>
    have := Headless.decidable (c == '\n') t
    decidable_of_iff _ (@headless_cons_iff fresh c t).symm

theorem scan_of_headless {fresh : Bool} {t : Text} (h : Headless fresh t) :
    (declarationHead.scanFrom fresh 0 t).flatMap dropHeads.render = t := by
  induction t generalizing fresh with
  | nil => rfl
  | cons c t ih =>
    obtain ⟨hc, ht⟩ := headless_cons_iff.1 h
    have hmiss : declarationHead.matchAt fresh (c :: t) = none := by
      cases fresh with
      | false => rfl
      | true => exact hc rfl
    rw [Pattern.scanFrom_of_miss hmiss, List.flatMap_cons, ih ht]
    rfl

theorem headless_append {l t : Text} (hl : '\n' ∉ l) (ht : Headless false t) :
    Headless false (l ++ t) := by
  induction l with
  | nil => exact ht
  | cons c l ih =>
    rw [List.mem_cons, not_or] at hl
    have hc : (c == '\n') = false := by simpa using Ne.symm hl.1
    rw [List.cons_append, headless_cons_iff, hc]
    exact ⟨nofun, ih hl.2⟩

theorem headless_line_break_iff {t : Text} : Headless false ('\n' :: t) ↔ Headless true t := by
  rw [headless_cons_iff]
  exact ⟨fun h => h.2, fun h => ⟨nofun, h⟩⟩

theorem headless_line {c : Char} {l t : Text} (hc : c ≠ 'f') (hl : '\n' ∉ c :: l)
    (ht : Headless false t) (fresh : Bool) : Headless fresh (c :: (l ++ t)) :=
  headless_cons_iff.2 ⟨fun _ => matchAt_of_ne (fun _ => hc) _,
    (headless_cons_iff.1 (headless_append hl ht)).2⟩

theorem closing_of_later : (later declarationHead.steps).all (fun qs =>
    done qs || qs.contains (.literal [')']) && !qs.contains .lineEnd) = true := by decide +kernel

theorem matchAt_append_of_close_not_mem {b z : Text} (hb : b ≠ []) (hz : ')' ∉ z)
    (hm : declarationHead.matchAt true b = none) :
    declarationHead.matchAt true (b ++ z) = none := by
  have hend : .lineEnd ∉ declarationHead.steps := by decide
  change matchPieces declarationHead.steps b = none at hm
  change matchPieces declarationHead.steps (b ++ z) = none
  rw [← Option.isNone_iff_eq_none, ← Option.isSome_eq_false_iff,
    isSome_matchPieces hend] at hm ⊢
  rw [← Bool.not_eq_true]
  intro hread
  rcases reads_or_of_append hb hread with h | ⟨qs, hq, -, hd, h⟩
  · rw [hm] at h
    cases h
  · have hqs := List.all_eq_true.1 closing_of_later qs hq
    simp only [hd, Bool.false_or, Bool.and_eq_true, List.contains_eq_mem, decide_eq_true_eq,
      Bool.not_eq_true', decide_eq_false_iff_not] at hqs
    rw [← isSome_matchPieces hqs.2, Option.isSome_iff_exists] at h
    obtain ⟨hit, hhit⟩ := h
    obtain ⟨u, rfl⟩ := taken_append_of_match hhit
    exact hz (List.mem_append_left u ((spells_of_match hhit).mem_taken hqs.1 (by simp)))

theorem headless_append_brace {b gap : Text} (hb : Headless false b)
    (hgap : ∀ c ∈ gap, isBlank c = true) : Headless false (b ++ '}' :: gap) := by
  have hclose : ')' ∉ '}' :: gap := by
    simp only [List.mem_cons, not_or]
    exact ⟨by decide, fun h => absurd (hgap _ h) (by decide)⟩
  intro x y hxy hx
  rcases List.append_eq_append_iff.1 hxy.symm with ⟨v, rfl, rfl⟩ | ⟨v, rfl, hv⟩
  · by_cases hne : v = []
    · subst hne
      exact matchAt_of_ne (fun _ => by decide) gap
    · exact matchAt_append_of_close_not_mem hne hclose (hb x v rfl hx)
  · cases y with
    | nil => rfl
    | cons c y =>
      -- a brace or a blank stands there
      refine matchAt_of_ne (fun _ => ?_) y
      rintro rfl
      have hmem : 'f' ∈ '}' :: gap := hv ▸ List.mem_append_right v List.mem_cons_self
      rcases List.mem_cons.1 hmem with h | h
      · cases h
      · exact absurd (hgap _ h) (by decide)

/-- What stands around the body of a function, with blanks wherever they may stand. -/
structure Wrapper where
  gap : Blanks
  gap_ne : gap.text ≠ []
  name : Word
  beforeParameters : Blanks
  parameters : Text
  closed : ')' ∉ parameters
  beforeBrace : Blanks
  behind : Blanks

namespace Wrapper

def head (w : Wrapper) : Text :=
  keyword ++ (w.gap.text ++ (w.name.text ++ (w.beforeParameters.text ++
    '(' :: (w.parameters ++ ')' :: (w.beforeBrace.text ++ ['{'])))))

def write (w : Wrapper) (body : Text) : Text := w.head ++ (body ++ '}' :: w.behind.text)

theorem takes_behindKeyword (w : Wrapper) :
    Takes [.one .blank, .many .blank, .one .word, .many .word, .many .blank, .literal ['('],
      .many (.except ')'), .literal [')'], .many .blank, .optional '{']
      (w.gap.text ++ (w.name.text ++ (w.beforeParameters.text ++
        '(' :: (w.parameters ++ ')' :: (w.beforeBrace.text ++ ['{']))))) [] := by
  intro t
  obtain ⟨d, gap, hgap⟩ := List.exists_cons_of_ne_nil w.gap_ne
  obtain ⟨c, name, hname⟩ := List.exists_cons_of_ne_nil w.name.ne_nil
  have hblank := w.gap.blank
  have hword := w.name.has
  rw [hgap, List.forall_mem_cons] at hblank
  rw [hname, List.forall_mem_cons] at hword
  have hc : CharClass.blank.has c = false := isBlank_of_isWord hword.1
  have hbrace : matchPieces [.optional '{'] ('{' :: t) = some ⟨['{'], []⟩ :=
    matchPieces_optional_cons (h := ⟨[], []⟩) '{' rfl
  -- from the last pieces to the first ones
  have hclose := matchPieces_literal_some [')'] <|
    matchPieces_many_append (k := .blank) w.beforeBrace.blank (has_head_cons (by decide) _) hbrace
  have hopen := matchPieces_literal_some ['('] <|
    matchPieces_many_append (CharClass.has_except w.closed) (has_head_cons (by decide) _) hclose
  have hparameters := matchPieces_many_append (k := .blank) w.beforeParameters.blank
    (has_head_cons (by decide) _) hopen
  have hletters := matchPieces_one_cons hword.1 <|
    matchPieces_many_append hword.2 (w.beforeParameters.head_append (by decide) _) hparameters
  have hkeyword := matchPieces_one_cons (k := .blank) hblank.1 <|
    matchPieces_many_append hblank.2 (has_head_cons hc _) hletters
  rw [hgap, hname]
  simpa [Hit.after] using hkeyword

theorem takes_head (w : Wrapper) : Takes declarationHead.steps w.head [] :=
  Takes.steps declarationHead_opening w.takes_behindKeyword

theorem apply_dropHeads (w : Wrapper) {t : Text} (ht : Headless false t) :
    dropHeads.apply (w.head ++ t) = t := by
  have hm : declarationHead.matchAt true (w.head ++ t) = some ⟨w.head, []⟩ := w.takes_head t
  have hlast : Pattern.freshAfter true w.head = false := by
    simp [Pattern.freshAfter, head, List.getLast?_append, List.getLast?_cons]
  have hscan := Pattern.scanFrom_of_hit (h := ⟨w.head, []⟩) hm
  rw [hlast] at hscan
  exact (congrArg (List.flatMap dropHeads.render) hscan).trans (scan_of_headless ht)

end Wrapper

theorem dropOpeningBrace_of_head {t : Text} (ht : (trimLeft t).head? ≠ some '{') :
    dropOpeningBrace t = trimLeft t := by
  rw [dropOpeningBrace]
  split
  · next u hu =>
    rw [hu] at ht
    exact absurd rfl ht
  · rfl

theorem dropClosingBrace_append {gap : Text} (hgap : ∀ c ∈ gap, isBlank c = true) (t : Text) :
    dropClosingBrace (t ++ '}' :: gap) = trimRight t := by
  have hbrace : isBlank '}' = false := by decide
  have hreverse : (t ++ '}' :: gap).reverse.dropWhile isBlank = '}' :: t.reverse := by
    rw [List.reverse_append, List.reverse_cons, List.append_assoc,
      List.dropWhile_append_of_pos (by simpa using hgap)]
    simp [hbrace]
  rw [dropClosingBrace, hreverse]
  rfl

theorem dropClosingBrace_of_last {t : Text}
    (hlast : ∀ c ∈ t.getLast?, isBlank c = false ∧ c ≠ '}') :
    dropClosingBrace t = t := by
  rcases t.eq_nil_or_concat with rfl | ⟨u, c, rfl⟩
  · rfl
  · obtain ⟨hblank, hbrace⟩ := hlast c (by simp)
    simp [dropClosingBrace, hblank, hbrace]

theorem Wrapper.unwrap_write (w : Wrapper) {body : Text} (hfirst : (trimLeft body).head? ≠ some '{')
    (hbody : Headless false body) : unwrap (w.write body) = trim body := by
  have hbrace : isBlank '}' = false := by decide
  have hhead : (trimLeft (body ++ '}' :: w.behind.text)).head? ≠ some '{' := by
    rw [trimLeft_append_cons hbrace]
    cases h : trimLeft body with
    | nil => simp
    | cons c u =>
      rw [h] at hfirst
      simpa using hfirst
  rw [unwrap, write, w.apply_dropHeads (headless_append_brace hbody w.behind.blank),
    dropOpeningBrace_of_head hhead, trimLeft_append_cons hbrace,
    dropClosingBrace_append w.behind.blank, trim]

def plainWrapper (name : Word) (parameters : Text) (closed : ')' ∉ parameters) : Wrapper where
  gap := ⟨[' '], by decide⟩
  gap_ne := by decide
  name := name
  beforeParameters := ⟨[], by decide⟩
  parameters := parameters
  closed := closed
  beforeBrace := ⟨[' '], by decide⟩
  behind := ⟨[], by decide⟩

def handlerWrapper (name : Word) : Wrapper :=
  plainWrapper name (Text.joinWith ", " parameters) (by decide)

theorem heading_eq (name : Word) : heading name.text = (handlerWrapper name).head := by
  have hkeyword : ("function " : Text) = keyword ++ [' '] := String.toList_ofList
  have hopen : ("(" : Text) = ['('] := String.toList_ofList
  have hbrace : (") \x7b" : Text) = [')', ' ', '{'] := String.toList_ofList
  have hhead : (handlerWrapper name).head = keyword ++ (' ' :: (name.text ++
      '(' :: (Text.joinWith ", " parameters ++ [')', ' ', '{']))) := rfl
  have hheading : heading name.text =
      "function " ++ name.text ++ "(" ++ Text.joinWith ", " parameters ++ ") \x7b" := rfl
  rw [hheading, hhead, hkeyword, hopen, hbrace]
  generalize Text.joinWith ", " parameters = ps
  simp

theorem wrap_eq_write (name : Word) (body : Text) :
    wrap name.text body = (handlerWrapper name).write ('\n' :: (body ++ ['\n'])) := by
  have hbehind : (handlerWrapper name).behind.text = [] := rfl
  have hbody : '\n' :: (body ++ '\n' :: ['}']) = ('\n' :: (body ++ ['\n'])) ++ ['}'] := by simp
  have hwrap := wrap_eq name.text body
  rw [heading_eq, hbody] at hwrap
  rw [hwrap, Wrapper.write, hbehind]

theorem headless_indent {unit : Text} (hne : unit ≠ []) (hunit : ∀ c ∈ unit, c = ' ' ∨ c = '\t')
    (t : Text) : Headless false ('\n' :: (indent unit t ++ ['\n'])) := by
  obtain ⟨c, l, rfl⟩ := List.exists_cons_of_ne_nil hne
  have hline : '\n' ∉ c :: l := fun h => absurd (hunit _ h) (by decide)
  have hc : c ≠ 'f' := by
    rcases hunit c List.mem_cons_self with rfl | rfl
    · decide
    · decide
  rw [indent_eq, List.append_assoc, headless_line_break_iff]
  refine headless_line hc hline ?_ true
  induction t with
  | nil => exact headless_line_break_iff.2 (headless_nil true)
  | cons d t ih =>
    rw [List.flatMap_cons, List.append_assoc]
    split
    · exact headless_line_break_iff.2 (headless_line hc hline ih true)
    · next hd => exact headless_append (by simpa using Ne.symm hd) ih

/-- Taking the function around a body away leaves the body without the blanks at its ends, and so
does taking a handler away from lines that have been indented. -/
theorem unwrap_wrapper :
    (∀ (w : Wrapper) (body : Text), (trimLeft body).head? ≠ some '{' → Headless false body →
      unwrap (w.write body) = trim body) ∧
    ∀ (name : Word) (unit t : Text), unit ≠ [] → (∀ c ∈ unit, c = ' ' ∨ c = '\t') →
      (trimLeft t).head? ≠ some '{' →
      unwrap (wrap name.text (indent unit t)) = trim (indent unit t) := by
  refine ⟨fun w body => w.unwrap_write, fun name unit t hne hunit hfirst => ?_⟩
  have hblank : ∀ c ∈ unit, isBlank c = true := by
    intro c hc
    rcases hunit c hc with rfl | rfl
    · decide
    · decide
  have hhead : (trimLeft ('\n' :: (indent unit t ++ ['\n']))).head? ≠ some '{' := by
    rwa [trimLeft_cons_of_blank (by decide), head_trimLeft_indent hblank (w := ['\n']) (by decide)]
  rw [wrap_eq_write, Wrapper.unwrap_write _ hhead (headless_indent hne hunit t)]
  exact trim_blank_append_blank (v := ['\n']) (by decide) (by decide) _

theorem unwrap_wrapper_blocks :
    unwrap (({ plainWrapper ⟨['f', '1'], by decide, by decide⟩ "a,\n b" (by decide) with
        beforeBrace := ⟨['\n'], by decide⟩, behind := ⟨['\n', ' '], by decide⟩ } : Wrapper).write
          "\n  function g() \x7b\x7d\n  if (a) \x7b b(); \x7d\x7d\n") =
        "function g() \x7b\x7d\n  if (a) \x7b b(); \x7d\x7d".toList ∧
      unwrap (wrap ['f'] (indent ['\t'] "function g() \x7b\n\x7d")) =
        "function g() \x7b\n\t\x7d".toList :=
  ⟨(unwrap_wrapper.1 _ "\n  function g() \x7b\x7d\n  if (a) \x7b b(); \x7d\x7d\n"
      (by decide +kernel) (by decide +kernel)).trans (by decide +kernel),
    (unwrap_wrapper.2 ⟨['f'], by decide, by decide⟩ ['\t'] "function g() \x7b\n\x7d" (by decide)
      (by decide) (by decide +kernel)).trans (by decide +kernel)⟩

theorem unwrap_of_headless {source : Text}
    (hfirst : ∀ c ∈ source.head?, isBlank c = false ∧ c ≠ '{')
    (hsource : Headless true source) : unwrap source = dropClosingBrace source := by
  have hheads : dropHeads.apply source = source := scan_of_headless hsource
  have hleft : trimLeft source = source := by
    cases source with
    | nil => rfl
    | cons c t => exact trimLeft_of_head (hfirst c rfl).1 t
  have hopen : dropOpeningBrace source = source := by
    rw [dropOpeningBrace_of_head, hleft]
    rw [hleft]
    exact fun h => (hfirst '{' h).2 rfl
  rw [unwrap, hheads, hopen]

/-- A script without a function around it stays as it is unless it ends with a closing brace, which
goes with the blanks in front of it. -/
theorem unwrap_bare {source : Text}
    (hfirst : ∀ c ∈ source.head?, isBlank c = false ∧ c ≠ '{')
    (hlast : ∀ c ∈ source.getLast?, isBlank c = false) (hsource : Headless true source) :
    (unwrap source = source ↔ source.getLast? ≠ some '}') ∧
      ∀ t, source = t ++ ['}'] → unwrap source = trimRight t := by
  have hunwrap := unwrap_of_headless hfirst hsource
  have hbrace {t : Text} (ht : source = t ++ ['}']) : unwrap source = trimRight t := by
    rw [hunwrap, ht]
    exact dropClosingBrace_append (by simp) t
  refine ⟨⟨fun h hend => ?_, fun hend => ?_⟩, fun t => hbrace⟩
  · obtain ⟨t, ht⟩ := List.getLast?_eq_some_iff.1 hend
    rw [hbrace ht, ht] at h
    -- what is left is shorter than the script
    have hlength : (trimRight t).length ≤ t.length := by
      have hreverse : t.reverse.length = t.length := List.length_reverse
      rw [trimRight, List.length_reverse, ← hreverse]
      exact (List.dropWhile_suffix isBlank).length_le
    have := congrArg List.length h
    rw [List.length_append, List.length_singleton] at this
    omega
  · rw [hunwrap]
    exact dropClosingBrace_of_last fun c hc => ⟨hlast c hc, fun he => hend (he ▸ hc)⟩

theorem unwrap_bare_call :
    unwrap "if (x) \x7b y(); \x7d\nz();" = "if (x) \x7b y(); \x7d\nz();".toList :=
  (@unwrap_bare "if (x) \x7b y(); \x7d\nz();" (by decide +kernel) (by decide +kernel)
    (by decide +kernel)).1.2 (by decide +kernel)

/-- The brace of a block at the end of a script goes as if it were that of a function. -/
theorem exists_bare_not_kept : ∃ source : Text,
    (∀ c ∈ source.head?, isBlank c = false ∧ c ≠ '{') ∧
      (∀ c ∈ source.getLast?, isBlank c = false) ∧ Headless true source ∧ unwrap source ≠ source :=
  ⟨"if (x) \x7b\n  y();\n\x7d", by decide +kernel, by decide +kernel, by decide +kernel,
    by decide +kernel⟩

end Handler

end GlideBridge
