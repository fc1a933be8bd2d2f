import GlideBridge.FormType
import GlideBridge.Proofs.LineBreaks
import GlideBridge.Proofs.Parentheses

/-! When the rules for form calls convert a statement by itself. Where the parentheses of a
statement are balanced, a call of most kinds ends in the statement in which it begins, because its
arguments end at the first closing parenthesis. The fields of three rules go on beyond it: the name
in a getter up to a quote, and the arguments in front of the last one up to a comma. -/

namespace GlideBridge

open Text Pieces

namespace Rule

/-- The text `w ++ b` goes through the rules in front of `r` as it is, completes what runs on in a
line that ends in `c`, and does not begin with `w` when all rules have worked on it. -/
def isProbe (c : Char) (w b : Text) (rs : List Rule) (r : Rule) (ss : List Rule) : Bool :=
  firm r.pattern.steps && completes c (w ++ b) r.pattern.steps && !(w ++ b).contains '\n' &&
    run rs (w ++ b) == w ++ b && !w.isPrefixOf (run (rs ++ r :: ss) (w ++ b)) &&
    (r :: ss).all (keepsBreaks w) && ss.all fun s => silentRec s.pattern.steps w

theorem run_append_ne {c : Char} {w b t : Text} {rs ss : List Rule} {r : Rule}
    (hprobe : isProbe c w b rs r ss = true)
    (hrs : run rs (t ++ '\n' :: (w ++ b)) = run rs t ++ '\n' :: run rs (w ++ b))
    (hnew : '\n' ∉ run rs t) (hend : (run rs t).getLast? = some c)
    (hruns : r.pattern.RunsOn (run rs t)) :
    run (rs ++ r :: ss) (t ++ '\n' :: (w ++ b)) ≠
      run (rs ++ r :: ss) t ++ '\n' :: run (rs ++ r :: ss) (w ++ b) := by
  simp only [isProbe, Bool.and_eq_true, Bool.not_eq_true', List.contains_eq_mem,
    decide_eq_false_iff_not, beq_iff_eq, List.all_cons, List.all_eq_true] at hprobe
  obtain ⟨⟨⟨⟨⟨⟨hfirm, hcompletes⟩, hline⟩, hstays⟩, hconverted⟩, hr, hss⟩, hsilent⟩ := hprobe
  have hstep := breaks_apply_of_runsOn hr hfirm hcompletes hline (List.prefix_append w b) hnew hend
    hruns
  have hbreaks := breaks_run hss hsilent hstep
  intro heq
  rw [run_append rs, hrs, hstays] at heq
  have hpre := hbreaks _ _ heq
  rw [← List.isPrefixOf_iff_prefix, hconverted] at hpre
  cases hpre

end Rule

namespace Pieces

theorem free_literal_iff {o t : Text} (ho : o ≠ []) : Free [.literal o] t ↔ ¬ o <:+: t := by
  rw [free_iff]
  constructor
  · rintro h ⟨x, y, rfl⟩
    have hread := h (o ++ y) ⟨x, by simp⟩ (by simp [ho])
    rw [reads_literal_append, reads_nil_pieces] at hread
    cases hread
  · intro h v hv _
    rw [← Bool.not_eq_true, ← isSome_matchPieces (by simp), Option.isSome_iff_exists]
    rintro ⟨g, hg⟩
    obtain ⟨u, -, rfl, -⟩ := matchPieces_literal_eq_some_iff.1 hg
    exact h ((List.prefix_append o u).isInfix.trans hv.isInfix)

end Pieces

namespace Catalog

/-- The openings of the calls with a field that goes on beyond closing parentheses. -/
def openEnded : List Text := ["g_form.getValue", "g_form.showFieldMsg(", "g_form.addOption("]

def isOpenEnded (r : Rule) : Bool := openEnded.contains r.pattern.opening

def probes : List (Text × Text) :=
  [("g_form.getValue(", "')')"), ("g_form.showFieldMsg(", "1,2,3)"),
    ("g_form.addOption(", "\"f\",1,2)")]

def endsClosed (p : Pattern) : Bool :=
  p.steps.getLast?.any fun
    | .literal w => w.getLast? == some ')'
    | _ => false

def isFormRule (r : Rule) : Bool :=
  r.isInline && firm r.pattern.steps && r.sinks && !r.pattern.opening.contains '\n' &&
    !r.pattern.steps.contains .lineEnd && (Template.texts r.template).all (!·.contains '\n') &&
    endsClosed r.pattern &&
    (r.pattern.pieces.isEmpty || r.pattern.closesFirst || isOpenEnded r)

-- one evaluation for all forms, since most of what is evaluated is the same for each
theorem formRules_isFormRule :
    (FormType.all.all fun f => (formRules f.identifier).all isFormRule) = true := by decide +kernel

theorem formRules_probed : (FormType.all.all fun f => (List.range 19).all fun i =>
    (formRules f.identifier)[i]?.all fun r => !isOpenEnded r ||
      (probes.any fun p => Rule.isProbe ';' p.1 p.2 ((formRules f.identifier).take i) r
        ((formRules f.identifier).drop (i + 1))) &&
      ((formRules f.identifier).take i).all (Rule.spares [.literal r.pattern.opening])) = true := by
  decide +kernel

theorem taken_of_endsClosed {p : Pattern} (hp : endsClosed p = true) {h : Hit}
    (hs : Spells p.steps h) : h.taken.getLast? ≠ some ';' := by
  rw [endsClosed, Option.any_eq_true] at hp
  obtain ⟨q, hq, hp⟩ := hp
  cases q with
  | literal w =>
    obtain ⟨x, hx⟩ := hs.suffix_of_getLast? hq
    have hw : w.getLast? = some ')' := by simpa using hp
    rw [← hx, List.getLast?_append, hw]
    simp
  | _ => cases hp

section FormRules

variable {f : FormType} {r : Rule} {i : ℕ} {a : Text}

structure IsFormRule (r : Rule) : Prop where
  inline : r.isInline = true
  firm : Pieces.firm r.pattern.steps = true
  sinks : r.sinks = true
  opening_new : '\n' ∉ r.pattern.opening
  lineEnd_not_mem : .lineEnd ∉ r.pattern.steps
  texts_new : ∀ l ∈ Template.texts r.template, '\n' ∉ l
  ends : ∀ h, Spells r.pattern.steps h → h.taken.getLast? ≠ some ';'
  kind : (r.pattern.pieces = [] ∨ r.pattern.closesFirst = true) ∨ isOpenEnded r = true

theorem isFormRule_of_mem (hr : r ∈ formRules f.identifier) : IsFormRule r := by
  have hall := List.all_eq_true.1 (List.all_eq_true.1 formRules_isFormRule f f.mem_all) r hr
  simp only [isFormRule, Bool.and_eq_true, Bool.or_eq_true, Bool.not_eq_true', List.contains_eq_mem,
    decide_eq_false_iff_not, List.all_eq_true, List.isEmpty_iff] at hall
  obtain ⟨⟨⟨⟨⟨⟨⟨hinline, hfirm⟩, hsinks⟩, hopening⟩, hlineEnd⟩, htexts⟩, hends⟩, hkind⟩ := hall
  exact ⟨hinline, hfirm, hsinks, hopening, hlineEnd, htexts,
    fun h => taken_of_endsClosed hends, hkind⟩

theorem exists_probe (hr : (formRules f.identifier)[i]? = some r) (hopen : isOpenEnded r = true) :
    (∃ w b, Rule.isProbe ';' w b ((formRules f.identifier).take i) r
        ((formRules f.identifier).drop (i + 1)) = true) ∧
      ((formRules f.identifier).take i).all (Rule.spares [.literal r.pattern.opening]) = true := by
  obtain ⟨hi, -⟩ := List.getElem?_eq_some_iff.1 hr
  have hall := List.all_eq_true.1 (List.all_eq_true.1 formRules_probed f f.mem_all) i
    (List.mem_range.2 hi)
  rw [hr, Option.all_some, hopen, Bool.not_true, Bool.false_or, Bool.and_eq_true,
    List.any_eq_true] at hall
  obtain ⟨⟨p, -, hp⟩, hspares⟩ := hall
  exact ⟨⟨p.1, p.2, hp⟩, hspares⟩

def stage (f : FormType) (i : ℕ) (t : Text) : Text := Rule.run ((formRules f.identifier).take i) t

theorem mem_of_mem_take (hr : r ∈ (formRules f.identifier).take i) : IsFormRule r :=
  isFormRule_of_mem (List.mem_of_mem_take hr)

theorem run_of_isFormRule {rs : List Rule} (hrs : ∀ r ∈ rs, IsFormRule r) (hline : '\n' ∉ a)
    (hend : a.getLast? = some ';') :
    '\n' ∉ Rule.run rs a ∧ (Rule.run rs a).getLast? = some ';' := by
  refine Rule.run_induction (P := fun t => '\n' ∉ t ∧ t.getLast? = some ';') (fun r hr t ht => ?_)
    ⟨hline, hend⟩
  have hp := Rule.lineStart_of_isInline (hrs r hr).inline
  exact ⟨Rule.not_mem_apply hp (hrs r hr).texts_new ht.1,
    Rule.getLast?_apply hp (hrs r hr).ends ht.2⟩

theorem isOpenEnded_of_runsOn (ha : Balanced a) (hr : r ∈ formRules f.identifier)
    (hruns : r.pattern.RunsOn (stage f i a)) : isOpenEnded r = true := by
  have hform := isFormRule_of_mem hr
  rcases hform.kind with (hpieces | hcloses) | hopen
  · exact absurd hruns (Pattern.not_runsOn_of_pieces_nil hform.opening_new hpieces _)
  · have hdepth : depth 0 (stage f i a) ≤ depth 0 a :=
      Rule.depth_run_le (fun r hr => Rule.lineStart_of_isInline (mem_of_mem_take hr).inline)
        (fun r hr => (mem_of_mem_take hr).sinks) (Nat.zero_le 2) a
    have hone := hruns.one_le_depth hform.opening_new hform.lineEnd_not_mem hcloses 0
    rw [ha.depth_eq_zero] at hdepth
    omega
  · exact hopen

theorem stage_append (hruns : ∀ (j : ℕ) (r : Rule), j < i → (formRules f.identifier)[j]? = some r →
    ¬ r.pattern.RunsOn (stage f j a)) (b : Text) :
    stage f i (a ++ '\n' :: b) = stage f i a ++ '\n' :: stage f i b := by
  refine Rule.run_append_line_break (fun r hr => (mem_of_mem_take hr).inline)
    (fun r hr => (mem_of_mem_take hr).firm) (fun j r hj => ?_) b
  rw [List.getElem?_take] at hj
  split at hj
  · next hlt =>
    rw [List.take_take, min_eq_left hlt.le]
    exact hruns j r hlt hj
  · cases hj

theorem not_runsOn_of_separates (hline : '\n' ∉ a) (hend : a.getLast? = some ';') (ha : Balanced a)
    (hsep : ∀ b, Rule.run (formRules f.identifier) (a ++ '\n' :: b) =
      Rule.run (formRules f.identifier) a ++ '\n' :: Rule.run (formRules f.identifier) b)
    (hr : (formRules f.identifier)[i]? = some r) : ¬ r.pattern.RunsOn (stage f i a) := by
  -- on the first rule that runs on: the rules in front of it go line by line
  induction i using Nat.strongRecOn generalizing r with
  | ind i ih =>
    intro hruns
    have hopen := isOpenEnded_of_runsOn ha (List.mem_of_getElem? hr) hruns
    obtain ⟨⟨w, b, hprobe⟩, -⟩ := exists_probe hr hopen
    obtain ⟨hnew, hlast⟩ :=
      run_of_isFormRule (fun r => mem_of_mem_take (f := f) (i := i)) hline hend
    have hstage := stage_append (fun j r hj => ih j hj) (w ++ b)
    obtain ⟨hi, rfl⟩ := List.getElem?_eq_some_iff.1 hr
    have hsplit : (formRules f.identifier).take i ++ (formRules f.identifier)[i] ::
        (formRules f.identifier).drop (i + 1) = formRules f.identifier := by
      rw [← List.drop_eq_getElem_cons hi, List.take_append_drop]
    refine Rule.run_append_ne hprobe hstage hnew hlast hruns ?_
    rw [hsplit]
    exact hsep (w ++ b)

theorem not_runsOn_of_not_isInfix (hr : (formRules f.identifier)[i]? = some r)
    (hopen : isOpenEnded r = true) (ha : ¬ r.pattern.opening <:+: a) :
    ¬ r.pattern.RunsOn (stage f i a) := by
  intro hruns
  have hform := isFormRule_of_mem (List.mem_of_getElem? hr)
  have hfree :=
    Rule.free_run (exists_probe hr hopen).2 ((free_literal_iff r.pattern.opening_ne).2 ha)
  obtain ⟨v, -, -, hv, hs, -⟩ := hruns.exists_suffix hform.opening_new
  exact (free_literal_iff r.pattern.opening_ne).1 hfree (hv.isInfix.trans hs.isInfix)

end FormRules

/-- A statement with balanced parentheses is converted by itself, whatever stands on the lines
behind it, if and only if no open-ended call runs on over its end; so it is when it has no such
call. -/
theorem formGroup_separates (f : FormType) {a : Text} (hline : '\n' ∉ a)
    (hend : a.getLast? = some ';') (ha : Balanced a) :
    ((∀ b, (formGroup f.identifier).apply (a ++ '\n' :: b) =
        (formGroup f.identifier).apply a ++ '\n' :: (formGroup f.identifier).apply b) ↔
      ∀ (i : ℕ) (r : Rule), (formRules f.identifier)[i]? = some r →
        r.pattern.opening ∈ openEnded → ¬ r.pattern.RunsOn (stage f i a)) ∧
    ((∀ o ∈ openEnded, ¬ o <:+: a) → ∀ b, (formGroup f.identifier).apply (a ++ '\n' :: b) =
      (formGroup f.identifier).apply a ++ '\n' :: (formGroup f.identifier).apply b) := by
  have hiff : (∀ b, Rule.run (formRules f.identifier) (a ++ '\n' :: b) =
      Rule.run (formRules f.identifier) a ++ '\n' :: Rule.run (formRules f.identifier) b) ↔
      ∀ (i : ℕ) (r : Rule), (formRules f.identifier)[i]? = some r →
        r.pattern.opening ∈ openEnded → ¬ r.pattern.RunsOn (stage f i a) := by
    constructor
    · exact fun h i r hr _ => not_runsOn_of_separates hline hend ha h hr
    · intro h b
      have hruns (i : ℕ) (r : Rule) (hr : (formRules f.identifier)[i]? = some r) :
          ¬ r.pattern.RunsOn (stage f i a) := fun hruns =>
        h i r hr (List.contains_iff_mem.1
          (isOpenEnded_of_runsOn ha (List.mem_of_getElem? hr) hruns)) hruns
      exact Rule.run_append_line_break (fun r hr => (isFormRule_of_mem hr).inline)
        (fun r hr => (isFormRule_of_mem hr).firm) hruns b
  refine ⟨hiff, fun h => hiff.2 fun i r hr hopen => ?_⟩
  exact not_runsOn_of_not_isInfix hr (List.contains_iff_mem.2 hopen) (h _ hopen)

theorem formGroup_separates_nested :
    (formGroup FormType.requestForm.identifier).apply
        ("g_form.setValue('x', f(1) + g());" ++ '\n' :: "g_form.getTableName();") =
      "ele.requestForm.get(\"x\").setValue(f(1) + g());\ntableName;".toList :=
  ((formGroup_separates .requestForm (a := "g_form.setValue('x', f(1) + g());")
    (by decide +kernel) (by decide +kernel) (by decide +kernel)).2 (by decide +kernel)
      "g_form.getTableName();").trans (by decide +kernel)

def openQuote : Option Char → Char → Option Char
  | none, c => if CharClass.isQuote c then some c else none
  | some q, c => if c = q then none else some q

/-- A call with an argument missing takes one from the next line. -/
theorem exists_statement_not_separated : ∃ a b : Text, '\n' ∉ a ∧ a.getLast? = some ';' ∧
    Balanced a ∧ a.foldl openQuote none = none ∧
      (formGroup FormType.requestForm.identifier).apply (a ++ '\n' :: b) ≠
        (formGroup FormType.requestForm.identifier).apply a ++
          '\n' :: (formGroup FormType.requestForm.identifier).apply b :=
  ⟨"g_form.showFieldMsg(\"f\",\"m\");", "foo(1, 2);", by decide +kernel, by decide +kernel,
    by decide +kernel, by decide +kernel, by decide +kernel⟩

end Catalog

end GlideBridge
