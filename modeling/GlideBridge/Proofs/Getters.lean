import GlideBridge.Proofs.Shapes

/-! Expressions on their way through the rules. Each getter has one rule that takes it, and every
other rule passes what stands in its place. So each rule turns one stage of an expression into the
next, whatever the rule does to the text behind it. -/

namespace GlideBridge

open Text Catalog Pieces
open Shape (fits_plain fits_field)
open String (toList_ofList)

namespace Statement

theorem callOf_nil (s : CallSpace) (name sep : Text) : callOf s name sep [] =
    [TemplatePart.text (s.callText name), .text [')']].flatMap (·.fill []) := by
  simp [callOf, joinWith]

theorem callOf_singleton (s : CallSpace) (name sep a : Text) : callOf s name sep [a] =
    [TemplatePart.text (s.callText name), .field 0, .text [')']].flatMap (·.fill [a]) := by
  simp [callOf, joinWith]

end Statement

namespace Getter

open Statement (callOf_nil callOf_singleton)

def index : Getter → ℕ
  | getUser => 1
  | getSession => 2
  | getProperty _ => 3
  | current _ => 10
  | workflow _ => 11
  | getValue _ => 13
  | getTableName => 25
  | getUniqueValue => 26
  | isNewRecord => 27
  | getControl _ => 29

def plainShapes : List Shape :=
  [⟨1, [.text (CallSpace.system.callText "getUser"), .text [')']], ["ele.currentUser"]⟩,
    ⟨2, [.text (CallSpace.system.callText "getSession"), .text [')']], ["ele.session"]⟩,
    ⟨3, [.text (CallSpace.system.callText "getProperty"), .field 0, .text [')']],
      ["ele.getProperty(\"", .field 0, "\")"]⟩,
    ⟨10, [.text (currentWord ++ ['.']), .field 0], currentRule.template⟩,
    ⟨11, [.text (workflowWord ++ ['.']), .field 0], workflowRule.template⟩,
    ⟨25, [.text (CallSpace.form.callText "getTableName"), .text [')']], ["tableName"]⟩,
    ⟨26, [.text (CallSpace.form.callText "getUniqueValue"), .text [')']], ["uniqueValue"]⟩,
    ⟨27, [.text (CallSpace.form.callText "isNewRecord"), .text [')']], ["isNewRecord"]⟩,
    ⟨29, [.text (CallSpace.form.callText "getControl"), .field 0, .text [')']],
      ["getFieldControl(\"", .field 0, "\")"]⟩]

def valueShape (form : Text) : Shape :=
  ⟨13, [.text (CallSpace.form.callText "getValue"), .field 0, .text [')']],
    fieldAccess form [".value"]⟩

def shapes (form : Text) : List Shape := valueShape form :: plainShapes

theorem allShapes_checks :
    ((plainShapes ++ FormType.all.map fun f => valueShape f.identifier).all fun s =>
      s.isCarried atomEnds && s.isNeat) = true := by decide +kernel

theorem shapes_checks (f : FormType) :
    ∀ s ∈ shapes f.identifier, s.isCarried atomEnds = true ∧ s.isNeat = true := by
  intro s hs
  rw [← Bool.and_eq_true]
  refine List.all_eq_true.1 allShapes_checks s ?_
  rcases List.mem_cons.1 hs with rfl | hs
  · exact List.mem_append_right _ (List.mem_map_of_mem f.mem_all)
  · exact List.mem_append_left _ hs

theorem fits_access {w : Word} {text translation root : Text} {i : ℕ} {target : Template}
    (htext : text = root ++ '.' :: w.text) (ht : translation = target.flatMap (·.fill [w.text])) :
    Shape.Fits ⟨i, [.text (root ++ ['.']), .field 0], target⟩ text translation :=
  ⟨⟨[w.text], w.forall_isArgument, by simp [htext]⟩, ⟨[w.text], w.forall_isArgument, ht⟩⟩

theorem exists_shape (form : Text) (g : Getter) :
    ∃ s ∈ shapes form, s.index = g.index ∧ s.Fits g.text (g.translation form) := by
  have hplain {i : ℕ} {s : Shape} (hs : plainShapes[i]? = some s) : s ∈ shapes form :=
    List.mem_cons_of_mem _ (List.mem_of_getElem? hs)
  cases g with
  | getUser => exact ⟨_, hplain (i := 0) rfl, rfl, fits_plain (callOf_nil ..) rfl⟩
  | getSession => exact ⟨_, hplain (i := 1) rfl, rfl, fits_plain (callOf_nil ..) rfl⟩
  | getProperty f => exact ⟨_, hplain (i := 2) rfl, rfl, fits_field f (callOf_singleton ..) rfl⟩
  | current w =>
    exact ⟨_, hplain (i := 3) rfl, rfl, fits_access (Statement.record_line .current w) rfl⟩
  | workflow w =>
    exact ⟨_, hplain (i := 4) rfl, rfl, fits_access (Statement.record_line .workflow w) rfl⟩
  | getValue f => exact ⟨_, List.mem_cons_self, rfl, fits_field f (callOf_singleton ..) rfl⟩
  | getTableName => exact ⟨_, hplain (i := 5) rfl, rfl, fits_plain (callOf_nil ..) rfl⟩
  | getUniqueValue => exact ⟨_, hplain (i := 6) rfl, rfl, fits_plain (callOf_nil ..) rfl⟩
  | isNewRecord => exact ⟨_, hplain (i := 7) rfl, rfl, fits_plain (callOf_nil ..) rfl⟩
  | getControl f => exact ⟨_, hplain (i := 8) rfl, rfl, fits_field f (callOf_singleton ..) rfl⟩

variable {form t : Text} {r : Rule} {m : ℕ}

theorem word_head_of_atEnd (ht : AtEnd t) : ∀ c ∈ t.head?, CharClass.word.has c = false := by
  have hends : (atomEnds.all fun l => l.head?.any fun c => !CharClass.word.has c) = true := by
    decide +kernel
  obtain ⟨l, hl, u, rfl⟩ := ht
  obtain ⟨c, hc, hword⟩ := (Option.any_eq_true _ _).1 (List.all_eq_true.1 hends l hl)
  rw [List.head?_append, hc]
  simpa using hword

theorem match_access {root : Text} (ho : r.pattern.opening = root ++ ['.'])
    (hp : r.pattern.pieces = [.field .word]) (w : Word) (ht : AtEnd t) :
    matchPieces r.pattern.steps ((root ++ '.' :: w.text) ++ t) =
      some ⟨root ++ '.' :: w.text, [w.text]⟩ := by
  have hnil : matchPieces [] t = some ⟨[], []⟩ := rfl
  have hfield := matchPieces_field_append w.ne_nil w.has (word_head_of_atEnd ht) hnil
  have h := match_opening (p := r.pattern) ho (hp ▸ hfield)
  simpa using h

theorem match_record (o : RecordName) (w : Word) (ht : AtEnd t) :
    matchPieces o.rule.pattern.steps ((o.statement w).text ++ t) =
      some ⟨(o.statement w).text, [w.text]⟩ := by
  rw [Statement.record_line]
  exact match_access o.rule_opening (by cases o <;> rfl) w ht

theorem exists_match (form : Text) (g : Getter) (ht : AtEnd t) : ∃ r fields,
    (convertingRules form)[g.index]? = some r ∧
      matchPieces r.pattern.steps (g.text ++ t) = some ⟨g.text, fields⟩ ∧
      r.fill ⟨g.text, fields⟩ = g.translation form := by
  have hbare {r : Rule} {s : CallSpace} {name sep : Text}
      (ho : r.pattern.opening = s.callText name ++ [')']) (hp : r.pattern.pieces = []) :
      Takes r.pattern.steps (Statement.callOf s name sep []) [] := by
    have h := Takes.steps ho (hp ▸ takes_nothing)
    simpa [Statement.callOf, joinWith] using h
  cases g with
  | getUser =>
    refine ⟨_, [], rfl, hbare ?_ rfl t, rfl⟩
    exact opening_bare toList_ofList toList_ofList
  | getSession =>
    refine ⟨_, [], rfl, hbare ?_ rfl t, rfl⟩
    exact opening_bare toList_ofList toList_ofList
  | getProperty f =>
    refine ⟨_, [f.text], rfl, Takes.steps ?_ (takes_property _ f) t, rfl⟩
    exact opening_call toList_ofList toList_ofList
  | current w => exact ⟨currentRule, [w.text], rfl, match_record .current w ht, rfl⟩
  | workflow w => exact ⟨workflowRule, [w.text], rfl, match_record .workflow w ht, rfl⟩
  | getValue f =>
    refine ⟨_, [f.text], rfl, CallSpace.takes_blank ?_ (takes_value _ f) t, rfl⟩
    exact opening_name toList_ofList toList_ofList
  | getTableName =>
    refine ⟨_, [], rfl, hbare ?_ rfl t, rfl⟩
    exact opening_bare toList_ofList toList_ofList
  | getUniqueValue =>
    refine ⟨_, [], rfl, hbare ?_ rfl t, rfl⟩
    exact opening_bare toList_ofList toList_ofList
  | isNewRecord =>
    refine ⟨_, [], rfl, hbare ?_ rfl t, rfl⟩
    exact opening_bare toList_ofList toList_ofList
  | getControl f =>
    refine ⟨_, [f.text], rfl, Takes.steps ?_ (takes_field _ f) t, rfl⟩
    exact opening_call toList_ofList toList_ofList

def stage (form : Text) (g : Getter) (m : ℕ) : Text :=
  Shape.stage g.index g.text (g.translation form) m

theorem carried (f : FormType) (g : Getter) :
    Shape.Carried atomEnds g.index g.text (g.translation f.identifier) := by
  obtain ⟨s, hs, hindex, hfits⟩ := g.exists_shape f.identifier
  obtain ⟨hcarried, hneat⟩ := shapes_checks f s hs
  exact ⟨s, hindex, hcarried, hneat, hfits⟩

theorem passes {f : FormType} (hr : (convertingRules f.identifier)[m]? = some r) {g : Getter}
    (hm : g.index ≠ m) (ht : AtEnd t) : r.pattern.Passes (g.stage f.identifier m) t :=
  (g.carried f).passes (getElem?_convertingPatterns hr) hm ht

theorem neat_stage (f : FormType) (g : Getter) (m : ℕ) : Neat (g.stage f.identifier m) :=
  (g.carried f).neat_stage m

theorem apply_index (hr : (convertingRules form)[m]? = some r) {g : Getter} (hm : g.index = m)
    (ht : AtEnd t) : r.apply (g.stage form m ++ t) = g.stage form (m + 1) ++ r.apply t := by
  obtain ⟨r', fields, hr', hmatch, hfill⟩ := g.exists_match form ht
  obtain rfl : r' = r := by
    rw [hm, hr] at hr'
    exact (Option.some.inj hr').symm
  have hstart := Pattern.lineStart_of_isFramed (isFramed_of_mem (pattern_mem hr))
  have happly := Rule.apply_hit (h := ⟨g.text, fields⟩) hstart hmatch
  have htext : g.stage form m = g.text := Shape.stage_of_le (Nat.le_of_eq hm.symm) _ _
  have htranslation : g.stage form (m + 1) = g.translation form :=
    Shape.stage_of_lt (Nat.lt_succ_of_le (Nat.le_of_eq hm)) _ _
  rw [htext, htranslation, ← hfill]
  exact happly

theorem apply {f : FormType} (hr : (convertingRules f.identifier)[m]? = some r) (g : Getter)
    (ht : AtEnd t) :
    r.apply (g.stage f.identifier m ++ t) = g.stage f.identifier (m + 1) ++ r.apply t := by
  by_cases hm : g.index = m
  · exact apply_index hr hm ht
  · have hstage : g.stage f.identifier (m + 1) = g.stage f.identifier m := Shape.stage_succ hm _ _
    rw [hstage]
    exact Rule.apply_of_passes (isFramed_of_mem (pattern_mem hr)) (passes hr hm ht)

end Getter

def Idle (m : ℕ) : Prop := ∀ g : Getter, g.index ≠ m

section Steps

variable {f : FormType} {m : ℕ} {r : Rule} {t : Text}
  (hr : (convertingRules f.identifier)[m]? = some r)

namespace Atom

def stage (form : Text) (m : ℕ) : Atom → Text
  | argument a => a.text
  | getter g => g.stage form m

theorem stage_succ {form : Text} (hm : Idle m) (a : Atom) :
    a.stage form (m + 1) = a.stage form m := by
  cases a with
  | argument a => rfl
  | getter g => exact Shape.stage_succ (hm g) _ _

include hr

theorem passes (hm : Idle m) (a : Atom) (ht : AtEnd t) :
    r.pattern.Passes (a.stage f.identifier m) t := by
  cases a with
  | argument a => exact passes_argument_of_mem (pattern_mem hr) a.isArgument ht
  | getter g => exact g.passes hr (hm g) ht

theorem apply (a : Atom) (ht : AtEnd t) :
    r.apply (a.stage f.identifier m ++ t) = a.stage f.identifier (m + 1) ++ r.apply t := by
  cases a with
  | argument a =>
    have hpass := passes_argument_of_mem (pattern_mem hr) a.isArgument ht
    exact Rule.apply_of_passes (isFramed_of_mem (pattern_mem hr)) hpass
  | getter g => exact g.apply hr ht

end Atom

namespace Expression

def stage (form : Text) (e : Expression) (m : ℕ) : Text := e.write (Atom.stage form m)

theorem stage_succ {form : Text} (hm : Idle m) (e : Expression) :
    e.stage form (m + 1) = e.stage form m := by
  have h : Atom.stage form (m + 1) = Atom.stage form m := funext (Atom.stage_succ hm)
  rw [stage, stage, h]

theorem stage_zero (form : Text) (e : Expression) : e.stage form 0 = e.text := by
  have h : Atom.stage form 0 = Atom.text := by
    funext a
    cases a with
    | argument a => rfl
    | getter g => exact Shape.stage_of_le (Nat.zero_le g.index) g.text (g.translation form)
  rw [stage, h, text]

theorem stage_of_lt {form : Text} (hm : ∀ g : Getter, g.index < m) (e : Expression) :
    e.stage form m = e.translation form := by
  have h : Atom.stage form m = Atom.translation form := by
    funext a
    cases a with
    | argument a => rfl
    | getter g => exact Shape.stage_of_lt (hm g) g.text (g.translation form)
  rw [stage, h, translation]

theorem neat_stage (f : FormType) (e : Expression) (m : ℕ) : Neat (e.stage f.identifier m) := by
  have hatom (a : Atom) : Neat (a.stage f.identifier m) := by
    cases a with
    | argument a => exact .of_argument a.isArgument
    | getter g => exact g.neat_stage f m
  induction e with
  | atom a => exact hatom a
  | join a o e ih =>
    have ho : '\n' ∉ o.text ∧ ';' ∉ o.text := by cases o <;> decide +kernel
    refine (hatom a).append ?_ ?_
    · exact fun h => (List.mem_append.1 h).elim ho.1 ih.line
    · exact fun h => (List.mem_append.1 h).elim ho.2 ih.semicolon

include hr

theorem passes (hm : Idle m) (e : Expression) (ht : AtEnd t) :
    r.pattern.Passes (e.stage f.identifier m) t := by
  induction e with
  | atom a => exact a.passes hr hm ht
  | join a o e ih =>
    refine (a.passes hr hm ?_).append ((passes_operator_of_mem (pattern_mem hr) o _).append ih)
    rw [List.append_assoc]
    exact atEnd_operator o _

theorem apply (e : Expression) (ht : AtEnd t) :
    r.apply (e.stage f.identifier m ++ t) = e.stage f.identifier (m + 1) ++ r.apply t := by
  induction e with
  | atom a => exact a.apply hr ht
  | join a o e ih =>
    have ho := Rule.apply_of_passes (isFramed_of_mem (pattern_mem hr))
      (passes_operator_of_mem (pattern_mem hr) o (e.stage f.identifier m ++ t))
    have hatom := a.apply hr (atEnd_operator o (e.stage f.identifier m ++ t))
    have hsplit (n : ℕ) (u : Text) : (join a o e).stage f.identifier n ++ u =
        a.stage f.identifier n ++ (o.text ++ (e.stage f.identifier n ++ u)) := by
      simp only [stage, write, List.append_assoc]
    rw [hsplit, hsplit, hatom, ho, ih]

end Expression

end Steps

end GlideBridge
