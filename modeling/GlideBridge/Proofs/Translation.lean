import GlideBridge.Proofs.ClosingLines
import GlideBridge.Proofs.Unwrapping

/-! The translation of a whole script. Every translation is a line of its own, so the closing
steps leave the translations, and the conversion of a script is the translation of its statements
line by line. -/

namespace GlideBridge

open Text Catalog OpenText

namespace Rule

def isTidy (r : Rule) : Bool :=
  (r.template.texts.all fun l => !l.contains ';' && !l.contains '\n') &&
    match r.template with
    | .text (c :: _) :: _ => !isBlank c
    | .field 0 :: _ => r.pattern.pieces.any Piece.isField
    | _ => false

theorem not_mem_line {r : Rule} {taken rest : Text} {fields : List Text} {c : Char}
    (htexts : ∀ l ∈ r.template.texts, c ∉ l) (hc : isArgumentChar c = false)
    (hf : ∀ f ∈ fields, IsArgument f) (hrest : c ∉ rest) :
    c ∉ r.fill ⟨taken, fields⟩ ++ rest := by
  have hfill : c ∉ r.fill ⟨taken, fields⟩ :=
    Template.not_mem_fill htexts fun f h => (hf f h).not_mem hc
  simp [hfill, hrest]

theorem tidy_fill {r : Rule} (hr : r.isTidy = true) {taken rest : Text} {fields : List Text}
    (hne : r.pattern.pieces.any Piece.isField = true → fields ≠ [])
    (hf : ∀ f ∈ fields, IsArgument f)
    (hrest : ∀ c ∈ rest, c ≠ ';' ∧ c ≠ '\n') : Tidy (r.fill ⟨taken, fields⟩ ++ rest) := by
  simp only [isTidy, Bool.and_eq_true, List.all_eq_true, Bool.not_eq_true', List.contains_eq_mem,
    decide_eq_false_iff_not] at hr
  obtain ⟨htexts, hhead⟩ := hr
  refine ⟨?_, ?_, ?_⟩
  · split at hhead
    · next c w access heq =>
      exact ⟨c, by simp [fill, heq], by simpa using hhead⟩
    · next access heq =>
      obtain ⟨f, fields, rfl⟩ := List.exists_cons_of_ne_nil (hne hhead)
      have hf₀ := hf f List.mem_cons_self
      obtain ⟨c, f, rfl⟩ := List.exists_cons_of_ne_nil hf₀.ne_nil
      exact ⟨c, by simp [fill, heq], hf₀.not_blank List.mem_cons_self⟩
    · cases hhead
  · exact not_mem_line (fun l hl => (htexts l hl).2) (by decide) hf fun h => (hrest _ h).2 rfl
  · exact not_mem_line (fun l hl => (htexts l hl).1) (by decide) hf fun h => (hrest _ h).1 rfl

end Rule

namespace CallSpace

theorem Converts.tidy {s : CallSpace} {rs : List Rule} {name q e l : Text}
    (hrs : ∀ r ∈ rs, r.isTidy = true) (h : s.Converts rs name q e l) : Tidy l := by
  obtain ⟨hr, -, -, htakes, -, hfields, htail, -⟩ := h
  have hrule := hrs _ (List.mem_of_getElem? hr)
  have hspells := spells_of_match (htakes [])
  refine Rule.tidy_fill hrule hspells.fields_ne_nil hfields fun c hc => ⟨(htail c hc).2.2.1, ?_⟩
  rintro rfl
  exact absurd (htail _ hc).2.2.2 (by decide)

end CallSpace

theorem plainRules_tidy : (earlyRules ++ fixedRules).all Rule.isTidy = true := by decide +kernel

theorem accessRules_tidy (f : FormType) : (accessRules f.identifier).all Rule.isTidy = true := by
  cases f <;> decide +kernel

theorem earlyRules_tidy : ∀ r ∈ earlyRules, r.isTidy = true :=
  fun r hr => List.all_eq_true.1 plainRules_tidy r (List.mem_append_left _ hr)

theorem formRules_tidy (f : FormType) : ∀ r ∈ formRules f.identifier, r.isTidy = true := by
  intro r hr
  rw [formRules_eq, List.mem_append] at hr
  rcases hr with hr | hr
  · exact List.all_eq_true.1 (accessRules_tidy f) r hr
  · exact List.all_eq_true.1 plainRules_tidy r (List.mem_append_right _ hr)

namespace Statement

theorem tidy (f : FormType) (s : Statement) : Tidy (s.translation f.identifier) := by
  have hfill {r : Rule} (hr : r ∈ [alertRule, currentRule, workflowRule, declarationRule])
      {fields : List Text}
      (hf : ∀ f ∈ fields, IsArgument f) (hne : fields ≠ []) : Tidy (r.fill ⟨[], fields⟩) := by
    have hnil : ∀ c ∈ ([] : Text), c ≠ ';' ∧ c ≠ '\n' := by simp
    have h : Tidy (r.fill ⟨[], fields⟩ ++ []) :=
      Rule.tidy_fill (earlyRules_tidy r (mem_earlyRules hr)) (fun _ => hne) hf hnil
    rwa [List.append_nil] at h
  cases s with
  | system c => exact c.converts.tidy fun r hr => earlyRules_tidy r (systemRules_subset hr)
  | alert a =>
    have ha : ∀ f ∈ [a.text], IsArgument f := by simpa using a.isArgument
    exact hfill (r := alertRule) (by simp) ha (by simp)
  | current w => exact hfill (r := currentRule) (by simp) w.forall_isArgument (by simp)
  | workflow w => exact hfill (r := workflowRule) (by simp) w.forall_isArgument (by simp)
  | declare w q =>
    have hq : IsArgument q.text := Run.isArgument (fun _ => fieldName_of_word) q.toRun
    have hfields : ∀ f ∈ [w.text, q.text], IsArgument f := by simpa using ⟨w.isArgument, hq⟩
    exact hfill (r := declarationRule) (by simp) hfields (by simp)
  | form c => exact (c.converts f.identifier).tidy (formRules_tidy f)
  | unknown c =>
    -- the call behind the mark is as it was written, on one line and without a semicolon
    have hnot {d : Char} (hd : d.isAlpha = false) (hs : d ∉ c.space.callText [])
        (hrest : d ∉ ['/', ',', ' ', ')']) (harg : isArgumentChar d = false) :
        d ∉ (unknown c).translation f.identifier := by
      have hcall := c.isCall.not_mem c.space hd hs (fun h => hrest (List.mem_cons_of_mem _ h)) harg
      intro hm
      rcases List.mem_append.1 hm with hm | hm
      · exact hrest (by simp at hm ⊢; tauto)
      · exact hcall hm
    refine ⟨⟨'/', rfl, by decide⟩, ?_, ?_⟩
    · exact hnot (by decide) (by cases c.space <;> decide) (by decide) (by decide)
    · exact hnot (by decide) (by cases c.space <;> decide) (by decide) (by decide)

end Statement

namespace Conversion

variable (f : FormType) (script : Script) (s : Statement) (ss : List Statement)

theorem documented_write : documented f.identifier (script.write (s :: ss)) =
    joinLines ((s :: ss).map (·.line f.identifier)) := by
  rw [documented, Script.unwrap_write script (List.cons_ne_nil s ss), applyAll_eq_run]
  exact Rule.run_joinLines (fun s => Statement.leads (isRoot_identifier f) s) (s :: ss)

theorem body_write : body f.identifier (script.write (s :: ss)) =
    joinLines ((s :: ss).map (·.translation f.identifier)) := by
  have hleftover := Rule.run_joinLines (Statement.leads_leftover (isRoot_identifier f)) (s :: ss)
  have hcleanup := cleanup_joinLines (Statement.tidy f) Statement.terminator_eq (s :: ss)
  have hgroup (t : Text) : leftoverGroup.apply t = Rule.run leftoverGroup.rules t := rfl
  rw [body_eq_apply, documented_write, hgroup, hleftover, cleanupGroup_apply, hcleanup]

theorem calls_write (o : CallSpace) :
    o.calls (documented f.identifier (script.write (s :: ss))) =
      (s :: ss).filterMap (·.leftover? o) := by
  rw [documented_write, CallSpace.calls_joinLines, List.flatMap_map]
  simp only [Statement.calls_line (isRoot_identifier f), List.filterMap_eq_flatMap_toList]

end Conversion

/-- A script of documented statements and of calls that are left over becomes the handler with
their translations, line by line, and the calls left over are listed, form calls first. -/
theorem convert_write (f : FormType) (event unit : Text) (script : Script) (s : Statement)
    (ss : List Statement) :
    Conversion.body f.identifier (script.write (s :: ss)) =
        joinLines ((s :: ss).map (·.translation f.identifier)) ∧
      convert { form := f.identifier, event := event, unit := unit } (script.write (s :: ss)) =
        { output := joinLines (Handler.heading (EventType.handlerNameFor event) ::
            ((s :: ss).map (fun s => unit ++ s.translation f.identifier) ++ [['}']]))
          functionName := EventType.handlerNameFor event
          form := f.identifier
          event := event
          leftovers := (s :: ss).filterMap (·.leftover? .form) ++
            (s :: ss).filterMap (·.leftover? .system) } := by
  have hbody := Conversion.body_write f script s ss
  refine ⟨hbody, ?_⟩
  have hlines : ∀ l ∈ (s :: ss).map (·.translation f.identifier), '\n' ∉ l := by
    intro l hl
    obtain ⟨s, -, rfl⟩ := List.mem_map.1 hl
    exact (s.tidy f).line
  have hindent := indent_joinLines unit (by simp) hlines
  rw [List.map_map, ← hbody] at hindent
  have houtput := congrArg (Handler.wrap (EventType.handlerNameFor event)) hindent
  rw [Handler.wrap_joinLines _ (by simp)] at houtput
  have hleftovers := CallSpace.leftoverCalls_eq (Conversion.documented f.identifier
    (script.write (s :: ss)))
  rw [Conversion.calls_write, Conversion.calls_write] at hleftovers
  rw [convert, houtput, hleftovers]
  rfl

end GlideBridge
