import GlideBridge.Proofs.StatementLines

/-! Alerts, fields of records and record declarations. Each of these lines is taken by the one
rule that is made for it, and with the lines of calls every statement comes out of the documented
rules as its translation. -/

namespace GlideBridge

open Text Catalog OpenText

theorem Word.isArgument (w : Word) : IsArgument w.text :=
  Run.isArgument (fun _ => fieldName_of_word) w

theorem Word.forall_isArgument (w : Word) : ∀ f ∈ [w.text], IsArgument f := by
  simpa using w.isArgument

def RecordName.statement : RecordName → Word → Statement
  | current => .current
  | workflow => .workflow

namespace Text

theorem alertless_of_single {x y : Text} {d : Char} (hx : '(' ∉ x) (hy : '(' ∉ y)
    (hlast : x.getLast? = some d) (hblank : isBlank d = false) (hd : d ≠ 't') :
    Alertless (x ++ '(' :: y) := by
  intro a b hab
  obtain rfl := ((List.append_cons_inj_of_notMem hx hy).1 hab).1
  refine ⟨⟨d, hlast, hblank⟩, ?_⟩
  rintro ⟨z, rfl⟩
  have ht : 't' = d := by simpa [alertWord] using hlast
  exact hd ht.symm

end Text

namespace Statement

variable {form : Text}

theorem leads_systemRules {l : Text} (hl : '.' ∉ l) : Rule.Leads systemRules l l :=
  CallSpace.leads_of_not_isInfix CallSpace.systemRules_answer
    ((rootless_of_dot_not_mem hl).not_isInfix .system)

theorem alert_line (a : Argument) :
    (alert a).text ++ [';'] = (alertWord ++ '(' :: (a.text ++ [')'])) ++ [';'] := by
  have ho : ("alert(" : Text) = alertWord ++ ['('] := String.toList_ofList
  have hc : (")" : Text) = [')'] := String.toList_ofList
  have hline : (alert a).text = ("alert(" ++ a.text ++ ")" : Text) := rfl
  rw [hline, ho, hc]
  simp

theorem inert_alert (form : Text) (a : Argument) : Inert ((alert a).line form) := by
  have hfields : ∀ f ∈ [a.text], IsArgument f := by simpa using a.isArgument
  have hline : (alert a).line form = alertRule.fill ⟨[], [a.text]⟩ ++ [';'] := rfl
  exact hline ▸ inert_fill (mem_earlyRules (by simp)) hfields

theorem leads_alert (form : Text) (a : Argument) :
    Rule.Leads ((documented form).flatMap (·.rules)) ((alert a).text ++ [';'])
      ((alert a).line form) := by
  have htakes := Takes.steps (p := alertRule.pattern) alertRule_opening (takes_alert a.isArgument)
  have hend : alertRule.Sends [';'] [';'] :=
    alertRule_sends (alertless_of_open_not_mem (by decide)) (ended_semicolon [])
  have halert := Rule.sends_hit alertRule_inline (fun t _ => htakes _) hend
  have hdot : '.' ∉ (alertWord ++ '(' :: (a.text ++ [')'])) ++ [';'] := by
    simp [alertWord, a.isArgument.not_mem (c := '.') (by decide)]
  have hi := inert_alert form a
  rw [alert_line]
  exact leads_documented (leads_systemRules hdot) halert (hi.record .current) (hi.record .workflow)
    hi.declaration (hi.form form)

section Access

variable {o o' : Text} {r : Rule} (w : Word)

theorem sends_access (hr : r.isInline = true) (ho : r.pattern.opening = o ++ ['.'])
    (hp : r.pattern.pieces = [.field .word]) (hline : '\n' ∉ o) :
    r.Sends ((o ++ '.' :: w.text) ++ [';']) (r.fill ⟨o ++ '.' :: w.text, [w.text]⟩ ++ [';']) := by
  refine Rule.sends_hit hr (fun t _ => ?_) ?_
  · have hfield : matchPieces [.field .word] (w.text ++ ';' :: t) = some ⟨w.text, [w.text]⟩ := by
      have hnil : matchPieces [] (';' :: t) = some ⟨[], []⟩ := rfl
      have h := matchPieces_field_append w.ne_nil w.has (has_head_cons (by decide) t) hnil
      simpa [Hit.capture] using h
    have h := matchPieces_literal_some r.pattern.opening (hp ▸ hfield)
    rw [ho] at h
    simpa [Pattern.steps, ho, Hit.after] using h
  · refine Rule.sends_of_not_isInfix hr ⟨[], by rw [ho, List.append_nil]⟩ ?_ fun h => ?_
    · simpa using hline
    · have hdot : '.' ∈ [';'] := h.subset (by simp)
      exact absurd hdot (by decide)

theorem access_not_isInfix (ho : '.' ∉ o) (hs : ¬ o' <:+ o) :
    ¬ o' ++ ['.'] <:+: (o ++ '.' :: w.text) ++ [';'] := by
  intro h
  have hdot : '.' ∉ w.text ++ [';'] := by simp [w.isArgument.not_mem (c := '.') (by decide)]
  rw [List.append_assoc, List.cons_append] at h
  exact hs (suffix_of_infix_dot ho hdot h)

theorem access_alertless (ho : '(' ∉ o) : Alertless ((o ++ '.' :: w.text) ++ [';']) := by
  refine alertless_of_open_not_mem ?_
  simp [ho, w.isArgument.not_mem (c := '(') (by decide)]

end Access

theorem record_line (o : RecordName) (w : Word) :
    (o.statement w).text = o.word ++ '.' :: w.text := by
  have hwritten {name : Text} (h : name = o.word ++ ['.']) :
      name ++ w.text = o.word ++ '.' :: w.text := by simp [h]
  cases o <;> exact hwritten String.toList_ofList

theorem inert_record (form : Text) (o : RecordName) (w : Word) :
    Inert ((o.statement w).line form) := by
  have hline : (o.statement w).line form = o.rule.fill ⟨[], [w.text]⟩ ++ [';'] := by cases o <;> rfl
  have hrule : o.rule ∈ earlyRules := mem_earlyRules (by cases o <;> simp [RecordName.rule])
  exact hline ▸ inert_fill hrule w.forall_isArgument

theorem leads_record (form : Text) (o : RecordName) (w : Word) :
    Rule.Leads ((documented form).flatMap (·.rules)) ((o.statement w).text ++ [';'])
      ((o.statement w).line form) := by
  have hdot : '.' ∉ o.word := by cases o <;> decide
  have hsystem := CallSpace.leads_of_not_isInfix CallSpace.systemRules_answer
    (access_not_isInfix w hdot (by cases o <;> decide : ¬ ['g', 's'] <:+ o.word))
  have halert := alertRule_sends (access_alertless w (by cases o <;> decide : '(' ∉ o.word))
    (ended_semicolon _)
  have hsend : o.rule.Sends ((o.word ++ '.' :: w.text) ++ [';']) ((o.statement w).line form) := by
    have h := sends_access w o.rule_inline o.rule_opening (by cases o <;> rfl)
      (by cases o <;> decide)
    cases o <;> exact h
  have hi := inert_record form o w
  rw [record_line]
  cases o with
  | current =>
    exact leads_documented hsystem halert hsend (hi.record .workflow) hi.declaration (hi.form form)
  | workflow =>
    have hcurrent := RecordName.rule_sends .current
      (access_not_isInfix w hdot (by decide : ¬ currentWord <:+ workflowWord))
    exact leads_documented hsystem halert hcurrent hsend hi.declaration (hi.form form)

theorem declare_line (w : Word) (q : Quoted .word) :
    (declare w q).text ++ [';'] = declarationWord ++ declarationRest w q := by
  have hvar : ("var " : Text) = declarationWord ++ [' '] := String.toList_ofList
  have hnew : (" = new GlideRecord(" : Text) =
      ' ' :: '=' :: ' ' :: 'n' :: 'e' :: 'w' :: ' ' :: (recordWord ++ ['(']) :=
    String.toList_ofList
  have hc : (")" : Text) = [')'] := String.toList_ofList
  have hline : (declare w q).text =
      ("var " ++ w.text ++ " = new GlideRecord(" ++ q.written ++ ")" : Text) := rfl
  rw [hline, hvar, hnew, hc, declarationRest]
  simp

theorem declare_alertless (w : Word) (q : Quoted .word) :
    Alertless (declarationWord ++ declarationRest w q) := by
  have hq := Quoted.isArgument (fun _ => fieldName_of_word) q
  have hsplit : declarationWord ++ declarationRest w q = (declarationWord ++ ' ' :: (w.text ++
      (' ' :: '=' :: ' ' :: 'n' :: 'e' :: 'w' :: ' ' :: recordWord))) ++
        '(' :: (q.written ++ [')', ';']) := by
    rw [declarationRest]
    simp
  rw [hsplit]
  refine alertless_of_single (d := 'd') ?_ ?_ ?_ (by decide) (by decide)
  · simp [declarationWord, recordWord, w.isArgument.not_mem (c := '(') (by decide)]
  · simp [hq.not_mem (c := '(') (by decide)]
  · simp [recordWord, List.getLast?_append, List.getLast?_cons]

theorem dot_not_mem_declare (w : Word) (q : Quoted .word) :
    '.' ∉ declarationWord ++ declarationRest w q := by
  have hq := Quoted.isArgument (fun _ => fieldName_of_word) q
  simp [declarationWord, declarationRest, recordWord, w.isArgument.not_mem (c := '.') (by decide),
    hq.not_mem (c := '.') (by decide)]

theorem rootless_declare (form : Text) (w : Word) (q : Quoted .word) :
    Rootless ((declare w q).line form) := by
  have hq : IsArgument q.text := Run.isArgument (fun _ => fieldName_of_word) q.toRun
  have hcalm := isCalm_of_mem_rules (r := declarationRule)
    (List.mem_append_left _ (mem_earlyRules (by simp)))
  have hline : (declare w q).line form = declarationRule.fill ⟨[], [w.text, q.text]⟩ ++ [] := rfl
  rw [hline, List.append_nil]
  exact Template.rootless_fill hcalm (IsArgument.dot_not_mem (by simpa using ⟨w.isArgument, hq⟩))

theorem leads_declare (form : Text) (w : Word) (q : Quoted .word) :
    Rule.Leads ((documented form).flatMap (·.rules)) ((declare w q).text ++ [';'])
      ((declare w q).line form) := by
  have hdot := dot_not_mem_declare w q
  have hroot := rootless_of_dot_not_mem hdot
  have htakes := Takes.steps (p := declarationRule.pattern) declarationRule_opening
    (takes_declaration w q)
  have hnil : declarationRule.Sends [] [] := fun _ _ => rfl
  have hsend := Rule.sends_hit declarationRule_inline (fun t _ => htakes _) hnil
  rw [List.append_nil] at hsend
  have hend : Ended (declarationWord ++ declarationRest w q) := by
    refine Ended.append ⟨';', ?_, Or.inl rfl⟩ declarationWord
    simp [declarationRest, List.getLast?_append, List.getLast?_cons]
  have hform := CallSpace.leads_of_not_isInfix (CallSpace.formRules_answer form)
    ((rootless_declare form w q).not_isInfix .form)
  rw [declare_line]
  exact leads_documented (leads_systemRules hdot) (alertRule_sends (declare_alertless w q) hend)
    (RecordName.rule_sends .current (hroot currentWord (by decide)))
    (RecordName.rule_sends .workflow (hroot workflowWord (by decide))) hsend hform

theorem not_infix_line (hf : IsRoot form) {s : Statement} (h : ∀ c, s ≠ unknown c)
    (o : CallSpace) : ¬ o.opening <:+: s.line form := by
  cases s with
  | system c => exact c.inert.rootless.not_isInfix o
  | alert a => exact (inert_alert form a).rootless.not_isInfix o
  | current w => exact (inert_record form .current w).rootless.not_isInfix o
  | workflow w => exact (inert_record form .workflow w).rootless.not_isInfix o
  | declare w q => exact (rootless_declare form w q).not_isInfix o
  | form c => exact c.not_isInfix hf o
  | unknown c => exact absurd rfl (h c)

theorem leads (hf : IsRoot form) (s : Statement) :
    Rule.Leads ((documented form).flatMap (·.rules)) (s.text ++ [';']) (s.line form) := by
  cases s with
  | system c => exact leads_system form c
  | alert a => exact leads_alert form a
  | current w => exact leads_record form .current w
  | workflow w => exact leads_record form .workflow w
  | declare w q => exact leads_declare form w q
  | form c => exact leads_form hf c
  | unknown c => exact leads_unknown form c

end Statement

end GlideBridge
