import GlideBridge.Proofs.CallRules
import GlideBridge.Proofs.FormContext

/-! What the documented rules make of the line of a statement. The rule for the statement turns it
into its translation, and no other rule begins to work on the line, neither before nor behind it. -/

namespace GlideBridge

open Text Catalog

namespace Text

def Spaced (t : Text) : Prop := ∀ a c b, t = a ++ c :: b → isBlank c = true → [','] <:+ a

theorem Spaced.append {t u : Text} (ht : Spaced t) (hu : Spaced u) : Spaced (t ++ u) := by
  intro a c b h hc
  rcases List.append_eq_append_iff.1 h with ⟨y, rfl, hy⟩ | ⟨y, rfl, hy⟩
  · exact (hu y c b hy hc).trans (List.suffix_append t y)
  · cases y with
    | nil => exact absurd (List.suffix_nil.1 (hu [] c b hy.symm hc)) (by simp)
    | cons d y =>
      obtain ⟨rfl, rfl⟩ := List.cons.inj hy
      exact ht a c y rfl hc

theorem spaced_of_not_blank {t : Text} (ht : ∀ c ∈ t, isBlank c = false) : Spaced t := by
  rintro a c b rfl hc
  rw [ht c (by simp)] at hc
  cases hc

theorem spaced_separator : Spaced [',', ' '] := by
  intro a c b h hc
  rcases a with _ | ⟨x, _ | ⟨y, a⟩⟩
  · obtain rfl : ',' = c := (List.cons.inj h).1
    exact absurd hc (by decide)
  · obtain rfl : ',' = x := (List.cons.inj h).1
    exact List.suffix_rfl
  · simp at h

theorem Spaced.declarationless {t : Text} (ht : Spaced t) : Declarationless t := by
  intro a c b h hc hw
  obtain ⟨x, rfl⟩ := ht a c b h hc
  obtain ⟨y, hy⟩ := hw
  have hlast := congrArg List.getLast? hy
  simp [declarationWord] at hlast

theorem joinWith_cons_cons (sep a b : Text) (ts : List Text) :
    joinWith sep (a :: b :: ts) = a ++ (sep ++ joinWith sep (b :: ts)) := by
  cases ts <;> simp [joinWith]

theorem joinWith_induction {P : Text → Prop} {sep : Text} (hnil : P []) (hsep : P sep)
    (happend : ∀ t u, P t → P u → P (t ++ u)) {ts : List Text} (hts : ∀ t ∈ ts, P t) :
    P (joinWith sep ts) := by
  induction ts with
  | nil => exact hnil
  | cons a ts ih =>
    rw [List.forall_mem_cons] at hts
    cases ts with
    | nil => simpa [joinWith] using hts.1
    | cons b ts =>
      rw [joinWith_cons_cons]
      exact happend _ _ hts.1 (happend _ _ hsep (ih hts.2))

end Text

structure IsCall (name sep : Text) (args : List Text) : Prop where
  isName : CallSpace.IsName name
  not_alert : ¬ alertWord <:+ name
  isSeparator : sep = [','] ∨ sep = [',', ' ']
  isArgument : ∀ a ∈ args, IsArgument a

namespace IsCall

variable {name sep : Text} {args : List Text} (h : IsCall name sep args) (s : CallSpace)

theorem line_eq (s : CallSpace) (name sep : Text) (args : List Text) :
    Statement.callOf s name sep args ++ [';'] =
      s.callText name ++ ((joinWith sep args ++ [')']) ++ [';']) := by
  rw [Statement.callOf, List.append_assoc]

include h

theorem not_mem_arguments {c : Char} (hc : c ∉ [',', ' ', ')']) (harg : isArgumentChar c = false) :
    c ∉ joinWith sep args ++ [')'] := by
  have hsep : c ∉ sep := by
    rcases h.isSeparator with rfl | rfl
    · exact fun hm => hc (by simp at hm; simp [hm])
    · exact fun hm => hc (by simp at hm; simp; tauto)
  have hjoin : c ∉ joinWith sep args := by
    refine joinWith_induction (P := fun t => c ∉ t) (by simp) hsep ?_ fun a ha =>
      (h.isArgument a ha).not_mem harg
    intro t u ht hu hm
    exact (List.mem_append.1 hm).elim ht hu
  have hclose : c ≠ ')' := fun he => hc (by simp [he])
  simp [hjoin, hclose]

theorem not_mem_rest {c : Char} (hc : c ∉ [',', ' ', ')', ';']) (harg : isArgumentChar c = false) :
    c ∉ (joinWith sep args ++ [')']) ++ [';'] := by
  have hargs := h.not_mem_arguments (c := c) (fun hm => hc (by simp at hm ⊢; tauto)) harg
  have hsemi : c ∉ [';'] := fun hm => hc (by simp at hm ⊢; tauto)
  exact fun hm => (List.mem_append.1 hm).elim hargs hsemi

theorem not_mem {c : Char} (hc : c.isAlpha = false) (hs : c ∉ s.callText [])
    (hrest : c ∉ [',', ' ', ')']) (harg : isArgumentChar c = false) :
    c ∉ Statement.callOf s name sep args := by
  have hname := CallSpace.not_mem_callText (s := s) h.isName hc hs
  exact fun hm => (List.mem_append.1 hm).elim hname (h.not_mem_arguments hrest harg)

theorem suffix_of_isInfix {o : Text}
    (ho : o ++ ['.'] <:+: Statement.callOf s name sep args ++ [';']) : o <:+ s.root := by
  rw [line_eq] at ho
  exact CallSpace.suffix_of_isInfix h.isName (h.not_mem_rest (by decide) (by decide)) ho

theorem alertless : Alertless (Statement.callOf s name sep args ++ [';']) := by
  rw [line_eq]
  exact CallSpace.alertless_callText h.isName h.not_alert
    (h.not_mem_rest (by decide) (by decide))

theorem declarationless : Declarationless (Statement.callOf s name sep args ++ [';']) := by
  rw [line_eq]
  have hcall : Spaced (s.callText name) := by
    refine spaced_of_not_blank fun c hc => ?_
    rw [CallSpace.callText, List.mem_append, List.mem_append] at hc
    rcases hc with hc | hc | hc
    · cases s <;> exact (by decide : ∀ c ∈ CallSpace.opening _, isBlank c = false) c hc
    · exact CallSpace.isBlank_of_mem_name h.isName hc
    · obtain rfl := List.mem_singleton.1 hc
      decide
  have hjoin : Spaced (joinWith sep args) := by
    refine joinWith_induction (spaced_of_not_blank (by simp)) ?_ (fun t u => Spaced.append)
      fun a ha => spaced_of_not_blank fun c => (h.isArgument a ha).not_blank
    rcases h.isSeparator with rfl | rfl
    · exact spaced_of_not_blank (by decide)
    · exact spaced_separator
  have hend : Spaced [')', ';'] := spaced_of_not_blank (by decide)
  have hline := (hcall.append (hjoin.append hend)).declarationless
  simpa using hline

theorem not_infix_of_ne {s' : CallSpace} (hs : s' ≠ s) :
    ¬ s'.opening <:+: Statement.callOf s name sep args ++ [';'] := by
  rw [CallSpace.opening_eq_root]
  intro ho
  have hroot := h.suffix_of_isInfix s ho
  cases s <;> cases s' <;> first | exact hs rfl | exact absurd hroot (by decide)

end IsCall

theorem ended_semicolon (t : Text) : Ended (t ++ [';']) := Ended.append ⟨';', rfl, Or.inl rfl⟩ t

theorem isCall_of_catalog {s : CallSpace} {name sep : Text} {args : List Text}
    (hname : name ∈ s.catalogNames.flatten) (hsep : sep = [','] ∨ sep = [',', ' '])
    (hargs : ∀ a ∈ args, IsArgument a) : IsCall name sep args := by
  obtain ⟨hn, halert⟩ := s.catalogNames_wellFormed.2 name hname
  exact ⟨hn, halert, hsep, hargs⟩

theorem SystemCall.isCall (c : SystemCall) : IsCall c.name [',', ' '] c.arguments := by
  refine isCall_of_catalog c.converts.name_mem (Or.inr rfl) ?_
  cases c <;> simp [arguments, Argument.isArgument, Field.isArgument]

theorem FormCall.isCall (c : FormCall) : IsCall c.name c.separator c.arguments := by
  refine isCall_of_catalog (c.converts []).name_mem ?_ ?_
  · cases c <;> simp [separator]
  · cases c <;> simp [arguments, Argument.isArgument, Field.isArgument]

theorem UnknownCall.isCall (c : UnknownCall) : IsCall c.name [',', ' '] [c.argument.text] :=
  ⟨c.isName, c.not_alert, Or.inr rfl, by simpa using c.argument.isArgument⟩

namespace Catalog

theorem documented_eq (form : Text) : (documented form).flatMap (·.rules) =
    systemRules ++
      ([alertRule, currentRule, workflowRule, declarationRule] ++ formRules form) := rfl

theorem leads_documented {form l₀ l₁ l₂ l₃ l₄ l₅ l₆ : Text} (hsystem : Rule.Leads systemRules l₀ l₁)
    (halert : alertRule.Sends l₁ l₂) (hcurrent : currentRule.Sends l₂ l₃)
    (hworkflow : workflowRule.Sends l₃ l₄) (hdeclaration : declarationRule.Sends l₄ l₅)
    (hform : Rule.Leads (formRules form) l₅ l₆) :
    Rule.Leads ((documented form).flatMap (·.rules)) l₀ l₆ := by
  rw [documented_eq]
  refine hsystem.append (Rule.Leads.append ?_ hform)
  exact .cons alertRule_inline halert <| .cons (RecordName.rule_inline .current) hcurrent <|
    .cons (RecordName.rule_inline .workflow) hworkflow <|
      .cons declarationRule_inline hdeclaration .nil

/-- What the template writes behind the accessor. -/
def behindDot : Template → Template
  | .text ('.' :: w) :: access => .text w :: access
  | access => access

theorem earlyRules_eq :
    earlyRules = systemRules ++ [alertRule, currentRule, workflowRule, declarationRule] := rfl

theorem mem_earlyRules {r : Rule}
    (hr : r ∈ [alertRule, currentRule, workflowRule, declarationRule]) :
    r ∈ earlyRules := by
  rw [earlyRules_eq]
  exact List.mem_append_right systemRules hr

theorem systemRules_subset : systemRules ⊆ earlyRules := by
  rw [earlyRules_eq]
  exact List.subset_append_left _ _

def documentedTemplates : List Template :=
  (earlyRules ++ fixedRules).map (·.template) ++ OpenText.accesses.map fun a => behindDot a.2

theorem documentedTemplates_calm : documentedTemplates.all Template.isCalm = true := by
  decide +kernel

theorem isCalm_of_mem_rules {r : Rule} (hr : r ∈ earlyRules ++ fixedRules) :
    Template.isCalm r.template = true :=
  List.all_eq_true.1 documentedTemplates_calm _ (List.mem_append_left _ (List.mem_map_of_mem hr))

theorem isCalm_of_mem_accesses {a : Pattern × Template} (ha : a ∈ OpenText.accesses) :
    Template.isCalm (behindDot a.2) = true :=
  List.all_eq_true.1 documentedTemplates_calm _
    (List.mem_append_right _ (List.mem_map.2 ⟨a, ha, rfl⟩))

theorem formRules_eq (form : Text) : formRules form = accessRules form ++ fixedRules := rfl

end Catalog

theorem IsArgument.dot_not_mem {fields : List Text} (h : ∀ f ∈ fields, IsArgument f) :
    ∀ f ∈ fields, '.' ∉ f := fun f hf => (h f hf).not_mem (by decide)

theorem Text.Rootless.not_isInfix {t : Text} (h : Rootless t) (s : CallSpace) :
    ¬ s.opening <:+: t := by
  rw [CallSpace.opening_eq_root]
  exact h s.root (by cases s <;> decide)

theorem CallSpace.Converts.calm {s : CallSpace} {rs : List Rule} {name q e l : Text}
    (hrs : ∀ r ∈ rs, Template.isCalm r.template = true) (h : s.Converts rs name q e l) :
    Rootless (l ++ e) ∧ Alertless (l ++ e) ∧ Declarationless (l ++ e) := by
  obtain ⟨hr, -, -, -, -, hfields, htail, hend⟩ := h
  have hrest := htail.not_mem hend
  have hcalm := hrs _ (List.mem_of_getElem? hr)
  have hroot := Template.rootless_fill hcalm (IsArgument.dot_not_mem hfields)
  have halert := Template.alertless_fill hcalm fun f hf => (hfields f hf).not_mem (by decide)
  have hdecl := Template.declarationless_fill hcalm fun f hf c => (hfields f hf).not_blank
  rw [List.append_assoc]
  exact ⟨hroot.append fun hm => (hrest _ hm).1 rfl, halert.append fun hm => (hrest _ hm).2.1 rfl,
    hdecl.append fun c hc => (hrest c hc).2.2⟩

namespace OpenText

variable {form : Text}

theorem not_suffix_root (hf : IsRoot form) (s : CallSpace) : ¬ s.root <:+ form := by
  cases s
  · exact hf.not_form
  · exact hf.not_system

theorem not_infix_accessor (hf : IsRoot form) {s : CallSpace} {t : Text}
    (ht : ¬ s.opening <:+: t) : ¬ s.opening <:+: accessor form ++ t := by
  rintro ⟨a, b, hab⟩
  rw [List.append_assoc] at hab
  rcases List.append_eq_append_iff.1 hab with ⟨y, hy, hrest⟩ | ⟨y, rfl, hrest⟩
  · cases y with
    | nil => exact ht ⟨[], b, by simpa using hrest⟩
    | cons c y =>
      have hpre : s.root ++ ['.'] <+: (c :: y) ++ t :=
        ⟨b, by rw [← CallSpace.opening_eq_root, hrest]⟩
      refine not_prefix_of_suffix ?_ ?_ hf (not_suffix_root hf s) ⟨a, hy.symm⟩ (by simp) hpre
      · cases s <;> decide
      · cases s <;> rfl
  · exact ht ⟨y, b, by rw [List.append_assoc, ← hrest]⟩

theorem fill_accessRule (p : Pattern) (w : Text) (access : Template) (form : Text) (h : Hit) :
    (accessRule p (.text ('.' :: w) :: access) form).fill h =
      accessor form ++ (TemplatePart.text w :: access).flatMap (·.fill h.fields) := by
  have hroot : "ele.".toList = ['e', 'l', 'e', '.'] := String.toList_ofList
  simp only [Rule.fill, accessRule, formAccess, List.flatMap_cons, TemplatePart.fill_text, hroot,
    accessor, List.append_assoc, List.cons_append, List.nil_append]

end OpenText

open OpenText

theorem FormCall.not_isInfix {form : Text} (hf : IsRoot form) (c : FormCall) (s : CallSpace) :
    ¬ s.opening <:+: c.translation form ++ [';'] := by
  have h := c.converts form
  generalize c.translation form = l at h ⊢
  obtain ⟨hr, -, -, -, -, hfields, htail, hend⟩ := h
  have hdot := IsArgument.dot_not_mem hfields
  have hrest {t : Text} (ht : Rootless t) := ht.append fun hm => (htail.not_mem hend _ hm).1 rfl
  have hmem := List.mem_of_getElem? hr
  rw [formRules_eq, List.mem_append] at hmem
  rw [List.append_assoc]
  rcases hmem with hmem | hmem
  · rw [accessRules_eq] at hmem
    obtain ⟨⟨p, access⟩, ha, rfl⟩ := List.mem_map.1 hmem
    have hopen := List.all_eq_true.1 accesses_openWithDot _ ha
    have hcalm := isCalm_of_mem_accesses ha
    unfold opensWithDot at hopen
    split at hopen
    · next w rest heq =>
      obtain rfl : access = .text ('.' :: w) :: rest := heq
      rw [fill_accessRule, List.append_assoc]
      exact not_infix_accessor hf ((hrest (Template.rootless_fill hcalm hdot)).not_isInfix s)
    · cases hopen
  · have hcalm := isCalm_of_mem_rules (List.mem_append_right _ hmem)
    exact (hrest (Template.rootless_fill hcalm hdot)).not_isInfix s

/-- No documented rule begins to work on the line. -/
structure Inert (l : Text) : Prop where
  rootless : Rootless l
  alertless : Alertless l
  declarationless : Declarationless l
  ended : Ended l

namespace Inert

variable {l : Text} (h : Inert l)

include h

theorem alert : alertRule.Sends l l := alertRule_sends h.alertless h.ended

theorem record (o : RecordName) : o.rule.Sends l l :=
  o.rule_sends (h.rootless o.word (by cases o <;> decide))

theorem declaration : declarationRule.Sends l l := declarationRule_sends h.declarationless h.ended

theorem form (form : Text) : Rule.Leads (formRules form) l l :=
  CallSpace.leads_of_not_isInfix (CallSpace.formRules_answer form) (h.rootless.not_isInfix .form)

end Inert

theorem inert_fill {r : Rule} (hr : r ∈ earlyRules) {fields : List Text}
    (hf : ∀ f ∈ fields, IsArgument f) : Inert (r.fill ⟨[], fields⟩ ++ [';']) := by
  have hr := isCalm_of_mem_rules (List.mem_append_left _ hr)
  have hroot := Template.rootless_fill hr (IsArgument.dot_not_mem hf)
  have halert := Template.alertless_fill hr fun f h => (hf f h).not_mem (by decide)
  have hdecl := Template.declarationless_fill hr fun f h c => (hf f h).not_blank
  exact ⟨hroot.append (by decide), halert.append (by decide), hdecl.append (by decide),
    ended_semicolon _⟩

theorem SystemCall.inert (c : SystemCall) : Inert (c.translation ++ c.terminator) := by
  obtain ⟨hroot, halert, hdecl⟩ := c.converts.calm fun r hr =>
    isCalm_of_mem_rules (List.mem_append_left _ (systemRules_subset hr))
  refine ⟨hroot, halert, hdecl, ?_⟩
  cases c with
  | notify kind a =>
    have hend (x : Text) : Ended (List.flatten [x, a.text, [')']] ++ []) :=
      ⟨')', by simp, Or.inr rfl⟩
    cases kind <;> exact hend _
  | _ => exact ended_semicolon _

namespace Statement

def terminator : Statement → Text
  | .system c => c.terminator
  | .declare .. => []
  | _ => [';']

def line (form : Text) : Statement → Text
  | .unknown c => (unknown c).text ++ [';']
  | s => s.translation form ++ s.terminator

variable {form : Text}

theorem leads_system (form : Text) (c : SystemCall) :
    Rule.Leads ((documented form).flatMap (·.rules)) ((system c).text ++ [';'])
      ((system c).line form) := by
  have hline : (system c).text ++ [';'] = CallSpace.system.callText c.name ++
      ((joinWith [',', ' '] c.arguments ++ [')']) ++ [';']) := IsCall.line_eq ..
  have hi := c.inert
  have hconv : Rule.Leads systemRules ((system c).text ++ [';'])
      (c.translation ++ c.terminator) := by
    rw [hline]
    exact c.converts.leads CallSpace.systemRules_answer
      (c.isCall.not_mem_rest (by decide) (by decide)) (hi.rootless.not_isInfix .system)
  exact leads_documented hconv hi.alert (hi.record .current) (hi.record .workflow)
    hi.declaration (hi.form form)

theorem leads_call {s : CallSpace} {name sep l : Text} {args : List Text}
    (h : IsCall name sep args)
    (hsystem : Rule.Leads systemRules (callOf s name sep args ++ [';'])
      (callOf s name sep args ++ [';']))
    (hform : Rule.Leads (formRules form) (callOf s name sep args ++ [';']) l) :
    Rule.Leads ((documented form).flatMap (·.rules)) (callOf s name sep args ++ [';']) l := by
  have hroot {o : Text} (ho : ¬ o <:+ s.root) :
      ¬ o ++ ['.'] <:+: callOf s name sep args ++ [';'] :=
    fun hi => ho (h.suffix_of_isInfix s hi)
  have hrecord (o : RecordName) :
      o.rule.Sends (callOf s name sep args ++ [';']) (callOf s name sep args ++ [';']) :=
    o.rule_sends (hroot (by cases s <;> cases o <;> decide))
  exact leads_documented hsystem (alertRule_sends (h.alertless s) (ended_semicolon _))
    (hrecord .current) (hrecord .workflow)
    (declarationRule_sends (h.declarationless s) (ended_semicolon _)) hform

theorem leads_form (hf : IsRoot form) (c : FormCall) :
    Rule.Leads ((documented form).flatMap (·.rules)) ((Statement.form c).text ++ [';'])
      ((Statement.form c).line form) := by
  have hcall := c.isCall
  have hsystem := CallSpace.leads_of_not_isInfix CallSpace.systemRules_answer
    (hcall.not_infix_of_ne .form (show CallSpace.system ≠ .form by decide))
  have hconv := (c.converts form).leads (CallSpace.formRules_answer form)
    (hcall.not_mem_rest (by decide) (by decide)) (c.not_isInfix hf .form)
  rw [← IsCall.line_eq] at hconv
  exact leads_call hcall hsystem hconv

theorem leads_unknown (form : Text) (c : UnknownCall) :
    Rule.Leads ((documented form).flatMap (·.rules)) ((unknown c).text ++ [';'])
      ((unknown c).line form) := by
  have hcall := c.isCall
  -- The rules for the namespace of the call do not know its name, the others are not addressed.
  have hstay (s : CallSpace) {rs : List Rule} (hrs : List.Forall₂ s.Answers rs s.catalogNames) :
      Rule.Leads rs (callOf c.space c.name [',', ' '] [c.argument.text] ++ [';'])
        (callOf c.space c.name [',', ' '] [c.argument.text] ++ [';']) := by
    by_cases hs : s = c.space
    · subst hs
      rw [IsCall.line_eq]
      refine CallSpace.leads_of_unknown hrs c.isName (hcall.not_mem_rest (by decide) (by decide)) ?_
      exact fun names hnames hm => c.unknown (List.mem_flatten.2 ⟨names, hnames, hm⟩)
    · exact CallSpace.leads_of_not_isInfix hrs (hcall.not_infix_of_ne c.space hs)
  exact leads_call hcall (hstay .system CallSpace.systemRules_answer)
    (hstay .form (CallSpace.formRules_answer form))

end Statement

end GlideBridge
