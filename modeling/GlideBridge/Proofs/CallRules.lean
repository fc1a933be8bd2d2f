import GlideBridge.Proofs.Reading

/-! The rules for the calls of the two namespaces. Each call of the language has one rule that
answers it, and the rule makes of its line what the documentation says, so the whole list of rules
leads the line there. -/

namespace GlideBridge

open Text Catalog
open String (toList_ofList)

namespace CallSpace

/-- No name and no statement ends in the text, and no rule begins in it. -/
def IsTail (t : Text) : Prop := ∀ c ∈ t, c ≠ '.' ∧ c ≠ '(' ∧ c ≠ ';' ∧ isBlank c = false

def IsEnd (e : Text) : Prop := e = [] ∨ e = [';']

/-- One of the rules takes the call, and writes the text in front of the end of the line. -/
inductive Converts (s : CallSpace) (rs : List Rule) (name q e : Text) : Text → Prop
  | intro {i : ℕ} {r : Rule} {names : List Text} {taken rest : Text} {fields : List Text} :
    rs[i]? = some r → s.catalogNames[i]? = some names → name ∈ names →
    Takes r.pattern.steps taken fields → s.callText name ++ q = taken ++ (rest ++ e) →
    (∀ f ∈ fields, IsArgument f) → IsTail rest → IsEnd e →
    Converts s rs name q e (r.fill ⟨taken, fields⟩ ++ rest)

instance : DecidablePred IsName := fun _ => inferInstanceAs (Decidable (_ ∧ _))

theorem catalogNames_wellFormed (s : CallSpace) : s.catalogNames.flatten.Nodup ∧
    ∀ name ∈ s.catalogNames.flatten, IsName name ∧ ¬ alertWord <:+ name := by
  cases s <;> decide +kernel

theorem forall₂_answers {s : CallSpace} {rs : List Rule} {nss : List (List Text)}
    (h : rs.map (fun r => s.callees? r.pattern) = nss.map some) :
    List.Forall₂ s.Answers rs nss := by
  induction rs generalizing nss with
  | nil =>
    obtain rfl : nss = [] := by simpa using h
    exact .nil
  | cons r rs ih =>
    cases nss with
    | nil => simp at h
    | cons names nss =>
      rw [List.map_cons, List.map_cons, List.cons.injEq] at h
      exact .cons (answers_of_callees? h.1) (ih h.2)

theorem systemRules_answer : List.Forall₂ system.Answers systemRules system.catalogNames :=
  forall₂_answers (by decide +kernel)

theorem formRules_answer (form : Text) :
    List.Forall₂ CallSpace.form.Answers (formRules form) CallSpace.form.catalogNames := by
  -- the names do not depend on the form
  have hcallees : (formRules []).map (fun r => CallSpace.form.callees? r.pattern) =
      CallSpace.form.catalogNames.map some := by decide +kernel
  exact forall₂_answers hcallees

theorem isTail_nil : IsTail [] := by simp [IsTail]

theorem isTail_argument {a : Text} (ha : IsArgument a) : IsTail (a ++ [')']) := by
  intro c hc
  rcases List.mem_append.1 hc with hc | hc
  · have hne {d : Char} (hd : isArgumentChar d = false) : c ≠ d := fun h => ha.not_mem hd (h ▸ hc)
    exact ⟨hne (by decide), hne (by decide), hne (by decide), ha.not_blank hc⟩
  · obtain rfl := List.mem_singleton.1 hc
    decide

theorem IsTail.not_mem {t e : Text} (ht : IsTail t) (he : IsEnd e) :
    ∀ c ∈ t ++ e, c ≠ '.' ∧ c ≠ '(' ∧ isBlank c = false := by
  intro c hc
  rcases List.mem_append.1 hc with hc | hc
  · obtain ⟨hdot, hopen, -, hblank⟩ := ht c hc
    exact ⟨hdot, hopen, hblank⟩
  · rcases he with rfl | rfl
    · cases hc
    · obtain rfl := List.mem_singleton.1 hc
      decide

section Converts

variable {s : CallSpace} {rs : List Rule} {name q e l : Text}

theorem Converts.name_mem (h : s.Converts rs name q e l) :
    name ∈ s.catalogNames.flatten := by
  obtain ⟨-, hnames, hname, -, -, -, -, -⟩ := h
  exact List.mem_flatten.2 ⟨_, List.mem_of_getElem? hnames, hname⟩

theorem getElem?_answers {nss : List (List Text)} (h : List.Forall₂ s.Answers rs nss) {i : ℕ}
    {r : Rule} {names : List Text} (hr : rs[i]? = some r) (hnames : nss[i]? = some names) :
    s.Answers r names := by
  induction h generalizing i with
  | nil => cases hr
  | cons h₀ _ ih =>
    cases i with
    | zero =>
      cases hr
      cases hnames
      exact h₀
    | succ i => exact ih hr hnames

theorem Converts.leads (hrs : List.Forall₂ s.Answers rs s.catalogNames)
    (h : s.Converts rs name q e l) (hq : '.' ∉ q) (hl : ¬ s.opening <:+: l ++ e) :
    Rule.Leads rs (s.callText name ++ q) (l ++ e) := by
  have hn := (s.catalogNames_wellFormed.2 name h.name_mem).1
  obtain ⟨hr, hnames, hname, htakes, hline, -, htail, hend⟩ := h
  have hans := getElem?_answers hrs hr hnames
  refine leads_of_answers hrs s.catalogNames_wellFormed.1 hn hq hr hnames hname ?_ hl
  rw [hline, List.append_assoc]
  refine Rule.sends_hit hans.inline (fun t _ => htakes _) (hans.sends_of_not_isInfix fun hi => ?_)
  have hdot := hi.subset (show '.' ∈ s.opening by cases s <;> decide)
  exact (htail.not_mem hend _ hdot).1 rfl

variable {i : ℕ} {r : Rule} {names fields : List Text} {w : Text}

theorem converts_open (hr : rs[i]? = some r) (hname : s.catalogNames[i]? = some [name])
    (ht : Takes r.pattern.steps (s.callText name ++ w) fields)
    (hf : ∀ f ∈ fields, IsArgument f) (hl : l = r.fill ⟨[], fields⟩) :
    s.Converts rs name (w ++ [';']) [';'] l := by
  have hline : s.callText name ++ (w ++ [';']) = (s.callText name ++ w) ++ ([] ++ [';']) := by simp
  have h := Converts.intro hr hname List.mem_cons_self ht hline hf isTail_nil (Or.inr rfl)
  rw [List.append_nil] at h
  exact hl ▸ h

theorem converts_closed (hr : rs[i]? = some r) (hname : s.catalogNames[i]? = some [name])
    (ht : Takes r.pattern.steps (s.callText name ++ w) fields)
    (hf : ∀ f ∈ fields, IsArgument f) (hl : l = r.fill ⟨[], fields⟩) :
    s.Converts rs name w [] l := by
  have hline : s.callText name ++ w = (s.callText name ++ w) ++ ([] ++ []) := by simp
  have h := Converts.intro hr hname List.mem_cons_self ht hline hf isTail_nil (Or.inl rfl)
  rw [List.append_nil] at h
  exact hl ▸ h

theorem takes_blank {p : Pattern} (ho : p.opening = s.opening ++ name)
    (h : Takes p.pieces ('(' :: w) fields) : Takes p.steps (s.callText name ++ w) fields := by
  have h := Takes.steps ho h
  simpa [callText] using h

variable (hr : rs[i]? = some r) (hname : s.catalogNames[i]? = some [name])

include hr hname

theorem converts_bare (ho : r.pattern.opening = s.callText name ++ [')'])
    (hp : r.pattern.pieces = []) (hl : l = r.fill ⟨[], []⟩) :
    s.Converts rs name ((joinWith [',', ' '] [] ++ [')']) ++ [';']) [';'] l := by
  refine converts_open hr hname ?_ (by simp) hl
  have h := Takes.steps ho (hp ▸ takes_nothing)
  simpa [joinWith] using h

theorem converts_argument (ho : r.pattern.opening = s.callText name)
    (hp : r.pattern.pieces = lastArgument) (a : Argument) (hl : l = r.fill ⟨[], [a.text]⟩) :
    s.Converts rs name ((joinWith [',', ' '] [a.text] ++ [')']) ++ [';']) [';'] l :=
  converts_open hr hname (Takes.steps ho (hp ▸ takes_argument _ a.isArgument))
    (by simpa using a.isArgument) hl

theorem converts_field (ho : r.pattern.opening = s.callText name)
    (hp : r.pattern.pieces = fieldOnly) (f : Field) (hl : l = r.fill ⟨[], [f.text]⟩) :
    s.Converts rs name ((joinWith [',', ' '] [f.written] ++ [')']) ++ [';']) [';'] l :=
  converts_open hr hname (Takes.steps ho (hp ▸ takes_field _ f))
    (by simpa using f.isArgument_text) hl

theorem converts_fieldAndArgument (ho : r.pattern.opening = s.callText name)
    (hp : r.pattern.pieces = fieldAndArgument) (f : Field) (a : Argument)
    (hl : l = r.fill ⟨[], [f.text, a.text]⟩) :
    s.Converts rs name ((joinWith [',', ' '] [f.written, a.text] ++ [')']) ++ [';']) [';'] l :=
  converts_open hr hname (Takes.steps ho (hp ▸ takes_fieldAndArgument f a.isArgument))
    (by simpa using ⟨f.isArgument_text, a.isArgument⟩) hl

theorem converts_notification (ho : r.pattern.opening = s.opening ++ name)
    (hp : r.pattern.pieces = [.many .blank, .literal ['('], .field (.except ')'), .literal [')'],
      .optional ';']) (a : Argument) (hl : l = r.fill ⟨[], [a.text]⟩) :
    s.Converts rs name ((joinWith [',', ' '] [a.text] ++ [')']) ++ [';']) [] l :=
  converts_closed hr hname (takes_blank ho (hp ▸ takes_notification _ a.isArgument))
    (by simpa using a.isArgument) hl

end Converts

end CallSpace

open CallSpace

section Openings

variable {s : CallSpace} {o n : String} {w : Text}

theorem opening_call (hn : n.toList = w) (ho : o.toList = s.callText w) :
    (o : Text) = s.callText n := hn ▸ ho

theorem opening_bare (hn : n.toList = w) (ho : o.toList = s.callText w ++ [')']) :
    (o : Text) = s.callText n ++ [')'] := hn ▸ ho

theorem opening_name (hn : n.toList = w) (ho : o.toList = s.opening ++ w) :
    (o : Text) = s.opening ++ (n : Text) := hn ▸ ho

end Openings

theorem FormCall.converts (form : Text) (c : FormCall) :
    CallSpace.form.Converts (formRules form) c.name
      ((joinWith c.separator c.arguments ++ [')']) ++ [';']) [';'] (c.translation form) := by
  cases c with
  | getValue f =>
    refine converts_open (i := 0) rfl rfl (takes_blank ?_ (takes_value _ f)) ?_ rfl
    · exact opening_name toList_ofList toList_ofList
    · simpa using f.isArgument_text
  | setValue f a =>
    refine converts_fieldAndArgument (i := 1) rfl rfl ?_ rfl f a rfl
    exact opening_call toList_ofList toList_ofList
  | patchValue a =>
    refine converts_argument (i := 2) rfl rfl ?_ rfl a rfl
    exact opening_call toList_ofList toList_ofList
  | clearValue f =>
    refine converts_field (i := 3) rfl rfl ?_ rfl f rfl
    exact opening_call toList_ofList toList_ofList
  | setReadOnly f a =>
    refine converts_fieldAndArgument (i := 4) rfl rfl ?_ rfl f a rfl
    exact opening_call toList_ofList toList_ofList
  | showFieldMsg a b c =>
    have hargs := takes_arguments a.isArgument b.isArgument c.isArgument
    refine converts_open (i := 5) rfl rfl (Takes.steps ?_ hargs) ?_ rfl
    · exact opening_call toList_ofList toList_ofList
    · simpa using ⟨a.isArgument, b.isArgument, c.isArgument⟩
  | hideFieldMsg a =>
    refine converts_argument (i := 6) rfl rfl ?_ rfl a rfl
    exact opening_call toList_ofList toList_ofList
  | setMandatory f a =>
    refine converts_fieldAndArgument (i := 7) rfl rfl ?_ rfl f a rfl
    exact opening_call toList_ofList toList_ofList
  | setVisible f a =>
    refine converts_fieldAndArgument (i := 8) rfl rfl ?_ rfl f a rfl
    exact opening_call toList_ofList toList_ofList
  | setDisplay f a =>
    refine converts_fieldAndArgument (i := 9) rfl rfl ?_ rfl f a rfl
    exact opening_call toList_ofList toList_ofList
  | addOption f a b =>
    have hargs := takes_fieldAndArguments f a.isArgument b.isArgument
    refine converts_open (i := 10) rfl rfl (Takes.steps ?_ hargs) ?_ rfl
    · exact opening_call toList_ofList toList_ofList
    · simpa using ⟨f.isArgument_text, a.isArgument, b.isArgument⟩
  | clearOptions f =>
    refine converts_field (i := 11) rfl rfl ?_ rfl f rfl
    exact opening_call toList_ofList toList_ofList
  | getTableName =>
    refine converts_bare (i := 12) rfl rfl ?_ rfl rfl
    exact opening_bare toList_ofList toList_ofList
  | getUniqueValue =>
    refine converts_bare (i := 13) rfl rfl ?_ rfl rfl
    exact opening_bare toList_ofList toList_ofList
  | isNewRecord =>
    refine converts_bare (i := 14) rfl rfl ?_ rfl rfl
    exact opening_bare toList_ofList toList_ofList
  | getReference f a =>
    refine converts_fieldAndArgument (i := 15) rfl rfl ?_ rfl f a rfl
    exact opening_call toList_ofList toList_ofList
  | getControl f =>
    refine converts_field (i := 16) rfl rfl ?_ rfl f rfl
    exact opening_call toList_ofList toList_ofList
  | getSectionNames =>
    refine converts_bare (i := 17) rfl rfl ?_ rfl rfl
    exact opening_bare toList_ofList toList_ofList
  | setSectionDisplay f a =>
    refine converts_fieldAndArgument (i := 18) rfl rfl ?_ rfl f a rfl
    exact opening_call toList_ofList toList_ofList

def SystemCall.terminator : SystemCall → Text
  | notify .. => []
  | _ => [';']

theorem takes_log {name : Text} (hname : name ∈ [("log" : Text), "info", "error"]) :
    Takes logRule.pattern.steps (CallSpace.system.callText name) [] := by
  have hlog : ("log" : Text) = ['l', 'o', 'g'] := toList_ofList
  have hinfo : ("info" : Text) = ['i', 'n', 'f', 'o'] := toList_ofList
  have herror : ("error" : Text) = ['e', 'r', 'r', 'o', 'r'] := toList_ofList
  have hnames : ∀ v ∈ [("log" : Text), "info", "error"], '(' ∉ v ∧
      ∀ w ∈ [("log" : Text), "info", "error"], v <+: w → v = w := by
    rw [hlog, hinfo, herror]
    decide
  exact Takes.steps (show ("gs." : Text) = CallSpace.system.opening from toList_ofList)
    (takes_oneOf hname hnames)

theorem converts_log {name : Text} (hname : name ∈ [("log" : Text), "info", "error"])
    (a : Argument) : CallSpace.system.Converts systemRules name
      ((joinWith [',', ' '] [a.text] ++ [')']) ++ [';']) [';']
      (List.flatten ["console.log(", a.text, ")"]) := by
  have hjoin : joinWith [',', ' '] [a.text] = a.text := by simp [joinWith]
  rw [hjoin]
  have h := Converts.intro (s := .system) (show systemRules[0]? = some logRule from rfl) rfl hname
    (takes_log hname) rfl (by simp) (isTail_argument a.isArgument) (Or.inr rfl)
  exact h

theorem SystemCall.converts (c : SystemCall) :
    CallSpace.system.Converts systemRules c.name
      ((joinWith [',', ' '] c.arguments ++ [')']) ++ [';']) c.terminator c.translation := by
  cases c with
  | log level a =>
    cases level with
    | log => exact converts_log List.mem_cons_self a
    | info => exact converts_log (List.mem_cons_of_mem _ List.mem_cons_self) a
    | error =>
      exact converts_log (List.mem_cons_of_mem _ (List.mem_cons_of_mem _ List.mem_cons_self)) a
  | getUser =>
    refine converts_bare (i := 1) rfl rfl ?_ rfl rfl
    exact opening_bare toList_ofList toList_ofList
  | getSession =>
    refine converts_bare (i := 2) rfl rfl ?_ rfl rfl
    exact opening_bare toList_ofList toList_ofList
  | getProperty f =>
    refine converts_open (i := 3) rfl rfl (Takes.steps ?_ (takes_property _ f)) ?_ rfl
    · exact opening_call toList_ofList toList_ofList
    · simpa using f.isArgument_text
  | notify kind a =>
    cases kind with
    | info =>
      refine converts_notification (i := 4) rfl rfl ?_ rfl a rfl
      exact opening_name toList_ofList toList_ofList
    | error =>
      refine converts_notification (i := 5) rfl rfl ?_ rfl a rfl
      exact opening_name toList_ofList toList_ofList
    | warning =>
      refine converts_notification (i := 6) rfl rfl ?_ rfl a rfl
      exact opening_name toList_ofList toList_ofList
  | isNil a =>
    refine converts_argument (i := 7) rfl rfl ?_ rfl a rfl
    exact opening_call toList_ofList toList_ofList
  | isValid a =>
    refine converts_argument (i := 8) rfl rfl ?_ rfl a rfl
    exact opening_call toList_ofList toList_ofList

end GlideBridge
