import GlideBridge.Proofs.CallHeads

/-! Calls with an expression as their last argument. The first closing parenthesis, at which the
rule for the call stops, may belong to a getter of the expression, and getters are translated by
their own rules, before or behind the rule for the call. As that rule leaves the text behind the
head as it is, the line has a stage in front of each rule, and the last stage is the translation. -/

namespace GlideBridge

open Text Catalog Pieces
open CallSpace (IsEnd)

theorem Rule.run_stages {rs : List Rule} {l : ℕ → Text}
    (h : ∀ m r, rs[m]? = some r → r.apply (l m) = l (m + 1)) :
    Rule.run rs (l 0) = l rs.length := by
  induction rs generalizing l with
  | nil => rfl
  | cons r rs ih =>
    rw [Rule.run_cons, h 0 r rfl]
    exact ih (l := fun m => l (m + 1)) fun m r' hr => h (m + 1) r' hr

namespace CallHead

section Steps

variable {f : FormType} {m : ℕ} {r : Rule} {h : CallHead} {x t w e : Text}

theorem exists_end {a : Text} (ha : ';' ∉ a) (h : a ++ [')', ';'] = x ++ ')' :: (e ++ w))
    (he : IsEnd e) : ∃ rest, IsEnd rest ∧ x ++ ')' :: w = a ++ ')' :: rest := by
  rcases he with rfl | rfl
  · exact ⟨[';'], Or.inr rfl, h.symm⟩
  · have hsplit : (a ++ [')']) ++ ';' :: [] = (x ++ [')']) ++ ';' :: w := by simpa using h
    have hsemi : ';' ∉ a ++ [')'] := by simpa using ha
    obtain ⟨hx, -, rfl⟩ := (List.append_cons_inj_of_notMem hsemi (by simp)).1 hsplit
    exact ⟨[], Or.inl rfl, hx.symm⟩

variable (hr : (convertingRules f.identifier)[m]? = some r)

include hr

theorem passes_close (he : IsEnd e) : r.pattern.Passes (')' :: e) [] := by
  have hp := pattern_mem hr
  have hclose : [')'] ∈ atomEnds ++ [[';']] := List.mem_append_left _ List.mem_cons_self
  have hsemi : [';'] ∈ atomEnds ++ [[';']] := List.mem_append_right _ List.mem_cons_self
  refine (passes_end_of_mem hp hclose _).append ?_
  rcases he with rfl | rfl
  · exact r.pattern.passes_nil []
  · exact passes_end_of_mem hp hsemi []

theorem apply_of_passes (h : r.pattern.Passes t []) : r.apply t = t :=
  Rule.apply_of_hits_eq_nil
    (h.hits_eq_nil (isFramed_of_mem (pattern_mem hr)))

theorem exists_apply_head (hm : h.index = m) (hne : x ≠ []) (hclose : ')' ∉ x)
    (hblank : ∀ c ∈ x.head?, isBlank c = false) (hpass : r.pattern.Passes (x ++ ')' :: t) []) :
    ∃ e w, IsEnd e ∧ t = e ++ w ∧
      r.apply (h.text ++ (x ++ ')' :: t)) = h.translation f.identifier ++ (x ++ ')' :: w) := by
  obtain ⟨r', hit, u, e, w, hc⟩ := h.converts hne hclose f.identifier hblank t
  obtain rfl : r' = r := by
    have hr' := hc.rule
    rw [hm, hr] at hr'
    exact (Option.some.inj hr').symm
  have hframed := isFramed_of_mem (pattern_mem hr)
  have happly := Rule.apply_hit (Pattern.lineStart_of_isFramed hframed) hc.takes
  rw [apply_of_passes hr (hpass.of_suffix hc.behind), hc.source, hc.target] at happly
  exact ⟨e, w, hc.isEnd, hc.rest, happly⟩

theorem exists_apply_index (hm : h.index = m) (e : Expression) : ∃ rest, IsEnd rest ∧
    r.apply (h.text ++ (e.stage f.identifier m ++ [')', ';'])) =
      h.translation f.identifier ++ (e.stage f.identifier m ++ ')' :: rest) := by
  have hneat := e.neat_stage f m
  have hpass : r.pattern.Passes (e.stage f.identifier m ++ [')', ';']) [] :=
    (e.passes hr (hm ▸ h.idle_index) (atEnd_close _)).append (passes_close hr (Or.inr rfl))
  -- the argument that the rule takes ends at the first parenthesis, maybe inside the expression
  obtain ⟨x, t, hsplit, hclose⟩ := List.eq_append_cons_of_mem
    (show ')' ∈ e.stage f.identifier m ++ [')', ';'] by simp)
  obtain ⟨c, hc, hblank⟩ := hneat.head
  have hhead : x.head? = some c := by
    obtain ⟨v, hv⟩ := List.head?_eq_some_iff.1 hc
    rw [hv] at hsplit
    cases x with
    | nil =>
      obtain rfl : c = ')' := (List.cons.inj hsplit).1
      exact absurd hc hneat.not_close
    | cons d x => exact congrArg some (List.cons.inj hsplit).1.symm
  have hne : x ≠ [] := by
    rintro rfl
    cases hhead
  rw [hsplit] at hpass ⊢
  obtain ⟨e', w, he, rfl, happly⟩ :=
    exists_apply_head hr hm hne hclose (by simpa [hhead] using hblank) hpass
  obtain ⟨rest, hrest, hend⟩ := exists_end hneat.semicolon hsplit he
  exact ⟨rest, hrest, by rw [happly, hend]⟩

end Steps

variable (f : FormType) (h : CallHead) (e : Expression)

def script : Text := h.text ++ (e.text ++ [')', ';'])

def converted (form : Text) : Text := h.translation form ++ (e.translation form ++ [')'])

/-- The line in front of the rule with the number `m`, if the rule for the call leaves `rest`
behind the closing parenthesis. -/
def line (form rest : Text) (m : ℕ) : Text :=
  h.stage form m ++ (e.stage form m ++ ')' :: Shape.stage h.index [';'] rest m)

theorem line_zero (form rest : Text) : h.line e form rest 0 = h.script e := by
  have hzero : 0 ≤ h.index := Nat.zero_le _
  rw [line, stage, Shape.stage_of_le hzero, Shape.stage_of_le hzero, Expression.stage_zero, script]

theorem index_lt : h.index < 32 := by
  cases h with
  | notify kind => cases kind <;> simp [index]
  | _ => simp [index]

theorem getter_index_lt {m : ℕ} (hm : 32 ≤ m) (g : Getter) : g.index < m := by
  cases g <;> simp only [Getter.index] <;> omega

theorem line_of_le {m : ℕ} (hm : 32 ≤ m) (form rest : Text) :
    h.line e form rest m = h.converted e form ++ rest := by
  have hindex : h.index < m := Nat.lt_of_lt_of_le h.index_lt hm
  rw [line, stage, Shape.stage_of_lt hindex, Shape.stage_of_lt hindex,
    e.stage_of_lt (getter_index_lt hm), converted]
  simp

section Steps

variable {m : ℕ} {r : Rule} (hr : (convertingRules f.identifier)[m]? = some r)

include hr

theorem apply_line (hm : h.index ≠ m) {rest : Text} (hrest : IsEnd rest) :
    r.apply (h.line e f.identifier rest m) = h.line e f.identifier rest (m + 1) := by
  have hframed := isFramed_of_mem (pattern_mem hr)
  have hend : IsEnd (Shape.stage h.index [';'] rest m) := by
    unfold Shape.stage
    split
    · exact Or.inr rfl
    · exact hrest
  have hhead : h.stage f.identifier (m + 1) = h.stage f.identifier m := Shape.stage_succ hm _ _
  have hclose := apply_of_passes hr (passes_close hr hend)
  rw [line, line, Rule.apply_of_passes hframed (h.passes hr hm _), e.apply hr (atEnd_close _),
    hclose, hhead, Shape.stage_succ hm]

theorem hits_converted (hm : 32 ≤ m) {rest : Text} (hrest : IsEnd rest) :
    r.pattern.hits (h.converted e f.identifier ++ rest) = [] := by
  have hindex : h.index < m := Nat.lt_of_lt_of_le h.index_lt hm
  have hidle : Idle m := fun g => Nat.ne_of_lt (getter_index_lt hm g)
  have hline := (h.passes hr (Nat.ne_of_lt hindex) _).append
    ((e.passes hr hidle (atEnd_close _)).append (passes_close hr hrest))
  have hstage : h.stage f.identifier m ++ (e.stage f.identifier m ++ ')' :: rest) =
      h.converted e f.identifier ++ rest := by
    rw [stage, Shape.stage_of_lt hindex, e.stage_of_lt (getter_index_lt hm), converted]
    simp
  rw [← hstage]
  exact hline.hits_eq_nil
    (isFramed_of_mem (pattern_mem hr))

end Steps

theorem isLine_script : Handler.IsLine (h.script e) := by
  -- the script is the same for all forms
  have hhead := h.neat_stage .requestForm 0
  have hexpression := e.neat_stage .requestForm 0
  obtain ⟨s, hs, -, ⟨fields, -, htext⟩, -⟩ := h.exists_shape FormType.requestForm.identifier
  have hneat := (shapes_checks .requestForm s hs).2
  rw [Shape.isNeat, Bool.and_eq_true] at hneat
  obtain ⟨c, t, hc, hblank, -, hletter, hbrace⟩ := Template.exists_cons_of_isNeat hneat.1 fields
  rw [stage, Shape.stage_of_le (Nat.zero_le _)] at hhead
  rw [Expression.stage_zero] at hexpression
  refine ⟨⟨c, t ++ (e.text ++ [')', ';']), ?_, hletter, hbrace, hblank⟩, ?_, ?_⟩
  · rw [script, htext, hc, List.cons_append]
  · simp [script, hhead.line, hexpression.line]
  · simp [script, List.getLast?_append]

theorem tidy_converted : Tidy (h.converted e f.identifier) := by
  have hhead := h.neat_stage f 32
  have hexpression := e.neat_stage f 32
  rw [stage, Shape.stage_of_lt h.index_lt] at hhead
  rw [e.stage_of_lt (getter_index_lt (Nat.le_refl 32))] at hexpression
  refine (hhead.append ?_ ?_).toTidy
  · simp [hexpression.line]
  · simp [hexpression.semicolon]

theorem exists_documented : ∃ rest, IsEnd rest ∧
    Conversion.documented f.identifier (h.script e) = h.converted e f.identifier ++ rest := by
  let rs := (documented f.identifier).flatMap (·.rules)
  have hlength : rs.length = 32 := rfl
  have hrule {m : ℕ} {r : Rule} (hr : rs[m]? = some r) :
      (convertingRules f.identifier)[m]? = some r := by
    obtain ⟨hm, -⟩ := List.getElem?_eq_some_iff.1 hr
    exact (List.getElem?_append_left hm).trans hr
  obtain ⟨r, hr⟩ : ∃ r, rs[h.index]? = some r :=
    ⟨_, List.getElem?_eq_getElem (hlength ▸ h.index_lt)⟩
  obtain ⟨rest, hrest, hindex⟩ := exists_apply_index (hrule hr) rfl e
  have hstep (m : ℕ) (r' : Rule) (hr' : rs[m]? = some r') :
      r'.apply (h.line e f.identifier rest m) = h.line e f.identifier rest (m + 1) := by
    by_cases hm : h.index = m
    · -- no getter has the number of the call, so the expression keeps its stage here
      subst hm
      obtain rfl : r = r' := Option.some.inj (hr.symm.trans hr')
      have hle : h.index ≤ h.index := Nat.le_refl _
      have hlt : h.index < h.index + 1 := Nat.lt_succ_self _
      rw [line, line, stage, stage, Shape.stage_of_le hle, Shape.stage_of_le hle,
        Shape.stage_of_lt hlt, Shape.stage_of_lt hlt, Expression.stage_succ h.idle_index]
      exact hindex
    · exact h.apply_line f e (hrule hr') hm hrest
  have hrun := Rule.run_stages hstep
  rw [line_zero, hlength, h.line_of_le e (Nat.le_refl _)] at hrun
  have hunwrap : Handler.unwrap (joinLines [h.script e]) = joinLines [h.script e] :=
    Handler.unwrap_joinLines (by simp) (by simpa using h.isLine_script e)
  rw [joinLines_singleton] at hunwrap
  refine ⟨rest, hrest, ?_⟩
  rw [Conversion.documented, hunwrap, applyAll_eq_run]
  exact hrun

theorem leftoverRule_hits (s : CallSpace) {rest : Text} (hrest : IsEnd rest) :
    s.pattern.hits (h.converted e f.identifier ++ rest) = [] := by
  cases s with
  | form => exact h.hits_converted f e (m := 32) rfl (Nat.le_refl _) hrest
  | system => exact h.hits_converted f e (m := 33) rfl (Nat.le_succ _) hrest

theorem body_script : Conversion.body f.identifier (h.script e) = h.converted e f.identifier := by
  obtain ⟨rest, hrest, hdocumented⟩ := h.exists_documented f e
  have happly (s : CallSpace) : s.leftoverRule.apply (h.converted e f.identifier ++ rest) =
      h.converted e f.identifier ++ rest :=
    Rule.apply_of_hits_eq_nil (h.leftoverRule_hits f e s hrest)
  have hleftover : leftoverGroup.apply (h.converted e f.identifier ++ rest) =
      h.converted e f.identifier ++ rest := by
    have hrules (t : Text) : leftoverGroup.apply t =
        CallSpace.system.leftoverRule.apply (CallSpace.form.leftoverRule.apply t) := rfl
    rw [hrules, happly, happly]
  have hcleanup := cleanup_joinLines (f := fun _ : Unit => h.converted e f.identifier)
    (e := fun _ => rest) (fun _ => h.tidy_converted f e) (fun _ => hrest) [()]
  simp only [List.map_cons, List.map_nil, joinLines_singleton] at hcleanup
  rw [Conversion.body_eq_apply, hdocumented, hleftover, cleanupGroup_apply, hcleanup]

theorem leftovers_script :
    leftoverCalls (Conversion.documented f.identifier (h.script e)) = [] := by
  obtain ⟨rest, hrest, hdocumented⟩ := h.exists_documented f e
  rw [hdocumented, CallSpace.leftoverCalls_eq, ← CallSpace.hits_eq_calls,
    ← CallSpace.hits_eq_calls, h.leftoverRule_hits f e .form hrest,
    h.leftoverRule_hits f e .system hrest]
  rfl

end CallHead

/-- A call with an expression as its last argument becomes the translation of the call around the
translation of the expression, wherever the rule for the call ends its argument. -/
theorem convert_passThrough (f : FormType) (event unit : Text) (h : CallHead) (e : Expression) :
    Conversion.body f.identifier (h.text ++ (e.text ++ [')', ';'])) =
        h.translation f.identifier ++ (e.translation f.identifier ++ [')']) ∧
      convert { form := f.identifier, event := event, unit := unit }
          (h.text ++ (e.text ++ [')', ';'])) =
        { output := joinLines [Handler.heading (EventType.handlerNameFor event),
            unit ++ (h.translation f.identifier ++ (e.translation f.identifier ++ [')'])), ['}']]
          functionName := EventType.handlerNameFor event
          form := f.identifier
          event := event
          leftovers := [] } := by
  have hbody := h.body_script f e
  have hleftovers := h.leftovers_script f e
  have hindent : indent unit (h.converted e f.identifier) =
      joinLines [unit ++ h.converted e f.identifier] := by
    have hlines : indent unit (joinLines [h.converted e f.identifier]) =
        joinLines ([h.converted e f.identifier].map (unit ++ ·)) :=
      indent_joinLines unit (by simp) (by simpa using (h.tidy_converted f e).line)
    simpa [joinLines_singleton] using hlines
  rw [CallHead.script] at hbody hleftovers
  refine ⟨hbody, ?_⟩
  rw [convert, hbody, hleftovers, hindent, Handler.wrap_joinLines _ (by simp), CallHead.converted]
  rfl

end GlideBridge
