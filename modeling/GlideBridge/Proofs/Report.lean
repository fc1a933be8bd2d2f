import GlideBridge.Proofs.Layout

/-! The list of calls left over agrees with the handler that the conversion writes: the list is
taken before the calls are commented out, and the closing steps keep every call in its place
while they put a comment mark in front of it. -/

namespace GlideBridge

namespace CallSpace

theorem line_not_mem_callText {s : CallSpace} {name : Text} (hn : IsName name) :
    '\n' ∉ s.callText name := not_mem_callText hn (by decide) (by cases s <;> decide)

theorem callAt?_append_line (s : CallSpace) (t u : Text) :
    s.callAt? (t ++ '\n' :: u) = s.callAt? t :=
  callAt?_congr fun _ hn => Text.prefix_append_cons_iff (line_not_mem_callText hn) t u

theorem calls_append_line (s : CallSpace) (t u : Text) :
    s.calls (t ++ '\n' :: u) = s.calls t ++ s.calls u := by
  induction t with
  | nil => rw [List.nil_append, calls_cons_of_ne (by decide)]; rfl
  | cons c t ih =>
    have hc := callAt?_append_line s (c :: t) u
    rw [List.cons_append] at hc ⊢
    rw [calls, calls, hc, ih, List.append_assoc]

theorem starts_append_line_iff (s : CallSpace) (t u : Text) :
    s.Starts (t ++ '\n' :: u) ↔ s.Starts t := by
  constructor
  · rintro ⟨name, hn, hp⟩
    exact ⟨name, hn, (Text.prefix_append_cons_iff (line_not_mem_callText hn) t u).1 hp⟩
  · rintro ⟨name, hn, hp⟩
    exact ⟨name, hn, (Text.prefix_append_cons_iff (line_not_mem_callText hn) t u).2 hp⟩

theorem Marked.append_line {s : CallSpace} {t u : Text} (ht : s.Marked t) (hu : s.Marked u) :
    s.Marked (t ++ '\n' :: u) := by
  induction ht with
  | nil => exact .plain (not_starts_cons (by decide) _) hu
  | @plain c t hc _ ih =>
    exact .plain (fun h => hc ((starts_append_line_iff s (c :: t) u).1 h)) ih
  | call _ ih => exact .call ih

theorem not_starts_of_dot_not_mem {s : CallSpace} {t : Text} (ht : '.' ∉ t) : ¬ s.Starts t := by
  rintro ⟨name, -, u, rfl⟩
  obtain ⟨o, ho, -, hdot, -⟩ := s.opening_eq
  exact ht (by simp [callText, ho, hdot])

theorem calls_of_dot_not_mem {s : CallSpace} {t : Text} (ht : '.' ∉ t) : s.calls t = [] := by
  induction t with
  | nil => rfl
  | cons c t ih =>
    rw [calls, callAt?_eq_none (not_starts_of_dot_not_mem ht),
      ih fun h => ht (List.mem_cons_of_mem c h)]
    rfl

theorem marked_of_dot_not_mem {s : CallSpace} {t : Text} (ht : '.' ∉ t) : s.Marked t := by
  induction t with
  | nil => exact .nil
  | cons c t ih =>
    exact .plain (not_starts_of_dot_not_mem ht) (ih fun h => ht (List.mem_cons_of_mem c h))

end CallSpace

namespace Handler

def heading (name : Text) : Text :=
  "function " ++ name ++ "(" ++ Text.joinWith ", " parameters ++ ") \x7b"

theorem append_lines {a b c body d : Text} (hb : b = c ++ ['\n']) (hd : d = ['\n', '}']) :
    a ++ b ++ body ++ d = a ++ c ++ '\n' :: (body ++ '\n' :: ['}']) := by
  subst hb hd
  simp

theorem wrap_eq (name body : Text) :
    wrap name body = heading name ++ '\n' :: (body ++ '\n' :: ['}']) := by
  have hbrace : (") \x7b" : Text) = [')', ' ', '{'] := String.toList_ofList
  have hline : (") \x7b\n" : Text) = (") \x7b" : Text) ++ ['\n'] :=
    hbrace ▸ String.toList_ofList
  exact append_lines hline String.toList_ofList

theorem dot_not_mem_heading (event : Text) : '.' ∉ heading (EventType.handlerNameFor event) := by
  rw [EventType.handlerNameFor]
  cases EventType.ofIdentifier? event with
  | none => decide +kernel
  | some e => cases e <;> decide +kernel

end Handler

namespace Conversion

theorem body_eq_apply (form source : Text) : body form source =
    Catalog.cleanupGroup.apply (Catalog.leftoverGroup.apply (documented form source)) := by
  rw [body, Catalog.applyAll, Catalog.closingGroups, List.foldl_cons, List.foldl_cons,
    List.foldl_nil]

theorem body_eq (form source : Text) : body form source =
    Catalog.cleanupGroup.apply (CallSpace.mark [.system, .form] (documented form source)) := by
  rw [body_eq_apply, CallSpace.leftoverGroup_apply]

theorem calls_body (form source : Text) (s : CallSpace) :
    s.calls (body form source) = s.calls (documented form source) := by
  rw [body_eq, ← (Catalog.relaid_cleanup _).calls_eq, CallSpace.calls_mark]

theorem marked_body (form source : Text) (s : CallSpace) : s.Marked (body form source) := by
  rw [body_eq]
  exact (Catalog.relaid_cleanup _).marked (CallSpace.marked_mark (by cases s <;> simp) _)

theorem output_eq (o : Options) (source : Text) : (convert o source).output =
    Handler.heading (EventType.handlerNameFor o.event) ++
      '\n' :: (Text.indent o.unit (body o.form source) ++ '\n' :: ['}']) :=
  Handler.wrap_eq _ _

theorem leftovers_eq (o : Options) (source : Text) :
    (convert o source).leftovers = Catalog.leftoverCalls (documented o.form source) := by
  rw [convert]

end Conversion

theorem CallSpace.calls_indent {unit : Text} (hunit : ∀ c ∈ unit, Text.isBlank c = true)
    (s : CallSpace) (t : Text) : s.calls (Text.indent unit t) = s.calls t := by
  have h := (Text.relaid_indent hunit t).calls_eq s
  rw [calls_cons_of_ne (by decide), calls_cons_of_ne (by decide)] at h
  exact h.symm

theorem CallSpace.Marked.indent {unit : Text} (hunit : ∀ c ∈ unit, Text.isBlank c = true)
    {s : CallSpace} {t : Text} (ht : s.Marked t) : s.Marked (Text.indent unit t) := by
  have h := (Text.relaid_indent hunit t).marked (.plain (not_starts_cons (by decide) t) ht)
  cases h with
  | plain _ h => exact h

theorem calls_output (o : Options) (hunit : ∀ c ∈ o.unit, Text.isBlank c = true) (source : Text)
    (s : CallSpace) :
    s.calls (convert o source).output = s.calls (Conversion.documented o.form source) := by
  have hheading : s.calls (Handler.heading (EventType.handlerNameFor o.event)) = [] :=
    CallSpace.calls_of_dot_not_mem (Handler.dot_not_mem_heading o.event)
  have hclose : s.calls ['}'] = [] := CallSpace.calls_of_dot_not_mem (by decide)
  rw [Conversion.output_eq, CallSpace.calls_append_line, CallSpace.calls_append_line, hheading,
    hclose, CallSpace.calls_indent hunit, Conversion.calls_body, List.nil_append, List.append_nil]

theorem marked_output (o : Options) (hunit : ∀ c ∈ o.unit, Text.isBlank c = true) (source : Text)
    (s : CallSpace) : s.Marked (convert o source).output := by
  have hheading : s.Marked (Handler.heading (EventType.handlerNameFor o.event)) :=
    CallSpace.marked_of_dot_not_mem (Handler.dot_not_mem_heading o.event)
  have hclose : s.Marked ['}'] := CallSpace.marked_of_dot_not_mem (by decide)
  rw [Conversion.output_eq]
  exact hheading.append_line (((Conversion.marked_body _ _ s).indent hunit).append_line hclose)

/-- The list of calls left over is the list of calls in the handler, and each of them stands
behind a comment mark. -/
theorem convert_leftovers_marked (o : Options) (hunit : ∀ c ∈ o.unit, Text.isBlank c = true)
    (source : Text) :
    Catalog.leftoverCalls (convert o source).output = (convert o source).leftovers ∧
      ∀ before after, (convert o source).output = before ++ after →
        (∃ s : CallSpace, s.Starts after) → "// ".toList <:+ before := by
  constructor
  · rw [convert, CallSpace.leftoverCalls_eq, CallSpace.leftoverCalls_eq]
    exact congrArg₂ _ (calls_output o hunit source .form) (calls_output o hunit source .system)
  · rintro before after ht ⟨s, hs⟩
    exact (marked_output o hunit source s).suffix_of_starts ht hs

theorem convert_leftovers_marked_tab :
    (∀ c ∈ ['\t'], Text.isBlank c = true) ∧
      Catalog.leftoverCalls
          (convert { form := "gs", unit := ['\t'] }
            "gs.a(g_form.b(1));\ng_form.getValue('x');").output =
        ["g_form.b", "gs.a", "gs.get"] := by
  have hunit : ∀ c ∈ ['\t'], Text.isBlank c = true := by decide
  exact ⟨hunit, (convert_leftovers_marked { form := "gs", unit := ['\t'] } hunit
    "gs.a(g_form.b(1));\ng_form.getValue('x');").1.trans (by decide +kernel)⟩

end GlideBridge
