import GlideBridge.Proofs.CallSites
import GlideBridge.Proofs.Endpoint
import GlideBridge.Proofs.StatementLines

/-! What the service logs while it answers requests. Pieces of a script reach the log only as names
of calls that are left over, and these are letters behind one of two fixed beginnings; the name of
the handler and the form come from tables, so every message is one line of printable characters. -/

namespace GlideBridge

open Text

def Text.Printable (t : Text) : Prop := ∀ c ∈ t, 0x20 ≤ c.toNat ∧ c.toNat ≤ 0x7E

instance (t : Text) : Decidable (Printable t) := Text.decidableForallMem t

namespace Text

theorem Printable.append {a b : Text} (ha : Printable a) (hb : Printable b) : Printable (a ++ b) :=
  List.forall_mem_append.2 ⟨ha, hb⟩

theorem printable_joinWith {sep : Text} (hsep : Printable sep) {ts : List Text}
    (hts : ∀ t ∈ ts, Printable t) : Printable (joinWith sep ts) :=
  joinWith_induction (by simp [Printable]) hsep (fun _ _ => Printable.append) hts

theorem printable_of_isWord {t : Text} (h : ∀ c ∈ t, CharClass.isWord c = true) : Printable t := by
  intro c hc
  have hrange := CharClass.isWord_range (h c hc)
  omega

theorem printable_ofNat (n : ℕ) : Printable (Digits.ofNat n) := by
  refine printable_of_isWord fun c hc => ?_
  have hdigit := Nat.isDigit_of_mem_toDigits (by decide) (by decide) hc
  simp [CharClass.isWord, Char.isAlphanum, hdigit]

end Text

theorem EventType.printable_handlerNameFor (event : Text) :
    Printable (EventType.handlerNameFor event) := by
  rw [EventType.handlerNameFor]
  cases EventType.ofIdentifier? event with
  | none => decide +kernel
  | some e => cases e <;> decide +kernel

theorem FormType.printable_identifier (f : FormType) : Printable f.identifier := by
  cases f <;> decide +kernel

theorem Catalog.printable_of_mem_leftoverCalls {t call : Text} (h : call ∈ leftoverCalls t) :
    Printable call := by
  have hcall (s : CallSpace) (h : call ∈ s.calls t) : Printable call := by
    obtain ⟨name, hn, rfl⟩ := CallSpace.exists_name_of_mem_calls h
    have hopening : Printable s.opening := by cases s <;> decide
    refine hopening.append (printable_of_isWord fun c hc => ?_)
    simp [CharClass.isWord, Char.isAlphanum, hn.2 c hc]
  rw [CallSpace.leftoverCalls_eq, List.mem_append] at h
  exact h.elim (hcall .form) (hcall .system)

namespace Service

theorem Order.printable_conversionLog {c : Conversion} (hname : Printable c.functionName)
    (hform : Printable c.form) (hcalls : ∀ call ∈ c.leftovers, Printable call) :
    ∀ record ∈ Order.conversionLog c, Printable record.message := by
  have hdebug : Printable ("Converted Glide Script to " ++ c.functionName ++ " for " ++ c.form ++
      " (" ++ Digits.ofNat c.leftovers.length ++ " unconverted calls)") := by
    refine ((((Printable.append ?_ hname).append ?_).append hform).append ?_).append
      (printable_ofNat _) |>.append ?_
    all_goals decide +kernel
  have hinfo : Printable ("Converted to " ++ c.functionName ++
      " with calls left for manual conversion: " ++ joinWith ", " c.leftovers) := by
    refine ((Printable.append ?_ hname).append ?_).append (printable_joinWith ?_ hcalls)
    all_goals decide +kernel
  rw [Order.conversionLog]
  split
  · exact List.forall_mem_cons.2 ⟨hdebug, List.forall_mem_nil _⟩
  · exact List.forall_mem_cons.2 ⟨hdebug, List.forall_mem_cons.2 ⟨hinfo, List.forall_mem_nil _⟩⟩

theorem convert_log (s : Settings) {r : Request} (hfault : r.fault = none) :
    ((convert s r).response.status ≠ 200 ∧ (convert s r).log = []) ∨
      ∃ (o : Order) (script : Text), convert s r =
        { response := .json 200 (Order.ofConversion (GlideBridge.convert (o.options s) script))
          log := Order.conversionLog (GlideBridge.convert (o.options s) script) } := by
  rw [convert]
  cases Order.ofRequest r with
  | error issues => exact Or.inl ⟨by simp [Response.invalid, Response.detail, Response.json], rfl⟩
  | ok o =>
    rw [hfault]
    cases htrim : Text.trim o.script with
    | nil =>
      refine Or.inl ?_
      simp [Order.serve, htrim, Response.detail, Response.json]
    | cons c t => exact Or.inr ⟨o, c :: t, by simp only [Order.serve, htrim]⟩

theorem printable_convert (s : Settings) {r : Request} (hfault : r.fault = none) :
    ∀ record ∈ (convert s r).log, Printable record.message := by
  rcases convert_log s hfault with ⟨-, hlog⟩ | ⟨o, script, heq⟩
  · simp [hlog]
  · have hname : (GlideBridge.convert (o.options s) script).functionName =
        EventType.handlerNameFor (o.options s).event := rfl
    have hform : (GlideBridge.convert (o.options s) script).form =
        (o.form.getD s.defaultForm).identifier := rfl
    simp only [heq]
    refine Order.printable_conversionLog ?_ ?_ ?_
    · rw [hname]
      exact EventType.printable_handlerNameFor _
    · rw [hform]
      exact FormType.printable_identifier _
    · rw [Conversion.leftovers_eq]
      exact fun call => Catalog.printable_of_mem_leftoverCalls

theorem printable_answer (s : Settings) {r : Request} (hfault : r.fault = none) :
    ∀ record ∈ (answer s r).log, Printable record.message := by
  rw [answer]
  split
  · simp
  · rw [respond]
    split
    · split
      · next route _ _ =>
        cases route with
        | convert => exact printable_convert s hfault
        | _ => simp [page]
      · simp
    · simp

theorem Order.endpoint_conversionLog {level : ℕ} (hlevel : level ≤ Severity.info.weight)
    (c : Conversion) :
    (Log.atLeast level (Order.conversionLog c)).filter (·.logger = .endpoint) =
      if c.leftovers = [] then []
      else [⟨.endpoint, .info, "Converted to " ++ c.functionName ++
        " with calls left for manual conversion: " ++ joinWith ", " c.leftovers⟩] := by
  have hinfo : (Log.atLeast level (Order.conversionLog c)).filter (·.logger = .endpoint) =
      (Order.conversionLog c).tail := by
    rw [Log.atLeast, List.filter_filter, Order.conversionLog, List.filter_cons_of_neg (by simp)]
    split
    · rfl
    · exact List.filter_cons_of_pos (by simp [hlevel])
  rw [hinfo, Order.conversionLog]
  cases c.leftovers <;> rfl

/-- Whatever requests without faults the service answers, each message that it logs is one line of
printable ASCII characters. When the order of a request is converted and the level lets information
through, the endpoint logs the calls left over of the response, and nothing if there are none. -/
theorem handle_log (s : Service) (requests : List Request)
    (hfault : ∀ r ∈ requests, r.fault = none) :
    (∀ reply ∈ requests.map s.handle, ∀ record ∈ reply.log, Printable record.message) ∧
      ∀ r ∈ requests, r.method = Route.convert.method → r.path = Route.convert.path →
        (s.handle r).response.status = 200 → s.level ≤ Severity.info.weight →
        ∃ body name calls, (s.handle r).response.content = .json body ∧
          body.field? "functionName" = some (.text name) ∧
          body.field? "unconvertedCalls" = some (.texts calls) ∧
          (s.handle r).log.filter (·.logger = .endpoint) =
            if calls = [] then []
            else [⟨.endpoint, .info, "Converted to " ++ name ++
              " with calls left for manual conversion: " ++ joinWith ", " calls⟩] := by
  constructor
  · intro reply hreply record hrecord
    obtain ⟨r, hr, rfl⟩ := List.mem_map.1 hreply
    exact printable_answer s.settings (hfault r hr) record (List.mem_of_mem_filter hrecord)
  · intro r hr hmethod hpath h200 hlevel
    obtain ⟨hstatus, hcontent, hlog⟩ := answer_of_route (s := s.settings) hpath hmethod
    rcases convert_log s.settings (hfault r hr) with ⟨hne, -⟩ | ⟨o, script, heq⟩
    · exact absurd (hstatus.symm.trans h200) hne
    · change (answer s.settings r).response.content = (convert s.settings r).response.content
        at hcontent
      change (answer s.settings r).log = (convert s.settings r).log at hlog
      rw [heq] at hcontent hlog
      have hshows := shows_ofConversion (GlideBridge.convert (o.options s.settings) script)
      refine ⟨_, _, _, hcontent, hshows.functionName, hshows.leftovers, ?_⟩
      have hkept : (s.handle r).log = Log.atLeast s.level (answer s.settings r).log := rfl
      rw [hkept, hlog, Order.endpoint_conversionLog hlevel]

def brokenLineRequest : Request where
  method := "POST"
  path := Route.convert.path
  content := .json (.object
    [("script", "gs.a(1);\nINFO gs.b(\n2)"), ("eventType", "onLoad\nINFO")])

theorem handle_log_broken_line :
    (∀ r ∈ [brokenLineRequest], r.fault = none) ∧
      (∀ record ∈ ((Service.mk {} 20).handle brokenLineRequest).log, Printable record.message) ∧
      ∃ body, ((Service.mk {} 20).handle brokenLineRequest).response.content = .json body ∧
        body.field? "functionName" = some (.text "invokeDependentAPiCalls") ∧
        body.field? "unconvertedCalls" = some (.texts ["gs.a", "gs.b"]) ∧
        ((Service.mk {} 20).handle brokenLineRequest).log.filter (·.logger = .endpoint) =
          [⟨.endpoint, .info, "Converted to invokeDependentAPiCalls".toList ++
            " with calls left for manual conversion: gs.a, gs.b".toList⟩] := by
  have hfault : ∀ r ∈ [brokenLineRequest], r.fault = none :=
    List.forall_mem_cons.2 ⟨rfl, List.forall_mem_nil _⟩
  obtain ⟨hprintable, hlog⟩ := handle_log (Service.mk {} 20) [brokenLineRequest] hfault
  obtain ⟨body, name, calls, hcontent, hname, hcalls, hfilter⟩ :=
    hlog brokenLineRequest List.mem_cons_self rfl rfl (by decide +kernel) (by decide)
  let c := GlideBridge.convert { event := "onLoad\nINFO" } "gs.a(1);\nINFO gs.b(\n2)"
  have hconverted : ((Service.mk {} 20).handle brokenLineRequest).response.content =
      .json (Order.ofConversion c) := rfl
  obtain rfl : body = Order.ofConversion c := Content.json.inj (hcontent.symm.trans hconverted)
  have hshows := shows_ofConversion c
  obtain rfl : name = c.functionName :=
    Json.text.inj (Option.some.inj (hname.symm.trans hshows.functionName))
  obtain rfl : calls = c.leftovers :=
    List.map_injective_iff.2 (fun _ _ => Json.text.inj)
      (Json.list.inj (Option.some.inj (hcalls.symm.trans hshows.leftovers)))
  have hfunction : c.functionName = "invokeDependentAPiCalls".toList := by decide +kernel
  have hleftovers : c.leftovers = ["gs.a".toList, "gs.b".toList] := by decide +kernel
  rw [hfunction] at hname hfilter
  rw [hleftovers] at hcalls hfilter
  exact ⟨hfault, hprintable _ List.mem_cons_self, _, hcontent, hname, hcalls,
    hfilter.trans (by decide +kernel)⟩

end Service

end GlideBridge
