import GlideBridge.Service.Basic
import Mathlib.Data.List.TakeWhile
import Mathlib.Tactic.Common

/-! The endpoint for conversions against the engine. An order that passes the checks of its three
members is answered with what the engine makes of the trimmed script under the form and the event
of the order; what the order leaves out has the defaults that the pages report. -/

namespace GlideBridge

theorem Text.trim_eq_nil_iff {t : Text} : Text.trim t = [] ↔ ∀ c ∈ t, Text.isBlank c = true := by
  rw [Text.trim, Text.trimRight, List.reverse_eq_nil_iff, List.dropWhile_eq_nil_iff]
  simp only [List.mem_reverse]
  refine ⟨fun h => ?_, fun h c hc => h c ((List.dropWhile_suffix _).subset hc)⟩
  -- what is left in front has a blank as its first character only if nothing is left
  have hnil : Text.trimLeft t = [] := by
    by_contra hne
    have hhead := List.head_dropWhile_not Text.isBlank hne
    have hmem : (List.dropWhile Text.isBlank t).head hne ∈ Text.trimLeft t := List.head_mem hne
    rw [h _ hmem] at hhead
    cases hhead
  exact List.dropWhile_eq_nil_iff.1 hnil

namespace Service

theorem Route.find?_path (route : Route) : Route.find? route.path = some route := by
  cases route <;> decide +kernel

theorem Route.method_ne_options (route : Route) : route.method ≠ "OPTIONS".toList := by
  cases route <;> decide +kernel

theorem Cors.preflight?_eq_none (s : Settings) {r : Request} (h : r.method ≠ "OPTIONS".toList) :
    Cors.preflight? s r = none := by
  rw [Cors.preflight?]
  cases r.header? "origin" with
  | none => rfl
  | some origin =>
    cases r.header? "access-control-request-method" with
    | none => rfl
    | some method =>
      simp only [guard, if_neg h]
      rfl

theorem answer_of_route {s : Settings} {r : Request} {route : Route} (hpath : r.path = route.path)
    (hmethod : r.method = route.method) :
    (answer s r).response.status = (page s r route).response.status ∧
      (answer s r).response.content = (page s r route).response.content ∧
      (answer s r).log = (page s r route).log := by
  have hpreflight : Cors.preflight? s r = none :=
    Cors.preflight?_eq_none s (hmethod ▸ route.method_ne_options)
  have hrespond : respond s r = page s r route := by
    rw [respond, hpath, Route.find?_path]
    exact if_pos hmethod
  rw [answer, hpreflight, hrespond]
  exact ⟨rfl, rfl, rfl⟩

/-- The pages that report the defaults report these. -/
def Reports (s : Service) (form event : Text) : Prop :=
  ∀ r : Request, r.method = "GET".toList →
    (r.path = Route.options.path → (s.handle r).response.status = 200 ∧
      ∃ body, (s.handle r).response.content = .json body ∧
        body.field? "defaultFormType" = some (.text form) ∧
        body.field? "defaultEventType" = some (.text event)) ∧
    (r.path = Route.info.path → (s.handle r).response.status = 200 ∧
      ∃ body, (s.handle r).response.content = .json body ∧
        (body.field? "defaults").bind (·.field? "formType") = some (.text form) ∧
        (body.field? "defaults").bind (·.field? "eventType") = some (.text event))

theorem reports_defaults (s : Service) :
    s.Reports s.settings.defaultForm.identifier s.settings.defaultEvent := by
  intro r hmethod
  constructor
  · intro hpath
    obtain ⟨hstatus, hcontent, -⟩ := answer_of_route (s := s.settings) hpath hmethod
    exact ⟨hstatus, _, hcontent, rfl, rfl⟩
  · intro hpath
    obtain ⟨hstatus, hcontent, -⟩ := answer_of_route (s := s.settings) hpath hmethod
    exact ⟨hstatus, _, hcontent, rfl, rfl⟩

namespace Order

def IsUnset (v : Option Json) : Prop := v = none ∨ v = some .null

theorem checkScript_eq_ok_iff {v : Option Json} {t : Text} :
    checkScript v = .ok t ↔ v = some (.text t) := by
  rcases v with _ | v
  · simp [checkScript]
  · cases v <;> simp [checkScript]

theorem checkForm_eq_ok_iff {v : Option Json} {o : Option FormType} : checkForm v = .ok o ↔
    (IsUnset v ∧ o = none) ∨ ∃ f : FormType, v = some (.text f.identifier) ∧ o = some f := by
  rcases v with _ | v
  · simp [checkForm, IsUnset, eq_comm]
  · cases v with
    | text t =>
      cases hf : FormType.ofIdentifier? t with
      | none =>
        have ht : ∀ f : FormType, t ≠ f.identifier := fun f h => by
          rw [h, FormType.ofIdentifier?_identifier] at hf
          cases hf
        simp [checkForm, Checked.form, hf, IsUnset, ht]
      | some f =>
        obtain rfl := FormType.ofIdentifier?_eq_some_iff.1 hf
        constructor
        · intro h
          have ho : some f = o := by simpa [checkForm, Checked.form, hf] using h
          exact Or.inr ⟨f, rfl, ho.symm⟩
        · rintro (⟨hunset, -⟩ | ⟨g, hg, rfl⟩)
          · simp [IsUnset] at hunset
          · have hg : f.identifier = g.identifier := by simpa using hg
            simp [checkForm, Checked.form, hg, FormType.ofIdentifier?_identifier]
    | _ => simp [checkForm, IsUnset, eq_comm]

theorem checkEvent_eq_ok_iff {v : Option Json} {o : Option Text} : checkEvent v = .ok o ↔
    (IsUnset v ∧ o = none) ∨ ∃ t, v = some (.text t) ∧ o = some t := by
  rcases v with _ | v
  · simp [checkEvent, IsUnset, eq_comm]
  · cases v <;> simp [checkEvent, IsUnset, eq_comm]

theorem ofMembers_eq_ok_iff {members : List (Text × Json)} {o : Order} :
    ofMembers members = .ok o ↔ checkScript (Json.lookup "script" members) = .ok o.script ∧
      checkForm (Json.lookup "formType" members) = .ok o.form ∧
      checkEvent (Json.lookup "eventType" members) = .ok o.event := by
  rw [ofMembers]
  cases checkScript (Json.lookup "script" members) <;>
    cases checkForm (Json.lookup "formType" members) <;>
      cases checkEvent (Json.lookup "eventType" members) <;> simp
  cases o
  simp

/-- There is no script, or one that is no text; or a form that is not among the known ones; or an
event that is no text. -/
def IsRefused (members : List (Text × Json)) : Prop :=
  (∀ t, Json.lookup "script" members ≠ some (.text t)) ∨
    (¬ IsUnset (Json.lookup "formType" members) ∧
      ∀ f : FormType, Json.lookup "formType" members ≠ some (.text f.identifier)) ∨
    (¬ IsUnset (Json.lookup "eventType" members) ∧
      ∀ t, Json.lookup "eventType" members ≠ some (.text t))

theorem exists_ofMembers_eq_ok_iff {members : List (Text × Json)} :
    (∃ o, ofMembers members = .ok o) ↔ ¬ IsRefused members := by
  simp only [ofMembers_eq_ok_iff, checkScript_eq_ok_iff, checkForm_eq_ok_iff, checkEvent_eq_ok_iff]
  constructor
  · rintro ⟨o, hscript, hform, hevent⟩ (h | ⟨hset, h⟩ | ⟨hset, h⟩)
    · exact h _ hscript
    · exact hform.elim (fun hu => hset hu.1) fun ⟨f, hf, _⟩ => h f hf
    · exact hevent.elim (fun hu => hset hu.1) fun ⟨t, ht, _⟩ => h t ht
  · intro h
    simp only [IsRefused, not_or, not_and_or, not_not, not_forall] at h
    obtain ⟨⟨script, hscript⟩, hform, hevent⟩ := h
    obtain ⟨form, hform⟩ : ∃ form, checkForm (Json.lookup "formType" members) = .ok form := by
      simp only [checkForm_eq_ok_iff]
      rcases hform with hunset | ⟨f, hf⟩
      · exact ⟨none, Or.inl ⟨hunset, rfl⟩⟩
      · exact ⟨some f, Or.inr ⟨f, hf, rfl⟩⟩
    obtain ⟨event, hevent⟩ : ∃ event, checkEvent (Json.lookup "eventType" members) = .ok event := by
      simp only [checkEvent_eq_ok_iff]
      rcases hevent with hunset | ⟨t, ht⟩
      · exact ⟨none, Or.inl ⟨hunset, rfl⟩⟩
      · exact ⟨some t, Or.inr ⟨t, ht, rfl⟩⟩
    rw [checkForm_eq_ok_iff] at hform
    rw [checkEvent_eq_ok_iff] at hevent
    exact ⟨⟨script, form, event⟩, hscript, hform, hevent⟩

def chosenForm (default : Text) (members : List (Text × Json)) : Text :=
  match Json.lookup "formType" members with
  | some (.text t) => t
  | _ => default

/-- An empty event counts as left out. -/
def chosenEvent (default : Text) (members : List (Text × Json)) : Text :=
  match Json.lookup "eventType" members with
  | some (.text (c :: t)) => c :: t
  | _ => default

theorem options_eq {s : Settings} {members : List (Text × Json)} {o : Order}
    (h : ofMembers members = .ok o) : o.options s =
      { form := chosenForm s.defaultForm.identifier members
        event := chosenEvent s.defaultEvent members
        unit := s.unit } := by
  rw [ofMembers_eq_ok_iff, checkForm_eq_ok_iff, checkEvent_eq_ok_iff] at h
  obtain ⟨-, hform, hevent⟩ := h
  have hchosen : (o.form.getD s.defaultForm).identifier =
      chosenForm s.defaultForm.identifier members := by
    rcases hform with ⟨hunset, ho⟩ | ⟨f, hf, ho⟩
    · rw [ho, chosenForm]
      rcases hunset with h | h <;> rw [h] <;> rfl
    · rw [ho, chosenForm, hf]
      rfl
  rw [options, hchosen, chosenEvent]
  rcases hevent with ⟨hunset, ho⟩ | ⟨t, ht, ho⟩
  · rw [ho]
    rcases hunset with h | h <;> rw [h]
  · rw [ho, ht]
    cases t <;> rfl

end Order

def Content.holds (v : Json) : Content → Prop
  | .empty => False
  | .json w => w = v
  | .text t => Json.read (Order.dropByteOrderMark t) = .ok v

structure Request.Posts (r : Request) (members : List (Text × Json)) : Prop where
  method : r.method = Route.convert.method
  path : r.path = Route.convert.path
  fault : r.fault = none
  mediaType : ∀ t, r.header? "content-type" = some t →
    (Text.trim (t.takeWhile (· != ';'))).map Char.toLower = "application/json".toList
  holds : r.content.holds (.object members)

namespace Order

theorem isJsonType_of_mediaType {t : Text}
    (h : (Text.trim (t.takeWhile (· != ';'))).map Char.toLower = "application/json".toList) :
    isJsonType t = true := by
  simp only [isJsonType, h]
  decide +kernel

theorem ofRequest_of_posts {r : Request} {members : List (Text × Json)} (h : r.Posts members) :
    ofRequest r = ofMembers members := by
  have hdeclared : (r.header? "content-type").all isJsonType = true := by
    rw [Option.all_eq_true]
    exact fun t ht => isJsonType_of_mediaType (h.mediaType t ht)
  have hholds := h.holds
  cases hc : r.content with
  | empty =>
    rw [hc] at hholds
    cases hholds
  | json v =>
    rw [hc] at hholds
    simp only [ofRequest, hc, hdeclared]
    rw [show v = .object members from hholds, ofJson]
  | text t =>
    rw [hc] at hholds
    have hread : Json.read (dropByteOrderMark t) = .ok (.object members) := hholds
    cases t with
    | nil => cases hread
    | cons c t =>
      simp only [ofRequest, hc, hdeclared, hread]
      rw [ofJson]

end Order

structure Shows (body : Json) (c : Conversion) : Prop where
  output : body.field? "output" = some (.text c.output)
  functionName : body.field? "functionName" = some (.text c.functionName)
  form : body.field? "formType" = some (.text c.form)
  event : body.field? "eventType" = some (.text c.event)
  leftovers : body.field? "unconvertedCalls" = some (.texts c.leftovers)

theorem shows_ofConversion (c : Conversion) : Shows (Order.ofConversion c) c := by
  constructor <;> rfl

section Convert

variable {s : Settings} {r : Request} {members : List (Text × Json)} (hposts : r.Posts members)

include hposts

theorem convert_refused (h : Order.IsRefused members) : (convert s r).response.status = 422 := by
  have hnone : ∀ o, Order.ofMembers members ≠ .ok o :=
    fun o ho => Order.exists_ofMembers_eq_ok_iff.1 ⟨o, ho⟩ h
  rw [convert, Order.ofRequest_of_posts hposts]
  cases ho : Order.ofMembers members with
  | ok o => exact absurd ho (hnone o)
  | error issues => rfl

variable {o : Order} (ho : Order.ofMembers members = .ok o)

include ho

theorem convert_eq_serve : convert s r = o.serve s none := by
  rw [convert, Order.ofRequest_of_posts hposts, ho, hposts.fault]

theorem convert_blank (h : ∀ c ∈ o.script, Text.isBlank c = true) :
    (convert s r).response.status = 400 := by
  have htrim := Text.trim_eq_nil_iff.2 h
  simp only [convert_eq_serve hposts ho, Order.serve, htrim]
  rfl

theorem convert_script (h : ∃ c ∈ o.script, Text.isBlank c = false) :
    convert s r =
      { response := .json 200
          (Order.ofConversion (GlideBridge.convert (o.options s) (Text.trim o.script)))
        log := Order.conversionLog (GlideBridge.convert (o.options s) (Text.trim o.script)) } := by
  have hne : Text.trim o.script ≠ [] := by
    obtain ⟨c, hc, hblank⟩ := h
    intro hnil
    rw [Text.trim_eq_nil_iff.1 hnil c hc] at hblank
    cases hblank
  rw [convert_eq_serve hposts ho]
  cases htrim : Text.trim o.script with
  | nil => exact absurd htrim hne
  | cons c t => simp only [Order.serve, htrim]

end Convert

/-- What the endpoint for conversions answers to an object is decided by its members: it refuses
the order, or asks for a script, or answers with what the engine makes of the trimmed script. The
form and the event that are left out are the ones that the other pages report. -/
theorem handle_convert (s : Service) :
    ∃ form event, s.Reports form event ∧
      ∀ (r : Request) (members : List (Text × Json)), r.Posts members →
        ((s.handle r).response.status = 422 ↔ Order.IsRefused members) ∧
        (¬ Order.IsRefused members → ∃ script, Json.lookup "script" members = some (.text script) ∧
          ((s.handle r).response.status = 400 ↔ ∀ c ∈ script, Text.isBlank c = true) ∧
          ((s.handle r).response.status ≠ 400 → (s.handle r).response.status = 200 ∧
            ∃ body, (s.handle r).response.content = .json body ∧
              Shows body (GlideBridge.convert
                { form := Order.chosenForm form members
                  event := Order.chosenEvent event members
                  unit := s.settings.unit } (Text.trim script)))) := by
  refine ⟨_, _, reports_defaults s, fun r members hposts => ?_⟩
  obtain ⟨hstatus, hcontent, -⟩ := answer_of_route (s := s.settings) hposts.path hposts.method
  change (s.handle r).response.status = (convert s.settings r).response.status at hstatus
  change (s.handle r).response.content = (convert s.settings r).response.content at hcontent
  rw [hstatus, hcontent]
  by_cases hrefused : Order.IsRefused members
  · exact ⟨iff_of_true (convert_refused hposts hrefused) hrefused, fun h => absurd hrefused h⟩
  · obtain ⟨o, ho⟩ := Order.exists_ofMembers_eq_ok_iff.2 hrefused
    have hscript := Order.checkScript_eq_ok_iff.1 (Order.ofMembers_eq_ok_iff.1 ho).1
    have hoptions := Order.options_eq (s := s.settings) ho
    by_cases hblank : ∀ c ∈ o.script, Text.isBlank c = true
    · have h400 := convert_blank (s := s.settings) hposts ho hblank
      rw [h400]
      exact ⟨by simp [hrefused], fun _ => ⟨o.script, hscript, by simpa using hblank, by simp⟩⟩
    · have h200 := convert_script (s := s.settings) hposts ho (by simpa using hblank)
      rw [h200, hoptions]
      refine ⟨by simp [hrefused, Response.json], fun _ => ⟨o.script, hscript, ?_, fun _ => ?_⟩⟩
      · simpa [Response.json] using hblank
      · exact ⟨rfl, _, rfl, shows_ofConversion _⟩

def nullFormRequest : Request where
  method := "POST"
  path := Route.convert.path
  headers := [("content-type", "Application/JSON; charset=utf-8")]
  content := .json (.object [("script", " gs.a(1);\n"), ("formType", .null)])

theorem handle_convert_null_form :
    nullFormRequest.Posts [("script", " gs.a(1);\n"), ("formType", .null)] ∧
      ((Service.mk {} 20).handle nullFormRequest).response.status = 200 := by
  have hposts : nullFormRequest.Posts [("script", " gs.a(1);\n"), ("formType", .null)] := by
    refine ⟨rfl, rfl, rfl, ?_, rfl⟩
    intro t ht
    have hheader : nullFormRequest.header? "content-type" =
        some "Application/JSON; charset=utf-8" := rfl
    obtain rfl := Option.some.inj (hheader.symm.trans ht)
    decide +kernel
  obtain ⟨form, event, -, h⟩ := handle_convert (Service.mk {} 20)
  obtain ⟨hrefused, hserved⟩ := h _ _ hposts
  have hscript : Json.lookup "script" [("script", " gs.a(1);\n"), ("formType", .null)] =
      some (.text " gs.a(1);\n") := rfl
  have hform : Json.lookup "formType" [("script", " gs.a(1);\n"), ("formType", .null)] =
      some .null := rfl
  have hevent : Json.lookup "eventType" [("script", " gs.a(1);\n"), ("formType", .null)] =
      none := rfl
  have haccepted : ¬ Order.IsRefused [("script", " gs.a(1);\n"), ("formType", .null)] := by
    rintro (h | ⟨hset, -⟩ | ⟨hset, -⟩)
    · exact h _ hscript
    · exact hset (Or.inr hform)
    · exact hset (Or.inl hevent)
  obtain ⟨script, hlookup, hblank, hanswer⟩ := hserved haccepted
  refine ⟨hposts, (hanswer fun h400 => ?_).1⟩
  rw [hscript] at hlookup
  cases hlookup
  exact absurd (hblank.1 h400 'g' (by decide)) (by decide)

end Service

end GlideBridge
