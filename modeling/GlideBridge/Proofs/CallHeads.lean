import GlideBridge.Proofs.Getters

/-! The heads of calls with an argument behind them. The rule for such a call takes the argument
only up to the first closing parenthesis, but it writes what it has taken and a parenthesis at the
end of its template. So it turns the head into its translation, and the text behind the head stays
as it is. -/

namespace GlideBridge

open Text Catalog Pieces
open CallSpace (IsEnd)
open Shape (fits_plain fits_field)
open String (toList_ofList)

namespace CallHead

def index : CallHead → ℕ
  | log => 0
  | notify .info => 4
  | notify .error => 5
  | notify .warning => 6
  | alert => 9
  | setValue _ => 14
  | patchValue => 15
  | hideFieldMsg => 19
  | setVisible _ => 21
  | getReference _ => 28
  | setSectionDisplay _ => 31

def plainShapes : List Shape :=
  [⟨0, ["gs.log("], ["console.log("]⟩,
    ⟨4, ["gs.addInfoMessage("], ["ele.showNotification(\"info\", "]⟩,
    ⟨5, ["gs.addErrorMessage("], ["ele.showNotification(\"error\", "]⟩,
    ⟨6, ["gs.addWarningMessage("], ["ele.showNotification(\"warning\", "]⟩,
    ⟨9, ["alert("], ["ele.messageSnackbarService.showMessageSnackBar("]⟩,
    ⟨19, ["g_form.hideFieldMsg("], ["ele.hideFieldMessage("]⟩,
    ⟨21, ["g_form.setVisible(", .field 0, ", "], ["setFieldVisibility(\"", .field 0, "\", "]⟩,
    ⟨28, ["g_form.getReference(", .field 0, ", "], ["getFieldReference(\"", .field 0, "\", "]⟩,
    ⟨31, ["g_form.setSectionDisplay(", .field 0, ", "],
      ["setSectionVisibility(\"", .field 0, "\", "]⟩]

def accessShapes (form : Text) : List Shape :=
  [⟨14, ["g_form.setValue(", .field 0, ", "], fieldAccess form [".setValue("]⟩,
    ⟨15, ["g_form.patchValue("], formAccess form [".patchValue("]⟩]

def shapes (form : Text) : List Shape := plainShapes ++ accessShapes form

/-- Anything can stand behind a head. -/
def ends : List Text := [[]]

theorem allShapes_checks :
    ((plainShapes ++ FormType.all.flatMap fun f => accessShapes f.identifier).all fun s =>
      s.isCarried ends && s.isNeat) = true := by decide +kernel

theorem shapes_checks (f : FormType) :
    ∀ s ∈ shapes f.identifier, s.isCarried ends = true ∧ s.isNeat = true := by
  intro s hs
  rw [← Bool.and_eq_true]
  refine List.all_eq_true.1 allShapes_checks s ?_
  rcases List.mem_append.1 hs with hs | hs
  · exact List.mem_append_left _ hs
  · exact List.mem_append_right _ (List.mem_flatMap.2 ⟨f, f.mem_all, hs⟩)

theorem exists_shape (form : Text) (h : CallHead) :
    ∃ s ∈ shapes form, s.index = h.index ∧ s.Fits h.text (h.translation form) := by
  have hplain {i : ℕ} {s : Shape} (hs : plainShapes[i]? = some s) : s ∈ shapes form :=
    List.mem_append_left _ (List.mem_of_getElem? hs)
  have haccess {i : ℕ} {s : Shape} (hs : (accessShapes form)[i]? = some s) : s ∈ shapes form :=
    List.mem_append_right _ (List.mem_of_getElem? hs)
  have hone (t : Text) : t = [TemplatePart.text t].flatMap (·.fill []) := by simp
  cases h with
  | log => exact ⟨_, hplain (i := 0) rfl, rfl, fits_plain (hone _) (hone _)⟩
  | notify kind =>
    cases kind with
    | info => exact ⟨_, hplain (i := 1) rfl, rfl, fits_plain (hone _) (hone _)⟩
    | error => exact ⟨_, hplain (i := 2) rfl, rfl, fits_plain (hone _) (hone _)⟩
    | warning => exact ⟨_, hplain (i := 3) rfl, rfl, fits_plain (hone _) (hone _)⟩
  | alert => exact ⟨_, hplain (i := 4) rfl, rfl, fits_plain (hone _) (hone _)⟩
  | hideFieldMsg => exact ⟨_, hplain (i := 5) rfl, rfl, fits_plain (hone _) (hone _)⟩
  | setVisible f => exact ⟨_, hplain (i := 6) rfl, rfl, fits_field f rfl rfl⟩
  | getReference f => exact ⟨_, hplain (i := 7) rfl, rfl, fits_field f rfl rfl⟩
  | setSectionDisplay f => exact ⟨_, hplain (i := 8) rfl, rfl, fits_field f rfl rfl⟩
  | setValue f => exact ⟨_, haccess (i := 0) rfl, rfl, fits_field f rfl rfl⟩
  | patchValue => exact ⟨_, haccess (i := 1) rfl, rfl, fits_plain (hone _) rfl⟩

theorem idle_index (h : CallHead) : Idle h.index := by
  have hindex : ∀ g : Getter, g.index ∈ [1, 2, 3, 10, 11, 13, 25, 26, 27, 29] := by
    intro g
    cases g <;> simp [Getter.index]
  intro g hg
  have hmem := hg ▸ hindex g
  cases h with
  | notify kind => cases kind <;> simp [index] at hmem
  | _ => simp [index] at hmem

def stage (form : Text) (h : CallHead) (m : ℕ) : Text :=
  Shape.stage h.index h.text (h.translation form) m

section Steps

variable {f : FormType} {m : ℕ} {r : Rule} {x t : Text}

theorem carried (f : FormType) (h : CallHead) :
    Shape.Carried ends h.index h.text (h.translation f.identifier) := by
  obtain ⟨s, hs, hindex, hfits⟩ := h.exists_shape f.identifier
  obtain ⟨hcarried, hneat⟩ := shapes_checks f s hs
  exact ⟨s, hindex, hcarried, hneat, hfits⟩

theorem passes (hr : (convertingRules f.identifier)[m]? = some r) {h : CallHead}
    (hm : h.index ≠ m) (t : Text) : r.pattern.Passes (h.stage f.identifier m) t :=
  (h.carried f).passes (getElem?_convertingPatterns hr) hm
    ⟨[], List.mem_singleton.2 rfl, List.nil_prefix⟩

theorem neat_stage (f : FormType) (h : CallHead) (m : ℕ) : Neat (h.stage f.identifier m) :=
  (h.carried f).neat_stage m

/-- The rule for the call has a hit at the head, and goes on at `u`. It writes the translation of
the head, and the text behind the head stays, but for the end `e` that it takes behind the first
closing parenthesis. -/
structure ConvertsBy (form : Text) (h : CallHead) (x t : Text) (r : Rule) (hit : Hit)
    (u e w : Text) : Prop where
  rule : (convertingRules form)[h.index]? = some r
  takes : matchPieces r.pattern.steps (hit.taken ++ u) = some hit
  source : hit.taken ++ u = h.text ++ (x ++ ')' :: t)
  behind : u <:+ x ++ ')' :: t
  isEnd : IsEnd e
  rest : t = e ++ w
  target : r.fill hit ++ u = h.translation form ++ (x ++ ')' :: w)

def Converts (form : Text) (h : CallHead) (x t : Text) : Prop :=
  ∃ (r : Rule) (hit : Hit) (u e w : Text), ConvertsBy form h x t r hit u e w

variable {form : Text} {h : CallHead} {fields : List Text} {p : Pattern} {o taken : Text}

theorem converts_prefix (hr : (convertingRules form)[h.index]? = some r)
    (hm : Takes r.pattern.steps o []) (htext : h.text = o)
    (hfill : r.fill ⟨o, []⟩ = h.translation form) : Converts form h x t := by
  refine ⟨r, ⟨o, []⟩, x ++ ')' :: t, [], t, hr, hm _, ?_, List.suffix_rfl, Or.inl rfl, rfl, ?_⟩
  · rw [htext]
  · rw [hfill]

theorem append_open (ho : taken = o ++ ['(']) (v : Text) : taken ++ v = o ++ '(' :: v := by
  simp [ho]

theorem flatten_field (o : Text) (f : Field) (v : Text) :
    List.flatten [o, f.written, ", "] ++ v = o ++ (f.written ++ ',' :: ' ' :: v) := by
  have hsep : (", " : Text) = [',', ' '] := toList_ofList
  simp [hsep]

def argumentEnd (i : ℕ) : Template := [.field i, ")"]

theorem fill_argument (target : Template) (i : ℕ) {hit : Hit} (hf : hit.fields.getD i [] = x)
    (hr : r.template = target ++ argumentEnd i) :
    r.fill hit = target.flatMap (·.fill hit.fields) ++ (x ++ [')']) := by
  have hclose : (")" : Text) = [')'] := toList_ofList
  simp only [Rule.fill, hr, argumentEnd, List.flatMap_append, List.flatMap_cons, List.flatMap_nil,
    TemplatePart.fill_field, hf, TemplatePart.fill_text, hclose, List.append_nil]

theorem converts_argument {i : ℕ} (target : Template) (fields : List Text)
    (hr : (convertingRules form)[h.index]? = some r)
    (htemplate : r.template = target ++ argumentEnd i) (hf : fields.getD i [] = x)
    (htranslation : h.translation form = target.flatMap (·.fill fields))
    (hm : matchPieces r.pattern.steps (h.text ++ (x ++ ')' :: t)) =
      some ⟨h.text ++ (x ++ [')']), fields⟩) : Converts form h x t := by
  have htext : (h.text ++ (x ++ [')'])) ++ t = h.text ++ (x ++ ')' :: t) := by simp
  refine ⟨r, ⟨h.text ++ (x ++ [')']), fields⟩, t, [], t, hr, ?_, htext, ?_, Or.inl rfl, rfl, ?_⟩
  · rw [htext, hm]
  · exact ⟨x ++ [')'], by simp⟩
  · rw [fill_argument target i hf htemplate, htranslation]
    simp

theorem exists_match_semicolon (t : Text) : ∃ e w, IsEnd e ∧ t = e ++ w ∧
    matchPieces [.optional ';'] t = some ⟨e, []⟩ := by
  rcases t with _ | ⟨c, t⟩
  · exact ⟨[], [], Or.inl rfl, rfl, rfl⟩
  · by_cases hc : c = ';'
    · subst hc
      exact ⟨[';'], t, Or.inr rfl, rfl, matchPieces_optional_cons (h := ⟨[], []⟩) ';' rfl⟩
    · refine ⟨[], c :: t, Or.inl rfl, rfl, ?_⟩
      rw [matchPieces, if_neg hc]
      rfl

section Argument

variable (hne : x ≠ []) (hclose : ')' ∉ x)

include hne hclose

theorem converts_notify {opening template : Text} {ho : opening ≠ []}
    (hr : (convertingRules form)[h.index]? = some (notification opening ho template))
    (htext : h.text = opening ++ ['(']) (htranslation : h.translation form = template) (t : Text) :
    Converts form h x t := by
  obtain ⟨e, w, he, ht, hrest⟩ := exists_match_semicolon t
  have hm := match_opening (p := (notification opening ho template).pattern) (o := opening) rfl
    (match_notification hne hclose hrest)
  have hsplit : (opening ++ '(' :: (x ++ ')' :: e)) ++ w = opening ++ '(' :: (x ++ ')' :: t) := by
    simp [ht]
  refine ⟨_, ⟨opening ++ '(' :: (x ++ ')' :: e), [x]⟩, w, e, w, hr, ?_, ?_, ?_, he, ht, ?_⟩
  · rw [hsplit, hm]
  · rw [hsplit, htext]
    simp
  · exact ⟨x ++ ')' :: e, by simp [ht]⟩
  · rw [fill_argument [.text template] 0 (x := x) rfl rfl, htranslation]
    simp

theorem converts_field {f : Field} (hblank : ∀ c ∈ x.head?, isBlank c = false)
    (target : Template) (hr : (convertingRules form)[h.index]? = some r)
    (hp : r.pattern.pieces = fieldAndArgument) (htemplate : r.template = target ++ argumentEnd 1)
    (htext : h.text = List.flatten [r.pattern.opening, f.written, ", "])
    (htranslation : h.translation form = target.flatMap (·.fill [f.text, x])) (t : Text) :
    Converts form h x t := by
  have hhead : ∀ c ∈ (x ++ ')' :: t).head?, CharClass.blank.has c = false := by
    intro c hc
    rw [List.head?_append_of_ne_nil x hne] at hc
    exact hblank c hc
  refine converts_argument target [f.text, x] hr htemplate rfl htranslation ?_
  rw [htext, flatten_field, flatten_field]
  exact match_opening rfl (hp ▸ match_fieldAndArgument f hne hclose hhead)

theorem converts (form : Text) (h : CallHead) (hblank : ∀ c ∈ x.head?, isBlank c = false)
    (t : Text) : Converts form h x t := by
  cases h with
  | log =>
    exact converts_prefix (h := log) rfl (takes_log List.mem_cons_self)
      (opening_call toList_ofList toList_ofList) (List.append_nil _)
  | notify kind =>
    cases kind with
    | info => exact converts_notify hne hclose rfl (by decide +kernel) rfl t
    | error => exact converts_notify hne hclose rfl (by decide +kernel) rfl t
    | warning => exact converts_notify hne hclose rfl (by decide +kernel) rfl t
  | alert =>
    have htext (v : Text) : alert.text ++ v = "alert" ++ '(' :: v :=
      append_open (by decide +kernel : ("alert(" : Text) = "alert" ++ ['(']) v
    refine converts_argument (h := alert) (r := alertRule) (i := 0)
      ["ele.messageSnackbarService.showMessageSnackBar("] [x] rfl rfl rfl rfl ?_
    rw [htext, htext]
    exact match_opening rfl (match_alert hne hclose t)
  | patchValue =>
    exact converts_argument (h := patchValue) (i := 0) (formAccess form [".patchValue("]) [x]
      rfl rfl rfl rfl (match_opening rfl (match_lastArgument hne hclose t))
  | hideFieldMsg =>
    exact converts_argument (h := hideFieldMsg) (i := 0) ["ele.hideFieldMessage("] [x]
      rfl rfl rfl rfl (match_opening rfl (match_lastArgument hne hclose t))
  | setValue f =>
    exact converts_field (h := setValue f) hne hclose hblank (fieldAccess form [".setValue("])
      rfl rfl rfl rfl rfl t
  | setVisible f =>
    exact converts_field (h := setVisible f) hne hclose hblank
      ["setFieldVisibility(\"", .field 0, "\", "] rfl rfl rfl rfl rfl t
  | setSectionDisplay f =>
    exact converts_field (h := setSectionDisplay f) hne hclose hblank
      ["setSectionVisibility(\"", .field 0, "\", "] rfl rfl rfl rfl rfl t
  | getReference f =>
    exact converts_field (h := getReference f) hne hclose hblank
      ["getFieldReference(\"", .field 0, "\", "] rfl rfl rfl rfl rfl t

end Argument

end Steps

end CallHead

end GlideBridge
