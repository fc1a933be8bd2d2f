import GlideBridge.Proofs.OpenText
import GlideBridge.Proofs.Report

/-! The form shows in a handler only as the root of accessors. Only the first rules for form calls
write the form. What they and all rules behind them do to an open text is again an open text,
because no hit begins inside an accessor and every pattern meets an accessor as a whole. -/

namespace GlideBridge

namespace OpenText

variable {form : Text}

theorem dot_not_mem (hf : IsRoot form) : '.' ∉ form := fun hm => (hf.plain _ hm).2 (by simp)

theorem suffix_root {v : Text} (hv : 'g' :: v <:+ accessor form) :
    ∃ w, 'g' :: v = w ++ ['.'] ∧ w <:+ form := by
  simp only [accessor, List.cons_append, List.nil_append, List.suffix_cons_iff, List.cons.injEq,
    Char.reduceEq, false_and, false_or] at hv
  exact (List.suffix_concat_iff.1 hv).resolve_left (by simp)

theorem not_prefix_of_suffix {o v t : Text} (ho : '.' ∉ o) (hhead : o.head? = some 'g')
    (hf : IsRoot form) (hform : ¬ o <:+ form) (hv : v <:+ accessor form) (hne : v ≠ []) :
    ¬ o ++ ['.'] <+: v ++ t := by
  rintro ⟨u, hu⟩
  obtain ⟨d, v, rfl⟩ := List.exists_cons_of_ne_nil hne
  have hd : d = 'g' := by
    have := congrArg List.head? hu
    simpa [hhead] using this.symm
  subst hd
  obtain ⟨w, hw, hwf⟩ := suffix_root hv
  rw [hw, List.append_assoc, List.append_assoc] at hu
  have hdot : '.' ∉ w := fun hm => dot_not_mem hf (hwf.subset hm)
  exact hform (Text.eq_of_append_cons ho hdot hu ▸ hwf)

/-- What the openings of the catalog have in common: none of them begins inside an accessor. -/
def opensOutside : Text → Bool
  | [] => false
  | d :: w => isOutside d || ['g', 's', '.'].isPrefixOf (d :: w) ||
      ['g', '_', 'f', 'o', 'r', 'm', '.'].isPrefixOf (d :: w)

theorem no_match_of_opensOutside {w : Text} (hw : opensOutside w = true) (ps : List Piece)
    (hf : IsRoot form) {v : Text} (hv : v <:+ accessor form) (hne : v ≠ []) (t : Text) :
    matchPieces (.literal w :: ps) (v ++ t) = none := by
  rw [Option.eq_none_iff_forall_ne_some]
  intro h hm
  obtain ⟨u, -, hu, -⟩ := matchPieces_literal_eq_some_iff.1 hm
  cases w with
  | nil => cases hw
  | cons d w =>
    simp only [opensOutside, Bool.or_eq_true, List.isPrefixOf_iff_prefix] at hw
    have hpre : d :: w <+: v ++ t := ⟨u, hu.symm⟩
    rcases hw with (hw | hw) | hw
    · obtain ⟨e, v, rfl⟩ := List.exists_cons_of_ne_nil hne
      obtain ⟨rfl, -⟩ := List.cons_prefix_cons.1 hpre
      exact accessor_takes hf hw _ (hv.subset List.mem_cons_self) rfl
    · exact not_prefix_of_suffix (o := ['g', 's']) (by decide) rfl hf hf.not_system hv hne
        (hw.trans hpre)
    · exact not_prefix_of_suffix (o := ['g', '_', 'f', 'o', 'r', 'm']) (by decide) rfl hf
        hf.not_form hv hne (hw.trans hpre)

structure Alike (r : Text → Rule) (p : Pattern) : Prop where
  pattern : ∀ form, (r form).pattern = p
  fill : ∀ fields : List OpenText, ∃ u, ∀ form,
    (r form).template.flatMap (·.fill (fields.map (close form))) = close form u

def meetsWhole (p : Pattern) : Bool :=
  !p.lineStart && isSteady p.steps && opensOutside p.opening

theorem isRoot_nil : IsRoot [] := ⟨by simp, by simp, by simp⟩

theorem exists_apply_close {r : Text → Rule} {p : Pattern} (hr : Alike r p)
    (hp : meetsWhole p = true) (t : OpenText) :
    ∃ u, ∀ form, IsRoot form → (r form).apply (close form t) = close form u := by
  simp only [meetsWhole, Bool.and_eq_true, Bool.not_eq_true'] at hp
  obtain ⟨⟨hline, hsteady⟩, hopen⟩ := hp
  have inline (form : Text) : (r form).pattern.lineStart = false := by rw [hr.pattern, hline]
  -- on the length: a hit takes several characters and accessors at once
  induction hn : t.length using Nat.strongRecOn generalizing t with
  | ind n ih =>
    rcases t with _ | ⟨_ | c, t⟩
    · exact ⟨[], fun form _ => rfl⟩
    · -- no hit begins inside an accessor, so the gap stays
      obtain ⟨u, hu⟩ := ih t.length (by simp [← hn]) t rfl
      refine ⟨none :: u, fun form hf => ?_⟩
      rw [close_gap, close_gap, ← hu form hf]
      refine Rule.apply_append_of_no_hit (inline form) fun v hv hne => ?_
      rw [hr.pattern]
      exact no_match_of_opensOutside hopen _ hf hv hne _
    · rcases settled_matchPieces hsteady (some c :: t) with hm | ⟨taken, rest, fields, ht, hm⟩
      · obtain ⟨u, hu⟩ := ih t.length (by simp [← hn]) t rfl
        refine ⟨some c :: u, fun form hf => ?_⟩
        have hnone : matchPieces (r form).pattern.steps (c :: close form t) = none := by
          rw [hr.pattern]
          exact hm form hf
        rw [close_char, close_char, Rule.apply_kept (inline form) hnone, hu form hf]
      · have htaken : taken ≠ [] := by
          have hne := Pattern.taken_ne_nil (hm [] isRoot_nil)
          exact fun he => hne (close_eq_nil_iff.2 he)
        have hlen : rest.length < n := by
          have := List.length_pos_of_ne_nil htaken
          rw [← hn, ht, List.length_append]
          omega
        obtain ⟨u, hu⟩ := ih rest.length hlen rest rfl
        obtain ⟨w, hw⟩ := hr.fill fields
        refine ⟨w ++ u, fun form hf => ?_⟩
        have hhit : matchPieces (r form).pattern.steps (close form taken ++ close form rest) =
            some ⟨close form taken, fields.map (close form)⟩ := by
          rw [hr.pattern, ← close_append, ← ht]
          exact hm form hf
        rw [ht, close_append, close_append, ← hw form, ← hu form hf]
        exact Rule.apply_hit (h := ⟨close form taken, _⟩) (inline form) hhit

theorem exists_run_close {rs : List (Text → Rule)}
    (hrs : ∀ r ∈ rs, ∃ p, Alike r p ∧ meetsWhole p = true) (t : OpenText) :
    ∃ u, ∀ form, IsRoot form → Rule.run (rs.map (· form)) (close form t) = close form u := by
  induction rs generalizing t with
  | nil => exact ⟨t, fun _ _ => rfl⟩
  | cons r rs ih =>
    obtain ⟨⟨p, hr, hp⟩, hrs⟩ := List.forall_mem_cons.1 hrs
    obtain ⟨u, hu⟩ := exists_apply_close hr hp t
    obtain ⟨v, hv⟩ := ih hrs u
    refine ⟨v, fun form hf => ?_⟩
    rw [← hv form hf, ← hu form hf]
    rfl

theorem exists_apply_plain {r : Text → Rule} {p : Pattern} (hr : Alike r p) (t : Text) :
    ∃ u, ∀ form, (r form).apply t = close form u := by
  simp only [Rule.apply, hr.pattern]
  induction p.scan t with
  | nil => exact ⟨[], fun _ => rfl⟩
  | cons s ss ih =>
    obtain ⟨u, hu⟩ := ih
    cases s with
    | kept c =>
      refine ⟨some c :: u, fun form => ?_⟩
      rw [List.flatMap_cons, hu form]
      rfl
    | hit h =>
      obtain ⟨w, hw⟩ := hr.fill (h.fields.map (·.map some))
      refine ⟨w ++ u, fun form => ?_⟩
      have hfields : (h.fields.map (·.map some)).map (close form) = h.fields := by
        simp [Function.comp_def, close_map_some]
      have hfill := hw form
      rw [hfields] at hfill
      rw [List.flatMap_cons, hu form, close_append, ← hfill]
      rfl

def fill (fields : List OpenText) : TemplatePart → OpenText
  | .text w => w.map some
  | .field i => fields.getD i []

theorem close_fill (form : Text) (fields : List OpenText) (template : Template) :
    template.flatMap (·.fill (fields.map (close form))) =
      close form (template.flatMap (fill fields)) := by
  induction template with
  | nil => rfl
  | cons q template ih =>
    rw [List.flatMap_cons, List.flatMap_cons, close_append, ih]
    cases q with
    | text w => rw [TemplatePart.fill_text, fill, close_map_some]
    | field i =>
      rw [TemplatePart.fill_field, fill, List.getD_eq_getElem?_getD, List.getD_eq_getElem?_getD,
        List.getElem?_map]
      cases fields[i]? <;> rfl

theorem alike_const (r : Rule) : Alike (fun _ => r) r.pattern :=
  ⟨fun _ => rfl, fun fields => ⟨_, fun form => close_fill form fields r.template⟩⟩

def accessRule (p : Pattern) (access : Template) (form : Text) : Rule :=
  ⟨p, Catalog.formAccess form access⟩

theorem alike_accessRule (p : Pattern) (w : Text) (access : Template) :
    Alike (accessRule p (.text ('.' :: w) :: access)) p := by
  refine ⟨fun _ => rfl, fun fields => ?_⟩
  refine ⟨none :: (w.map some ++ access.flatMap (fill fields)), fun form => ?_⟩
  have hroot : "ele.".toList = ['e', 'l', 'e', '.'] := String.toList_ofList
  rw [close_gap, close_append, close_map_some, ← close_fill, accessRule,
    Catalog.formAccess]
  simp only [List.flatMap_cons, TemplatePart.fill_text, hroot, accessor, List.append_assoc,
    List.cons_append, List.nil_append]

/-- The patterns for form calls whose templates address the form, and what their templates write
behind it. -/
def accesses : List (Pattern × Template) :=
  (Catalog.accessRules []).map fun r => (r.pattern, r.template.drop 2)

theorem accessRules_eq (form : Text) :
    Catalog.accessRules form = accesses.map fun a => accessRule a.1 a.2 form := rfl

def opensWithDot : Template → Bool
  | .text ('.' :: _) :: _ => true
  | _ => false

theorem accesses_openWithDot : accesses.all (fun a => opensWithDot a.2) = true := by
  decide +kernel

def laterPatterns : List Pattern :=
  accesses.tail.map (·.1) ++ (Catalog.fixedRules ++ Catalog.closingRules).map (·.pattern)

theorem laterPatterns_meetWhole : laterPatterns.all meetsWhole = true := by decide +kernel

theorem accesses_tail_meetWhole : ∀ a ∈ accesses.tail, meetsWhole a.1 = true := by
  intro a ha
  refine List.all_eq_true.1 laterPatterns_meetWhole a.1 (List.mem_append_left _ ?_)
  exact List.mem_map_of_mem ha

theorem rules_meetWhole :
    ∀ r ∈ Catalog.fixedRules ++ Catalog.closingRules, meetsWhole r.pattern = true := by
  intro r hr
  refine List.all_eq_true.1 laterPatterns_meetWhole r.pattern (List.mem_append_right _ ?_)
  exact List.mem_map_of_mem hr

theorem alike_of_mem_accesses {a : Pattern × Template} (ha : a ∈ accesses) :
    Alike (accessRule a.1 a.2) a.1 := by
  have h := List.all_eq_true.1 accesses_openWithDot a ha
  obtain ⟨p, access⟩ := a
  unfold opensWithDot at h
  split at h
  · next w rest heq =>
    obtain rfl : access = .text ('.' :: w) :: rest := heq
    exact alike_accessRule p w rest
  · cases h

theorem exists_run_const {rs : List Rule} (hrs : ∀ r ∈ rs, meetsWhole r.pattern = true)
    (t : OpenText) : ∃ u, ∀ form, IsRoot form → Rule.run rs (close form t) = close form u := by
  have hconst : ∀ f ∈ rs.map fun r (_ : Text) => r, ∃ p, Alike f p ∧ meetsWhole p = true := by
    intro f hf
    obtain ⟨r, hr, rfl⟩ := List.mem_map.1 hf
    exact ⟨r.pattern, alike_const r, hrs r hr⟩
  obtain ⟨u, hu⟩ := exists_run_close hconst t
  refine ⟨u, fun form hf => ?_⟩
  rw [← hu form hf, List.map_map]
  exact congrArg (Rule.run · (close form t)) (List.map_id rs).symm

theorem exists_run_accessRules (t : Text) :
    ∃ u, ∀ form, IsRoot form → Rule.run (Catalog.accessRules form) t = close form u := by
  obtain ⟨a, as, haccesses⟩ : ∃ a as, accesses = a :: as := ⟨_, _, rfl⟩
  have hmeet := accesses_tail_meetWhole
  rw [haccesses, List.tail_cons] at hmeet
  have hmem (b : Pattern × Template) (hb : b ∈ a :: as) : Alike (accessRule b.1 b.2) b.1 :=
    alike_of_mem_accesses (haccesses ▸ hb)
  obtain ⟨u, hu⟩ := exists_apply_plain (hmem a List.mem_cons_self) t
  have hrest : ∀ f ∈ as.map fun b => accessRule b.1 b.2, ∃ p, Alike f p ∧ meetsWhole p = true := by
    intro f hf
    obtain ⟨b, hb, rfl⟩ := List.mem_map.1 hf
    exact ⟨b.1, hmem b (List.mem_cons_of_mem a hb), hmeet b hb⟩
  obtain ⟨v, hv⟩ := exists_run_close hrest u
  refine ⟨v, fun form hf => ?_⟩
  rw [← hv form hf, ← hu form, accessRules_eq, haccesses, List.map_map]
  rfl

theorem documented_rules_eq (form : Text) : (Catalog.documented form).flatMap (·.rules) =
    Catalog.earlyRules ++ (Catalog.accessRules form ++ Catalog.fixedRules) := rfl

theorem exists_documented_close (source : Text) :
    ∃ u, ∀ form, IsRoot form → Conversion.documented form source = close form u := by
  obtain ⟨u, hu⟩ := exists_run_accessRules (Rule.run Catalog.earlyRules (Handler.unwrap source))
  obtain ⟨v, hv⟩ := exists_run_const (fun r hr => rules_meetWhole r (List.mem_append_left _ hr)) u
  refine ⟨v, fun form hf => ?_⟩
  rw [Conversion.documented, Catalog.applyAll_eq_run, documented_rules_eq, Rule.run_append,
    Rule.run_append, hu form hf, hv form hf]

theorem body_eq_run (form source : Text) :
    Conversion.body form source =
      Rule.run Catalog.closingRules (Conversion.documented form source) := by
  rw [Conversion.body, Catalog.applyAll_eq_run]
  rfl

theorem eq_map_some_of_close {t : OpenText} (h : (close form t).count '.' ≤ 1) :
    ∃ w : Text, t = w.map some := by
  induction t with
  | nil => exact ⟨[], rfl⟩
  | cons x t ih =>
    cases x with
    | none =>
      simp only [close_gap, accessor, List.count_append, List.count_cons, List.count_nil] at h
      simp at h
      omega
    | some c =>
      rw [close_char, List.count_cons] at h
      obtain ⟨w, rfl⟩ := ih (by omega)
      exact ⟨c :: w, rfl⟩

theorem count_dot_callText {s : CallSpace} {name : Text} (hn : CallSpace.IsName name) :
    (s.callText name).count '.' = 1 := by
  have hname : name.count '.' = 0 := by
    refine List.count_eq_zero.2 fun hm => ?_
    exact absurd (hn.2 _ hm) (by decide)
  cases s <;> simp [CallSpace.callText, CallSpace.opening, hname]

theorem exists_callAt?_close (s : CallSpace) (t : OpenText) :
    ∃ call, ∀ form, IsRoot form → s.callAt? (close form t) = call := by
  have hsteady : isSteady s.pattern.steps = true := by
    rw [CallSpace.pattern_steps]
    cases s <;> decide
  rcases settled_matchPieces hsteady t with hm | ⟨taken, rest, fields, -, hm⟩
  · exact ⟨none, fun form hf => by simp only [CallSpace.callAt?, hm form hf, Option.map_none]⟩
  · obtain ⟨name, hn, -, hh⟩ := CallSpace.match_eq_some_iff.1 (hm [] isRoot_nil)
    have hcount : (close [] taken).count '.' ≤ 1 := by
      have htaken : close [] taken = s.callText name := (Hit.mk.inj hh).1
      exact htaken ▸ Nat.le_of_eq (count_dot_callText hn)
    obtain ⟨w, rfl⟩ := eq_map_some_of_close hcount
    refine ⟨some w.dropLast, fun form hf => ?_⟩
    simp only [CallSpace.callAt?, hm form hf, Option.map_some, close_map_some]

theorem exists_calls_close (s : CallSpace) (t : OpenText) :
    ∃ calls, ∀ form, IsRoot form → s.calls (close form t) = calls := by
  induction t with
  | nil => exact ⟨[], fun _ _ => rfl⟩
  | cons x t ih =>
    obtain ⟨calls, hcalls⟩ := ih
    cases x with
    | some c =>
      obtain ⟨call, hcall⟩ := exists_callAt?_close s (some c :: t)
      refine ⟨call.toList ++ calls, fun form hf => ?_⟩
      rw [← hcall form hf, ← hcalls form hf]
      rfl
    | none =>
      refine ⟨calls, fun form hf => ?_⟩
      rw [close_gap, ← hcalls form hf]
      refine CallSpace.calls_append_of_not_starts fun v hv hne hs => ?_
      have hopen : opensOutside s.pattern.opening = true := by
        rw [CallSpace.pattern_opening]
        cases s <;> decide
      rw [← Classical.not_not (a := s.Starts _), ← CallSpace.match_eq_none_iff] at hs
      exact hs (no_match_of_opensOutside hopen _ hf hv hne _)

theorem close_indent (unit : Text) (hf : IsRoot form) (t : OpenText) :
    (close form t).flatMap (fun c => if c = '\n' then '\n' :: unit else [c]) =
      close form
        (t.flatMap fun x => if x = some '\n' then some '\n' :: unit.map some else [x]) := by
  induction t with
  | nil => rfl
  | cons x t ih =>
    rw [List.flatMap_cons, close_append, ← ih]
    cases x with
    | some c =>
      rw [close_char, List.flatMap_cons]
      by_cases hc : c = '\n'
      · rw [if_pos hc, if_pos (by rw [hc]), close_char, close_map_some]
      · rw [if_neg hc, if_neg (by simpa using hc)]
        rfl
    | none =>
      -- an accessor is on one line
      have hline : ∀ c ∈ accessor form, c ≠ '\n' := by
        rintro c hc rfl
        rcases mem_accessor hc with hm | hm
        · exact absurd hm (by decide)
        · exact absurd (hf.plain _ hm).1 (by decide)
      have hsame : (accessor form).flatMap (fun c => if c = '\n' then '\n' :: unit else [c]) =
          accessor form := by
        rw [List.flatMap_congr fun c hc => if_neg (hline c hc), List.flatMap_singleton']
      rw [close_gap, List.flatMap_append, hsame, if_neg (by simp), close_gap, close_nil,
        List.append_nil]

theorem exists_output_close (o : Options) (source : Text) : ∃ u, ∀ form, IsRoot form →
    (convert { o with form := form } source).output = close form u := by
  obtain ⟨t, ht⟩ := exists_documented_close source
  obtain ⟨u, hu⟩ := exists_run_const (fun r hr => rules_meetWhole r (List.mem_append_right _ hr)) t
  refine ⟨(Handler.heading (EventType.handlerNameFor o.event)).map some ++ (some '\n' ::
    (o.unit.map some ++ (u.flatMap fun x =>
      if x = some '\n' then some '\n' :: o.unit.map some else [x])) ++ [some '\n', some '}']),
    fun form hf => ?_⟩
  have hbody : Conversion.body form source = close form u := by
    rw [body_eq_run, ht form hf, hu form hf]
  rw [Conversion.output_eq, hbody, Text.indent_eq, close_indent o.unit hf]
  simp only [close_append, close_map_some, close_char, close_nil, List.cons_append]

theorem exists_parts (t : OpenText) : ∃ (part : Text) (parts : List Text),
    ∀ form, close form t = Text.joinWith form (part :: parts) := by
  induction t with
  | nil => exact ⟨[], [], fun _ => rfl⟩
  | cons x t ih =>
    obtain ⟨part, parts, ht⟩ := ih
    cases x with
    | some c =>
      refine ⟨c :: part, parts, fun form => ?_⟩
      rw [close_char, ht form]
      cases parts <;> simp [Text.joinWith]
    | none =>
      refine ⟨['e', 'l', 'e', '.'], ('.' :: part) :: parts, fun form => ?_⟩
      rw [close_gap, ht form]
      cases parts <;> simp [Text.joinWith, accessor]

end OpenText

open OpenText

/-- Handlers for two forms differ only in the roots of their accessors, and leave the same calls
over. -/
theorem convert_form (o : Options) (source : Text) :
    ∃ (parts leftovers : List Text) (name : Text), parts ≠ [] ∧ ∀ form, IsRoot form →
      (convert { o with form := form } source).output = Text.joinWith form parts ∧
      (convert { o with form := form } source).leftovers = leftovers ∧
      (convert { o with form := form } source).functionName = name := by
  obtain ⟨u, hu⟩ := exists_output_close o source
  obtain ⟨part, parts, hparts⟩ := exists_parts u
  obtain ⟨t, ht⟩ := exists_documented_close source
  obtain ⟨formCalls, hform⟩ := exists_calls_close .form t
  obtain ⟨systemCalls, hsystem⟩ := exists_calls_close .system t
  refine ⟨part :: parts, formCalls ++ systemCalls, EventType.handlerNameFor o.event, by simp,
    fun form hf => ⟨?_, ?_, rfl⟩⟩
  · rw [hu form hf, hparts form]
  · rw [convert, CallSpace.leftoverCalls_eq, ht form hf, hform form hf, hsystem form hf]

theorem isRoot_identifier (f : FormType) : IsRoot f.identifier := by
  cases f <;> exact ⟨by decide +kernel, by decide +kernel, by decide +kernel⟩

theorem convert_form_backslash :
    IsRoot ['a', '\\', '1'] ∧ IsRoot FormType.mainFormGroup.identifier ∧
      ∃ parts : List Text,
        (convert { form := ['a', '\\', '1'] }
          "g_form.patchValue(g_form.getValue('y')); gs.b(1)").output =
          Text.joinWith ['a', '\\', '1'] parts ∧
        (convert { form := FormType.mainFormGroup.identifier }
            "g_form.patchValue(g_form.getValue('y')); gs.b(1)").output =
          Text.joinWith FormType.mainFormGroup.identifier parts := by
  have hroot : IsRoot ['a', '\\', '1'] := ⟨by decide, by decide, by decide⟩
  have hmain := isRoot_identifier .mainFormGroup
  obtain ⟨parts, _, _, -, h⟩ := convert_form {} "g_form.patchValue(g_form.getValue('y')); gs.b(1)"
  exact ⟨hroot, hmain, parts, (h _ hroot).1, (h _ hmain).1⟩

end GlideBridge
