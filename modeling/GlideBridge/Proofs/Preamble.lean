import GlideBridge.Proofs.Shapes

/-! Lines in front of the first call. Each rule looks for a text that begins with one of six
beginnings and goes over no line break, so the lines in front of the first of these beginnings are
passed over, and what stands in them does not change what the rules do behind them. -/

namespace GlideBridge

namespace Catalog

def beginnings : List Text := ["gs.", "g_form.", "alert", "current.", "workflow.", "var"]

theorem convertingPatterns_begin : (convertingPatterns.all fun p =>
    !p.lineStart && !p.opening.contains '\n' &&
      beginnings.any (·.isPrefixOf p.opening)) = true := by
  decide +kernel

theorem begins_of_mem {q : Pattern} (hq : q ∈ convertingPatterns) :
    q.lineStart = false ∧ '\n' ∉ q.opening ∧ ∃ w ∈ beginnings, w <+: q.opening := by
  have h := List.all_eq_true.1 convertingPatterns_begin q hq
  simp only [Bool.and_eq_true, Bool.not_eq_true', List.contains_eq_mem, decide_eq_false_iff_not,
    List.any_eq_true, List.isPrefixOf_iff_prefix] at h
  exact ⟨h.1.1, h.1.2, h.2⟩

/-- Whole lines with none of the beginnings in them. -/
structure IsPreamble (p : Text) : Prop where
  quiet : ∀ w ∈ beginnings, ¬ w <:+: p
  lines : p = [] ∨ p.getLast? = some '\n'

theorem IsPreamble.matchPieces_eq_none {p : Text} (hp : IsPreamble p) {q : Pattern}
    (hline : '\n' ∉ q.opening) (hq : ∃ w ∈ beginnings, w <+: q.opening) {v : Text} (hv : v <:+ p)
    (hne : v ≠ []) (t : Text) : matchPieces q.steps (v ++ t) = none := by
  rw [Option.eq_none_iff_forall_ne_some]
  intro h hm
  obtain ⟨u, -, hu, -⟩ := matchPieces_literal_eq_some_iff.1 hm
  obtain ⟨w, hw, hwq⟩ := hq
  obtain ⟨x, rfl⟩ := hv
  have hlast : (x ++ v).getLast? = some '\n' :=
    hp.lines.resolve_left fun h => hne (List.append_eq_nil_iff.1 h).2
  rw [List.getLast?_append_of_ne_nil x hne] at hlast
  obtain ⟨l, rfl⟩ := List.getLast?_eq_some_iff.1 hlast
  -- The opening goes over no line break, so it would end within the last line of the preamble.
  have hopening : q.opening <+: l ++ '\n' :: t := ⟨u, by simpa using hu.symm⟩
  have hprefix : w <+: l := hwq.trans ((Text.prefix_append_cons_iff hline l t).1 hopening)
  refine hp.quiet w hw ?_
  exact hprefix.isInfix.trans ⟨x, ['\n'], by simp⟩

theorem IsPreamble.apply_append {p : Text} (hp : IsPreamble p) {form : Text} {r : Rule}
    (hr : r ∈ convertingRules form) (t : Text) : r.apply (p ++ t) = p ++ r.apply t := by
  have hmem : r.pattern ∈ convertingPatterns := by
    rw [← convertingRules_patterns form]
    exact List.mem_map_of_mem hr
  obtain ⟨hinline, hline, hbegin⟩ := begins_of_mem hmem
  exact Rule.apply_append_of_no_hit hinline fun v hv hne =>
    hp.matchPieces_eq_none hline hbegin hv hne t

theorem IsPreamble.run_append {p : Text} (hp : IsPreamble p) {form : Text} {rs : List Rule}
    (hrs : rs ⊆ convertingRules form) (t : Text) : Rule.run rs (p ++ t) = p ++ Rule.run rs t := by
  induction rs generalizing t with
  | nil => rfl
  | cons r rs ih =>
    rw [List.cons_subset] at hrs
    rw [Rule.run_cons, Rule.run_cons, hp.apply_append hrs.1, ih hrs.2]

theorem IsPreamble.calls_append {p : Text} (hp : IsPreamble p) (s : CallSpace) (t : Text) :
    s.calls (p ++ t) = s.calls t := by
  refine CallSpace.calls_append_of_not_starts fun v hv hne => ?_
  rw [← CallSpace.match_eq_none_iff]
  refine hp.matchPieces_eq_none ?_ ⟨s.opening, ?_, s.pattern_opening ▸ List.prefix_rfl⟩ hv hne t
  · rw [s.pattern_opening]
    cases s <;> decide
  · cases s <;> decide +kernel

theorem rules_append_leftoverGroup (form : Text) :
    (documented form ++ [leftoverGroup]).flatMap (·.rules) = convertingRules form := rfl

/-- A preamble stays in front, and behind it the groups do what they do without it, each by itself
and all of them one after the other. So does the list of the calls that are left over. -/
theorem groups_append_preamble (form : Text) {p : Text} (hp : IsPreamble p) (t : Text) :
    (∀ g ∈ documented form ++ [leftoverGroup], g.apply (p ++ t) = p ++ g.apply t) ∧
      applyAll (documented form ++ [leftoverGroup]) (p ++ t) =
        p ++ applyAll (documented form ++ [leftoverGroup]) t ∧
      leftoverCalls (p ++ t) = leftoverCalls t := by
  refine ⟨fun g hg => ?_, ?_, ?_⟩
  · have hrules : g.rules ⊆ convertingRules form := fun r hr => by
      rw [← rules_append_leftoverGroup]
      exact List.mem_flatMap.2 ⟨g, hg, hr⟩
    exact hp.run_append hrules t
  · rw [applyAll_eq_run, applyAll_eq_run, rules_append_leftoverGroup]
    exact hp.run_append (List.Subset.refl _) t
  · rw [CallSpace.leftoverCalls_eq, CallSpace.leftoverCalls_eq, hp.calls_append, hp.calls_append]

theorem groups_append_preamble_comment :
    IsPreamble "// sets g_form, gs\nlet x = (1;\n" ∧
      applyAll (documented "a\\1" ++ [leftoverGroup]) ("// sets g_form, gs\nlet x = (1;\n".toList ++
          "g_form.getValue('f');gs.a(1)".toList) =
        "// sets g_form, gs\nlet x = (1;\nele.a\\1.get(\"f\").value;// gs.a(1)".toList := by
  have hp : IsPreamble "// sets g_form, gs\nlet x = (1;\n" :=
    ⟨by decide +kernel, by decide +kernel⟩
  refine ⟨hp, (groups_append_preamble "a\\1" hp _).2.1.trans ?_⟩
  decide +kernel

end Catalog

end GlideBridge
