import GlideBridge.Proofs.Callees
import GlideBridge.Proofs.Report
import GlideBridge.Proofs.Sites

/-! Accesses to the current record and to its workflow. The rules for them and for declarations
leave none in any text, and no rule behind them brings one back: where kept characters could run
on into what a template writes, they ran on into the opening of the rule before, and then there
was an access already. -/

namespace GlideBridge

open Text Pieces

namespace Catalog

def access (root : Text) : List Piece := [.literal (root ++ ['.']), .field .word]

theorem steps_recordRule (o : RecordName) : o.rule.pattern.steps = access o.word := by
  rw [Pattern.steps, o.rule_opening]
  cases o <;> rfl

theorem not_infix_of_free {root t : Text} (ht : Free (access root) t) {c : Char}
    (hc : CharClass.isWord c = true) : ¬ root ++ ['.', c] <:+: t := by
  rintro ⟨x, y, rfl⟩
  have hv : root ++ ['.', c] ++ y = (root ++ ['.']) ++ c :: y := by simp
  have hfree := free_iff.1 ht (root ++ ['.', c] ++ y) ⟨x, by simp⟩ (by simp)
  rw [hv, access, reads_literal_append, reads_field_cons, Bool.and_eq_false_iff] at hfree
  exact hfree.elim (by simp [CharClass.has, hc]) fun h => by
    rw [reads_of_done rfl] at h
    cases h

def sparesAccess (r : Rule) : Bool :=
  [currentWord, workflowWord].all fun root => Rule.spares (access root) r

theorem rules_spare :
    recordGroup.rules.all sparesAccess = true ∧
      Rule.spares declarationRule.pattern.steps declarationRule = true ∧
      (fixedRules ++ leftoverGroup.rules).all sparesAccess = true := by decide +kernel

theorem accessRules_spare (f : FormType) : (accessRules f.identifier).all sparesAccess = true := by
  cases f <;> decide +kernel

theorem free_run_access {rs : List Rule} (hrs : rs.all sparesAccess = true) {root t : Text}
    (hroot : root ∈ [currentWord, workflowWord]) (ht : Free (access root) t) :
    Free (access root) (Rule.run rs t) := by
  refine Rule.free_run (List.all_eq_true.2 fun r hr => ?_) ht
  exact List.all_eq_true.1 (List.all_eq_true.1 hrs r hr) root hroot

theorem sparesAccess_of_mem {r : Rule} (hr : r ∈ recordGroup.rules) {root : Text}
    (hroot : root ∈ [currentWord, workflowWord]) : Rule.spares (access root) r = true :=
  List.all_eq_true.1 (List.all_eq_true.1 rules_spare.1 r hr) root hroot

theorem lineEnd_not_mem_access (root : Text) : .lineEnd ∉ access root := by simp [access]

theorem free_access_of_spells {root : Text} {ps : List Piece} {h : Hit} (hs : Spells ps h)
    (hk : ∀ k, .field k ∈ ps → k = .word) : ∀ f ∈ h.fields, Free (access root) f := by
  intro f hf
  refine free_of_not_mem (lineEnd_not_mem_access root) (w := root ++ ['.']) (c := '.')
    List.mem_cons_self (by simp) fun hdot => ?_
  exact absurd (hs.has_of_mem_fields hk f hf '.' hdot) (by decide)

theorem free_access_apply {r : Rule} {root : Text} (hsteps : r.pattern.steps = access root)
    (hr : Rule.spares (access root) r = true) (t : Text) : Free (access root) (r.apply t) := by
  have h := Rule.free_steps_apply (r := r)
  rw [hsteps] at h
  exact h hr (lineEnd_not_mem_access root)
    (fun g hg => free_access_of_spells hg (by simp [access])) t

theorem lineEnd_not_mem_declaration : .lineEnd ∉ declarationRule.pattern.steps := by
  simp [Pattern.steps, declarationRule]

theorem free_declarationRule_apply (t : Text) :
    Free declarationRule.pattern.steps (declarationRule.apply t) := by
  refine Rule.free_steps_apply rules_spare.2.1 lineEnd_not_mem_declaration ?_ t
  intro h hs f hf
  have hmem : Piece.literal "GlideRecord(".toList ∈ declarationRule.pattern.steps := by
    simp [Pattern.steps, declarationRule]
  refine free_of_not_mem lineEnd_not_mem_declaration hmem (c := '(') (by decide) fun hc => ?_
  have hword :=
    hs.has_of_mem_fields (k := .word) (by simp [Pattern.steps, declarationRule]) f hf '(' hc
  exact absurd hword (by decide)

theorem recordGroup_free (t : Text) :
    (∀ root ∈ [currentWord, workflowWord], Free (access root) (recordGroup.apply t)) ∧
      Free declarationRule.pattern.steps (recordGroup.apply t) := by
  have hrules : recordGroup.apply t =
      declarationRule.apply (workflowRule.apply (currentRule.apply t)) := rfl
  have hrecord (o : RecordName) (u : Text) : Free (access o.word) (o.rule.apply u) := by
    have hmem : o.rule ∈ recordGroup.rules := by cases o <;> simp [recordGroup, RecordName.rule]
    exact free_access_apply (steps_recordRule o) (sparesAccess_of_mem hmem o.word_mem) u
  have hspared {r : Rule} {root u : Text} (hr : r ∈ recordGroup.rules)
      (hroot : root ∈ [currentWord, workflowWord]) (hu : Free (access root) u) :
      Free (access root) (r.apply u) := Rule.free_apply (sparesAccess_of_mem hr hroot) hu
  rw [hrules]
  refine ⟨fun root hroot => hspared (by simp [recordGroup]) hroot ?_, free_declarationRule_apply _⟩
  rcases List.mem_cons.1 hroot with rfl | hroot'
  · exact hspared (by simp [recordGroup]) hroot (hrecord .current t)
  · obtain rfl := List.mem_singleton.1 hroot'
    exact hrecord .workflow _

theorem recordGroup_apply_of_free {t : Text}
    (ht : ∀ root ∈ [currentWord, workflowWord], Free (access root) t)
    (hd : Free declarationRule.pattern.steps t) : recordGroup.apply t = t := by
  have hrules : recordGroup.apply t =
      declarationRule.apply (workflowRule.apply (currentRule.apply t)) := rfl
  have hrecord (o : RecordName) : o.rule.apply t = t := by
    have hsteps := steps_recordRule o
    exact Rule.apply_of_hits_eq_nil (Rule.hits_eq_nil_of_free (by cases o <;> rfl)
      (hsteps ▸ lineEnd_not_mem_access _) (hsteps ▸ ht _ o.word_mem))
  have hcurrent : currentRule.apply t = t := hrecord .current
  have hworkflow : workflowRule.apply t = t := hrecord .workflow
  rw [hrules, hcurrent, hworkflow]
  exact Rule.apply_of_hits_eq_nil (Rule.hits_eq_nil_of_free rfl lineEnd_not_mem_declaration hd)

end Catalog

open Catalog

/-- A field of the record, or of its workflow, is addressed in the text. -/
def Text.AddressesRecord (t : Text) : Prop :=
  ∃ root ∈ [currentWord, workflowWord], ∃ c, CharClass.isWord c = true ∧ root ++ ['.', c] <:+: t

theorem Text.not_addressesRecord {t : Text}
    (ht : ∀ root ∈ [currentWord, workflowWord], Free (access root) t) : ¬ t.AddressesRecord := by
  rintro ⟨root, hroot, c, hc, h⟩
  exact not_infix_of_free (ht root hroot) hc h

namespace Conversion

theorem documented_eq_run (form source : Text) : documented form source =
    Rule.run (accessRules form ++ fixedRules)
      (recordGroup.apply (Rule.run (systemRules ++ alertGroup.rules) (Handler.unwrap source))) := by
  have hrules : (Catalog.documented form).flatMap (·.rules) = (systemRules ++ alertGroup.rules) ++
      (recordGroup.rules ++ (accessRules form ++ fixedRules)) := rfl
  rw [documented, applyAll_eq_run, hrules, Rule.run_append, Rule.run_append]
  rfl

theorem free_commented (f : FormType) (source : Text) {root : Text}
    (hroot : root ∈ [currentWord, workflowWord]) :
    Free (access root) (leftoverGroup.apply (documented f.identifier source)) := by
  have hrules : leftoverGroup.apply (documented f.identifier source) =
      Rule.run (accessRules f.identifier ++ (fixedRules ++ leftoverGroup.rules))
        (recordGroup.apply
          (Rule.run (systemRules ++ alertGroup.rules) (Handler.unwrap source))) := by
    rw [documented_eq_run, ← List.append_assoc, Rule.run_append _ leftoverGroup.rules]
    rfl
  rw [hrules]
  refine free_run_access ?_ hroot ((recordGroup_free _).1 root hroot)
  rw [List.all_append, accessRules_spare, rules_spare.2.2]
  rfl

theorem not_addressesRecord_output (f : FormType) (event source : Text) {unit : Text}
    (hunit : ∀ c ∈ unit, isBlank c = true) :
    ¬ (convert { form := f.identifier, event := event, unit := unit }
      source).output.AddressesRecord := by
  rintro ⟨root, hroot, c, hc, h⟩
  have hblank : ∀ d ∈ root ++ ['.', c], isBlank d = false := by
    have hroots : ∀ r ∈ [currentWord, workflowWord], ∀ d ∈ r, isBlank d = false := by decide
    intro d hd
    simp only [List.mem_append, List.mem_cons, List.not_mem_nil, or_false] at hd
    rcases hd with hd | rfl | rfl
    · exact hroots root hroot d hd
    · decide
    · exact isBlank_of_isWord hc
  have hline : '\n' ∉ root ++ ['.', c] := fun hm => absurd (hblank _ hm) (by decide)
  have hdot : '.' ∈ root ++ ['.', c] := by simp
  -- neither the heading nor the closing brace has a dot, and the layout brings no access about
  rw [output_eq] at h
  rcases infix_append_cons hline h with h | h
  · exact Handler.dot_not_mem_heading event (h.subset hdot)
  · rcases infix_append_cons hline h with h | h
    · have hbody := infix_of_infix_indent hunit hblank h
      rw [body_eq_apply] at hbody
      have hcommented := (relaid_cleanup _).isInfix_back hblank hbody
      exact not_infix_of_free (free_commented f source hroot) hc hcommented
    · exact absurd (h.subset hdot) (by decide)

end Conversion

/-- The rules for records convert every access and every declaration, once and for all, and no
access stands in a handler. -/
theorem convert_record_access :
    (∀ t, ¬ (recordGroup.apply t).AddressesRecord ∧
      declarationRule.pattern.hits (recordGroup.apply t) = [] ∧
      recordGroup.apply (recordGroup.apply t) = recordGroup.apply t) ∧
    ∀ (f : FormType) (event unit source : Text), (∀ c ∈ unit, isBlank c = true) →
      ¬ (convert { form := f.identifier, event := event, unit := unit }
        source).output.AddressesRecord := by
  constructor
  · intro t
    obtain ⟨haccess, hdeclaration⟩ := recordGroup_free t
    refine ⟨not_addressesRecord haccess, ?_, recordGroup_apply_of_free haccess hdeclaration⟩
    exact Rule.hits_eq_nil_of_free rfl lineEnd_not_mem_declaration hdeclaration
  · intro f event unit source hunit
    exact Conversion.not_addressesRecord_output f event source hunit

theorem convert_record_access_chained :
    (∀ c ∈ ['\t'], isBlank c = true) ∧
      ¬ (convert { form := FormType.mainFormGroup.identifier, event := [], unit := ['\t'] }
        "current.workflow.current.g_form.getTableName();").output.AddressesRecord := by
  have hunit : ∀ c ∈ ['\t'], isBlank c = true := by decide
  exact ⟨hunit, convert_record_access.2 .mainFormGroup [] ['\t'] _ hunit⟩

end GlideBridge
