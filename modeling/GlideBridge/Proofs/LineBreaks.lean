import GlideBridge.Proofs.RunningOn

/-! What a hit that runs on over the end of a line leaves. It carries the line break off into a
field, with the text behind it up to the end of the field. When that text is the opening of a call,
it stands behind every line break in the end, while a line of its own has been converted: so the
two can be told apart. -/

namespace GlideBridge

open Text Pieces

def Text.Breaks (w t : Text) : Prop := ∀ x y, t = x ++ '\n' :: y → w <+: y

namespace Text.Breaks

variable {w s t : Text}

theorem of_not_mem (h : '\n' ∉ t) : Breaks w t := by
  rintro x y rfl
  exact absurd (by simp) h

theorem of_append (h : Breaks w (s ++ t)) : Breaks w t := by
  rintro x y rfl
  exact h (s ++ x) y (by simp)

theorem append (hs : Breaks w s) (ht : Breaks w t) : Breaks w (s ++ t) := by
  intro x y h
  rcases List.append_eq_append_iff.1 h with ⟨z, -, hz⟩ | ⟨z, rfl, hz⟩
  · exact ht z y hz
  · cases z with
    | nil => exact ht [] y hz.symm
    | cons c z =>
      obtain ⟨rfl, rfl⟩ := List.cons.inj hz
      exact (hs x z rfl).trans (List.prefix_append z t)

theorem line_break (h : w <+: t) (ht : Breaks w t) : Breaks w ('\n' :: t) := by
  intro x y hxy
  cases x with
  | nil => exact (List.cons.inj hxy).2 ▸ h
  | cons c x => exact ht x y (List.cons.inj hxy).2

end Text.Breaks

namespace Pieces

def avoids (w : Text) : List Piece → Bool
  | .literal (d :: _) :: _ => !w.contains d
  | .one .quote :: _ => !w.contains '"' && !w.contains '\''
  | _ => false

def guards (w : Text) : List Piece → Bool
  | [] => true
  | .field k :: ps => (!k.has '\n' || avoids w ps) && guards w ps
  | _ :: ps => guards w ps

variable {w : Text} {ps : List Piece} {h : Hit}

theorem exists_cons_of_avoids (hw : avoids w ps = true) (hs : Spells ps h) :
    ∃ d t, h.taken = d :: t ∧ d ∉ w := by
  unfold avoids at hw
  split at hw
  · next d v ps =>
    cases hs with
    | literal _ hs => exact ⟨d, v ++ _, rfl, by simpa using hw⟩
  · simp only [Bool.and_eq_true, Bool.not_eq_true', List.contains_eq_mem,
      decide_eq_false_iff_not] at hw
    cases hs with
    | @one _ g _ c hc hs =>
      refine ⟨c, g.taken, rfl, ?_⟩
      simp only [CharClass.has, CharClass.isQuote, Bool.or_eq_true, beq_iff_eq] at hc
      rcases hc with rfl | rfl
      · exact hw.1
      · exact hw.2
  · cases hw

theorem guards_tail {p : Piece} (hw : guards w (p :: ps) = true) : guards w ps = true := by
  cases p with
  | field k => exact (Bool.and_eq_true_iff.1 hw).2
  | _ => exact hw

theorem breaks_fields (hw : guards w ps = true) (hs : Spells ps h) {t : Text}
    (ht : Breaks w (h.taken ++ t)) : ∀ f ∈ h.fields, Breaks w f := by
  induction hs with
  | nil => simp
  | @cons p ps run fs g hp hs ih =>
    rw [Hit.extend_taken, List.append_assoc] at ht
    refine List.forall_mem_append.2 ⟨?_, ih (guards_tail hw) ht.of_append⟩
    cases hp with
    | field hne hrun =>
      refine List.forall_mem_singleton.2 ?_
      rintro x y rfl
      rw [guards, Bool.and_eq_true, Bool.or_eq_true, Bool.not_eq_true'] at hw
      rcases hw.1 with hk | havoid
      · rw [hrun '\n' (by simp)] at hk
        cases hk
      · obtain ⟨d, z, hz, hd⟩ := exists_cons_of_avoids havoid hs
        have hpre := ht x (y ++ d :: (z ++ t)) (by simp [hz])
        exact (prefix_append_cons_iff hd y _).1 hpre
    | _ => exact List.forall_mem_nil _

end Pieces

theorem Template.breaks_fill {w : Text} {template : Template} {fields : List Text}
    (ht : ∀ l ∈ texts template, '\n' ∉ l) (hf : ∀ f ∈ fields, Breaks w f) :
    Breaks w (template.flatMap (·.fill fields)) := by
  induction template with
  | nil => exact .of_not_mem (by simp)
  | cons q template ih =>
    rw [List.flatMap_cons]
    cases q with
    | text l =>
      have hl : '\n' ∉ l := ht l (by simp [texts])
      exact Breaks.append (.of_not_mem hl) (ih fun l hl => ht l (by simpa [texts] using Or.inr hl))
    | field i =>
      refine Breaks.append ?_ (ih ht)
      rcases TemplatePart.fill_field_eq_nil_or_mem fields i with hnil | hmem
      · exact .of_not_mem (by simp [hnil])
      · exact hf _ hmem

namespace Rule

variable {r : Rule} {w t u : Text}

/-- The rule writes no line break of its own, and its fields end outside `w`. -/
def keepsBreaks (w : Text) (r : Rule) : Bool :=
  r.isInline && r.pattern.isFramed && guards w r.pattern.steps &&
    (Template.texts r.template).all (!·.contains '\n')

theorem keepsBreaks_iff : r.keepsBreaks w = true ↔ r.isInline = true ∧ r.pattern.isFramed = true ∧
    guards w r.pattern.steps = true ∧ ∀ l ∈ Template.texts r.template, '\n' ∉ l := by
  simp [keepsBreaks, and_assoc]

theorem breaks_fill (hr : r.keepsBreaks w = true) {h : Hit} (hs : Spells r.pattern.steps h)
    (ht : Breaks w (h.taken ++ t)) : Breaks w (r.fill h) := by
  obtain ⟨-, -, hg, htexts⟩ := keepsBreaks_iff.1 hr
  exact Template.breaks_fill htexts (breaks_fields hg hs ht)

theorem breaks_apply (hr : r.keepsBreaks w = true)
    (hw : silentRec r.pattern.steps w = true) (ht : Breaks w t) : Breaks w (r.apply t) := by
  obtain ⟨hinline, hframed, -, -⟩ := keepsBreaks_iff.1 hr
  have hp := lineStart_of_isInline hinline
  induction t using r.pattern.scan_induction with
  | nil => exact ht
  | kept c t hm ih =>
    have hu := ih (Breaks.of_append (s := [c]) ht)
    rw [apply_kept hp hm]
    by_cases hc : c = '\n'
    · subst hc
      obtain ⟨x, rfl⟩ := ht [] t rfl
      have happly := apply_of_passes hframed (Pattern.passes_of_silent hw x)
      rw [happly] at hu ⊢
      exact Breaks.line_break (List.prefix_append w _) hu
    · exact Breaks.append (s := [c]) (.of_not_mem (by simpa using Ne.symm hc)) hu
  | hit h t hm ih =>
    rw [apply_hit hp hm]
    exact Breaks.append (breaks_fill hr (spells_of_match hm) ht) (ih ht.of_append)

theorem breaks_run {rs : List Rule} (hr : ∀ r ∈ rs, r.keepsBreaks w = true)
    (hw : ∀ r ∈ rs, silentRec r.pattern.steps w = true) (ht : Breaks w t) :
    Breaks w (run rs t) := by
  exact run_induction (fun r hmem _ => breaks_apply (hr r hmem) (hw r hmem)) ht

end Rule

namespace Pieces

variable {ps : List Piece} {v b b' : Text} {c : Char}

theorem afterAll_append (v w : Text) (ps : List Piece) :
    afterAll (v ++ w) ps = (afterAll v ps).flatMap (afterAll w) := by
  induction v generalizing ps with
  | nil => simp [afterAll]
  | cons c v ih =>
    rw [List.cons_append, afterAll, afterAll, List.flatMap_assoc]
    exact List.flatMap_congr fun qs _ => ih qs

/-- What is under way behind `c` and a line break comes to its end in `b`. -/
def completes (c : Char) (b : Text) (ps : List Piece) : Bool :=
  (ps :: later ps).all fun rs => (after c rs).all fun qs => done qs ||
    (after '\n' qs).all fun qs => reads qs b

theorem reads_of_completes (h : completes c b ps = true) (hnone : reads ps (v ++ [c]) = false)
    (hr : reads ps ((v ++ [c]) ++ '\n' :: b') = true) :
    reads ps ((v ++ [c]) ++ '\n' :: b) = true := by
  rw [reads_append, hnone, Bool.false_or, List.any_eq_true] at hr ⊢
  obtain ⟨qs, hq, hr⟩ := hr
  refine ⟨qs, hq, ?_⟩
  have hd : done qs = false := by
    rw [← Bool.not_eq_true]
    intro hd
    rw [reads_of_done_of_afterAll hq hd] at hnone
    cases hnone
  rw [afterAll_append, List.mem_flatMap] at hq
  obtain ⟨rs, hrs, hq⟩ := hq
  have hrs : rs ∈ ps :: later ps := by
    cases v with
    | nil => exact List.mem_cons.2 (Or.inl (List.mem_singleton.1 hrs))
    | cons d v => exact List.mem_cons_of_mem _ (mem_later_of_afterAll hrs)
  have hall := List.all_eq_true.1 (List.all_eq_true.1 h rs hrs) qs (by simpa [afterAll] using hq)
  rw [hd, Bool.false_or, List.all_eq_true] at hall
  rw [reads_cons, hd, Bool.false_or, List.any_eq_true] at hr ⊢
  obtain ⟨ts, ht, -⟩ := hr
  exact ⟨ts, ht, hall ts ht⟩

theorem exists_match_of_completes (hend : .lineEnd ∉ ps) (hb : completes c b ps = true)
    (hnone : matchPieces ps (v ++ [c]) = none) {h : Hit}
    (hm : matchPieces ps ((v ++ [c]) ++ '\n' :: b') = some h) :
    ∃ g, matchPieces ps ((v ++ [c]) ++ '\n' :: b) = some g := by
  have hread : reads ps (v ++ [c]) = false := by
    rw [← isSome_matchPieces hend, hnone]
    rfl
  have hread' : reads ps ((v ++ [c]) ++ '\n' :: b') = true := by
    rw [← isSome_matchPieces hend, hm]
    rfl
  have hsome := reads_of_completes hb hread hread'
  rwa [← isSome_matchPieces hend, Option.isSome_iff_exists] at hsome

end Pieces

namespace Rule

variable {r : Rule} {w t u b : Text}

theorem not_mem_fill {c : Char} (hr : ∀ l ∈ Template.texts r.template, c ∉ l) {h : Hit}
    (hs : Spells r.pattern.steps h) (ht : c ∉ h.taken) : c ∉ r.fill h :=
  Template.not_mem_fill hr fun f hf hc => ht ((hs.infix_taken f hf).subset hc)

theorem not_mem_apply (hp : r.pattern.lineStart = false) {c : Char}
    (hr : ∀ l ∈ Template.texts r.template, c ∉ l) (ht : c ∉ t) : c ∉ r.apply t := by
  induction t using r.pattern.scan_induction with
  | nil => exact ht
  | kept d t hm ih =>
    rw [List.mem_cons, not_or] at ht
    rw [apply_kept hp hm, List.mem_cons, not_or]
    exact ⟨ht.1, ih ht.2⟩
  | hit h t hm ih =>
    rw [List.mem_append, not_or] at ht
    rw [apply_hit hp hm, List.mem_append, not_or]
    exact ⟨not_mem_fill hr (spells_of_match hm) ht.1, ih ht.2⟩

theorem getLast?_apply (hp : r.pattern.lineStart = false) {c : Char}
    (hr : ∀ h, Spells r.pattern.steps h → h.taken.getLast? ≠ some c) (ht : t.getLast? = some c) :
    (r.apply t).getLast? = some c := by
  induction t using r.pattern.scan_induction with
  | nil => exact ht
  | kept d t hm ih =>
    rw [apply_kept hp hm]
    cases t with
    | nil => exact ht
    | cons e t =>
      have hu := ih (by simpa [List.getLast?_cons] using ht)
      rw [List.getLast?_cons, hu]
      rfl
  | hit h t hm ih =>
    rw [apply_hit hp hm]
    cases t with
    | nil => exact absurd (by simpa using ht) (hr h (spells_of_match hm))
    | cons e t =>
      rw [List.getLast?_append, ih (by simpa [List.getLast?_append] using ht)]
      rfl

theorem breaks_apply_of_crossing (hr : r.keepsBreaks w = true) (hline : '\n' ∉ b) (hw : w <+: b)
    (hnew : '\n' ∉ t) (hnone : matchPieces r.pattern.steps t = none) {h : Hit}
    (hm : matchPieces r.pattern.steps (t ++ '\n' :: b) = some h) :
    Breaks w (r.apply (t ++ '\n' :: b)) := by
  obtain ⟨hinline, hframed, -, htexts⟩ := keepsBreaks_iff.1 hr
  have hp := lineStart_of_isInline hinline
  obtain ⟨x, y, htaken, hxy⟩ :=
    exists_taken_of_none (Pattern.lineEnd_not_mem_of_isFramed hframed) hnone hm
  have hbreaks : Breaks w (t ++ '\n' :: b) :=
    Breaks.append (.of_not_mem hnew) (Breaks.line_break hw (.of_not_mem hline))
  have hsplit : t ++ '\n' :: b = h.taken ++ y := by simp [htaken, hxy]
  have hy : '\n' ∉ y := fun hy => hline (hxy ▸ List.mem_append_right x hy)
  have hfill := breaks_fill hr (spells_of_match hm) (hsplit ▸ hbreaks)
  rw [hsplit] at hm ⊢
  rw [apply_hit hp hm]
  exact hfill.append (.of_not_mem (not_mem_apply hp htexts hy))

theorem breaks_apply_of_runsOn (hr : r.keepsBreaks w = true) (hf : firm r.pattern.steps = true)
    {c : Char} (hb : completes c b r.pattern.steps = true) (hline : '\n' ∉ b) (hw : w <+: b)
    (hnew : '\n' ∉ t) (hend : t.getLast? = some c) (ht : r.pattern.RunsOn t) :
    Breaks w (r.apply (t ++ '\n' :: b)) := by
  obtain ⟨hinline, hframed, -, htexts⟩ := keepsBreaks_iff.1 hr
  have hp := lineStart_of_isInline hinline
  induction ht with
  | @here t b' h hnone hm =>
    -- what some text behind the break completes, `b` completes too
    obtain ⟨v, rfl⟩ := List.getLast?_eq_some_iff.1 hend
    obtain ⟨g, hg⟩ :=
      exists_match_of_completes (Pattern.lineEnd_not_mem_of_isFramed hframed) hb hnone hm
    exact breaks_apply_of_crossing hr hline hw hnew hnone hg
  | @kept d t hnone hrest ih =>
    have hlast : (d :: t).getLast? = t.getLast? :=
      List.getLast?_append_of_ne_nil [d] (ne_nil_of_runsOn hinline hrest)
    cases hm : matchPieces r.pattern.steps ((d :: t) ++ '\n' :: b) with
    | some h => exact breaks_apply_of_crossing hr hline hw hnew hnone hm
    | none =>
      rw [List.mem_cons, not_or] at hnew
      rw [List.cons_append] at hm ⊢
      rw [apply_kept hp hm]
      exact Breaks.append (s := [d]) (.of_not_mem (by simpa using hnew.1))
        (ih hnew.2 (hlast ▸ hend))
  | @hit h t hm hrest ih =>
    rw [List.getLast?_append_of_ne_nil _ (ne_nil_of_runsOn hinline hrest)] at hend
    rw [List.mem_append, not_or] at hnew
    have hlonger := matchPieces_append_of_firm hf hm ('\n' :: b)
    rw [List.append_assoc] at hlonger ⊢
    rw [apply_hit hp hlonger]
    exact Breaks.append (.of_not_mem (not_mem_fill htexts (spells_of_match hm) hnew.1))
      (ih hnew.2 hend)

end Rule

end GlideBridge
