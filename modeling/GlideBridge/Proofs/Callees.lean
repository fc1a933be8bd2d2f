import GlideBridge.Proofs.Triggers

/-! Which calls a rule answers. A line that is one call has a single dot and a single parenthesis,
so a rule of the catalog can begin only at the start of the line, and only when the name of the
call is one of its own. A list of such rules leads the line to what the rule for its name makes of
it, and leaves every line alone that does not address the namespace. -/

namespace GlideBridge

open Text

theorem Text.isBlank_of_isWord {c : Char} (h : CharClass.isWord c = true) : isBlank c = false := by
  have hrange := CharClass.isWord_range h
  simp only [isBlank, blankRanges, List.any_cons, List.any_nil, Bool.or_false, Bool.or_eq_false_iff,
    Bool.and_eq_false_iff, decide_eq_false_iff_not]
  omega

theorem Text.suffix_of_suffix_append_cons {d : Char} {a x y : Text} (hd : d ∉ a)
    (h : a <:+ x ++ d :: y) : a <:+ y := by
  rcases List.suffix_or_suffix_of_suffix h (List.suffix_append x (d :: y)) with h | h
  · rcases List.suffix_cons_iff.1 h with rfl | h
    · exact absurd List.mem_cons_self hd
    · exact h
  · exact absurd (h.subset List.mem_cons_self) hd

namespace CallSpace

variable {s : CallSpace} {name q l l' : Text} {r : Rule} {names : List Text}

def root : CallSpace → Text
  | form => ['g', '_', 'f', 'o', 'r', 'm']
  | system => ['g', 's']

theorem opening_eq_root (s : CallSpace) : s.opening = s.root ++ ['.'] := by cases s <;> rfl

theorem callText_append (s : CallSpace) (name q : Text) :
    s.callText name ++ q = s.root ++ '.' :: (name ++ '(' :: q) := by
  rw [callText, opening_eq_root]
  simp

theorem isBlank_of_mem_name (hn : IsName name) {c : Char} (hc : c ∈ name) : isBlank c = false := by
  refine isBlank_of_isWord ?_
  simp [CharClass.isWord, Char.isAlphanum, hn.2 c hc]

theorem suffix_of_isInfix (hn : IsName name) (hq : '.' ∉ q) {o : Text}
    (h : o ++ ['.'] <:+: s.callText name ++ q) : o <:+ s.root := by
  have hdot : '.' ∉ name ++ '(' :: q := by simp [hq, not_mem_name hn (c := '.') (by decide)]
  have hroot : '.' ∉ s.root := by cases s <;> decide
  rw [callText_append] at h
  exact suffix_of_infix_dot hroot hdot h

theorem alertless_callText (hn : IsName name) (halert : ¬ alertWord <:+ name) (hq : '(' ∉ q) :
    Alertless (s.callText name ++ q) := by
  intro a b hab
  have hopen : '(' ∉ s.opening ++ name := by
    have hname := not_mem_name hn (c := '(') (by decide)
    cases s <;> simp [opening, hname]
  have hsplit : (s.opening ++ name) ++ '(' :: q = a ++ '(' :: b := by
    rw [← hab, callText]
    simp
  obtain rfl := ((List.append_cons_inj_of_notMem hopen hq).1 hsplit).1
  obtain ⟨c, hc⟩ : ∃ c, name.getLast? = some c := ⟨_, List.getLast?_eq_some_getLast hn.1⟩
  refine ⟨⟨c, by simp [List.getLast?_append, hc], ?_⟩, fun hw => ?_⟩
  · exact isBlank_of_mem_name hn (List.mem_of_getLast? hc)
  · rw [opening_eq_root, List.append_assoc] at hw
    exact halert (suffix_of_suffix_append_cons (by decide) hw)

/-- The rule begins at the namespace and its dot, and hits no call but those of the names. -/
structure Answers (s : CallSpace) (r : Rule) (names : List Text) : Prop where
  lineStart : r.pattern.lineStart = false
  opening : s.opening <+: r.pattern.opening
  name_mem : ∀ name q h, IsName name →
    matchPieces r.pattern.steps (s.callText name ++ q) = some h → name ∈ names

theorem line_not_mem_opening (s : CallSpace) : '\n' ∉ s.opening := by cases s <;> decide

theorem Answers.inline (h : s.Answers r names) : r.isInline = true := by
  obtain ⟨y, hy⟩ := h.opening
  obtain ⟨w, hw⟩ : ∃ w, s.opening = 'g' :: w := by cases s <;> exact ⟨_, rfl⟩
  rw [hw, List.cons_append] at hy
  exact Rule.isInline_of_opening h.lineStart hy.symm (by decide)

theorem Answers.sends_of_not_isInfix (h : s.Answers r names) (hl : ¬ s.opening <:+: l) :
    r.Sends l l := Rule.sends_of_not_isInfix h.inline h.opening s.line_not_mem_opening hl

theorem Answers.sends (h : s.Answers r names) (hn : IsName name) (hname : name ∉ names)
    (hq : '.' ∉ q) : r.Sends (s.callText name ++ q) (s.callText name ++ q) := by
  refine Rule.sends_of_no_hit h.inline fun v hv _ t ht => ?_
  rw [Option.eq_none_iff_forall_ne_some]
  intro g hm
  obtain ⟨u, -, hu, -⟩ := matchPieces_literal_eq_some_iff.1 hm
  have hpre : s.opening <+: v := (ht.prefix_iff s.line_not_mem_opening v).1
    (h.opening.trans ⟨u, hu.symm⟩)
  obtain ⟨x, hx⟩ := hv
  have hroot : x ++ s.root <:+ s.root := by
    refine suffix_of_isInfix hn hq ?_
    obtain ⟨y, rfl⟩ := hpre
    exact ⟨[], y, by rw [← hx, opening_eq_root]; simp⟩
  obtain rfl : x = [] := by
    have := hroot.length_le
    rw [List.length_append] at this
    exact List.eq_nil_of_length_eq_zero (by omega)
  rw [List.nil_append] at hx
  rw [hx, List.append_assoc] at hm
  exact hname (h.name_mem name _ g hn hm)

theorem eq_of_append_blank {y run u : Text} (hn : IsName name) (hy : '(' ∉ y)
    (hrun : ∀ c ∈ run, isBlank c = true) (h : name ++ '(' :: q = y ++ (run ++ '(' :: u)) :
    name = y := by
  have hopen : '(' ∉ y ++ run := by
    intro hm
    rcases List.mem_append.1 hm with hm | hm
    · exact hy hm
    · exact absurd (hrun _ hm) (by decide)
  rw [← List.append_assoc] at h
  have heq := eq_of_append_cons (not_mem_name hn (by decide)) hopen h
  cases run with
  | nil => simpa using heq
  | cons c run =>
    have hc : isBlank c = false := isBlank_of_mem_name hn (by simp [heq])
    rw [hrun c List.mem_cons_self] at hc
    cases hc

theorem match_name {y : Text} (ho : r.pattern.opening = s.opening ++ y) {h : Hit}
    (hm : matchPieces r.pattern.steps (s.callText name ++ q) = some h) :
    ∃ u g, name ++ '(' :: q = y ++ u ∧ matchPieces r.pattern.pieces u = some g := by
  obtain ⟨u, g, hu, hg, -⟩ := matchPieces_literal_eq_some_iff.1 hm
  rw [callText, ho, List.append_assoc, List.append_assoc, List.append_assoc] at hu
  exact ⟨u, g, List.append_cancel_left hu, hg⟩

theorem answers_paren {a b : Text} (hr : r.pattern.lineStart = false)
    (ho : r.pattern.opening = s.opening ++ (a ++ '(' :: b)) (ha : '(' ∉ a) : s.Answers r [a] := by
  refine ⟨hr, ⟨_, ho.symm⟩, fun name q g hn hm => ?_⟩
  obtain ⟨u, g, hu, -⟩ := match_name ho hm
  rw [List.append_assoc, List.cons_append] at hu
  exact List.mem_singleton.2 (eq_of_append_cons (not_mem_name hn (by decide)) ha hu)

theorem answers_blank {y : Text} {ps : List Piece} (hr : r.pattern.lineStart = false)
    (ho : r.pattern.opening = s.opening ++ y)
    (hp : r.pattern.pieces = .many .blank :: .literal ['('] :: ps) (hy : '(' ∉ y) :
    s.Answers r [y] := by
  refine ⟨hr, ⟨y, ho.symm⟩, fun name q g hn hm => ?_⟩
  obtain ⟨u, g, hu, hg⟩ := match_name ho hm
  rw [hp] at hg
  obtain ⟨run, u, g, rfl, hrun, hg, -⟩ := exists_of_matchPieces_many hg
  obtain ⟨u, g, rfl, -, -⟩ := matchPieces_literal_eq_some_iff.1 hg
  exact List.mem_singleton.2 (eq_of_append_blank hn hy hrun hu)

theorem answers_oneOf {ps : List Piece} (hr : r.pattern.lineStart = false)
    (ho : r.pattern.opening = s.opening)
    (hp : r.pattern.pieces = .oneOf names :: .many .blank :: .literal ['('] :: ps)
    (hnames : ∀ w ∈ names, '(' ∉ w) : s.Answers r names := by
  refine ⟨hr, ⟨[], by rw [ho, List.append_nil]⟩, fun name q g hn hm => ?_⟩
  obtain ⟨u, g, hu, hg⟩ := match_name (ho.trans (List.append_nil _).symm) hm
  rw [hp] at hg
  obtain ⟨w, hw, u, g, rfl, hg, -⟩ := exists_of_matchPieces_oneOf hg
  obtain ⟨run, u, g, rfl, hrun, hg, -⟩ := exists_of_matchPieces_many hg
  obtain ⟨u, g, rfl, -, -⟩ := matchPieces_literal_eq_some_iff.1 hg
  exact eq_of_append_blank hn (hnames w hw) hrun hu ▸ hw

/-- The names of the calls that a pattern answers, if it has the form of a call. -/
def callees? (s : CallSpace) (p : Pattern) : Option (List Text) :=
  match dropPrefix? s.opening p.opening, p.lineStart with
  | some y, false =>
    if y.contains '(' then some [y.takeWhile (· != '(')]
    else
      match p.pieces with
      | .many .blank :: .literal ['('] :: _ => some [y]
      | .oneOf names :: .many .blank :: .literal ['('] :: _ =>
        if y = [] ∧ ∀ w ∈ names, '(' ∉ w then some names else none
      | _ => none
  | _, _ => none

theorem answers_of_callees? (h : s.callees? r.pattern = some names) : s.Answers r names := by
  unfold callees? at h
  split at h
  · next y hy hr =>
    have ho := dropPrefix?_eq_some_iff.1 hy
    split at h
    · next hopen =>
      obtain ⟨a, b, rfl, ha⟩ := List.eq_append_cons_of_mem (a := '(') (by simpa using hopen)
      have hall : ∀ c ∈ a, (c != '(') = true := fun c hc => by
        simpa using fun he : c = '(' => ha (he ▸ hc)
      rw [List.takeWhile_append_of_pos hall, List.takeWhile_cons_of_neg (by decide),
        List.append_nil, Option.some.injEq] at h
      exact h ▸ answers_paren hr ho ha
    · next hopen =>
      split at h
      · next ps hp =>
        cases h
        exact answers_blank hr ho hp (by simpa using hopen)
      · next names' ps hp =>
        split at h
        · next hnames =>
          cases h
          obtain ⟨rfl, hnames⟩ := hnames
          exact answers_oneOf hr (ho.trans (List.append_nil _)) hp hnames
        · cases h
      · cases h
  · cases h

section Lists

variable {rs : List Rule} {nss : List (List Text)} (h : List.Forall₂ s.Answers rs nss)

include h

theorem leads_of_not_isInfix (hroot : ¬ s.opening <:+: l) : Rule.Leads rs l l := by
  induction h with
  | nil => exact .nil
  | cons h₀ _ ih => exact .cons h₀.inline (h₀.sends_of_not_isInfix hroot) ih

theorem leads_of_unknown (hn : IsName name) (hq : '.' ∉ q) (hname : ∀ names ∈ nss, name ∉ names) :
    Rule.Leads rs (s.callText name ++ q) (s.callText name ++ q) := by
  induction h with
  | nil => exact .nil
  | cons h₀ _ ih =>
    rw [List.forall_mem_cons] at hname
    exact .cons h₀.inline (h₀.sends hn hname.1 hq) (ih hname.2)

theorem leads_of_answers (hnodup : nss.flatten.Nodup) (hn : IsName name) (hq : '.' ∉ q) {i : ℕ}
    (hi : rs[i]? = some r) (hnames : nss[i]? = some names) (hname : name ∈ names)
    (hsend : r.Sends (s.callText name ++ q) l) (hroot : ¬ s.opening <:+: l) :
    Rule.Leads rs (s.callText name ++ q) l := by
  induction h generalizing i with
  | nil => cases hi
  | @cons r₀ names₀ rs nss h₀ hrs ih =>
    cases i with
    | zero =>
      obtain rfl : r₀ = r := by simpa using hi
      exact .cons h₀.inline hsend (leads_of_not_isInfix hrs hroot)
    | succ i =>
      rw [List.getElem?_cons_succ] at hi hnames
      rw [List.flatten_cons, List.nodup_append] at hnodup
      obtain ⟨-, hnodup, hdisj⟩ := hnodup
      have hlater : name ∈ nss.flatten :=
        List.mem_flatten.2 ⟨names, List.mem_of_getElem? hnames, hname⟩
      exact .cons h₀.inline (h₀.sends hn (fun hm => hdisj name hm name hlater rfl) hq)
        (ih hnodup hi hnames)

end Lists

end CallSpace

end GlideBridge
