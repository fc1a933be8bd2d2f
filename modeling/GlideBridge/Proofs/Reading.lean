import GlideBridge.Proofs.Callees
import GlideBridge.Proofs.Statement

/-! How the patterns of the catalog read the statements of the call language. An argument has no
character that ends a field of a pattern, so each pattern takes the call as it is written and
captures its arguments. -/

namespace GlideBridge

open Text Catalog

def isArgumentChar (c : Char) : Bool := CharClass.fieldName.has c || CharClass.isQuote c

theorem CharClass.has_except {t : Text} {d : Char} (hd : d ∉ t) :
    ∀ c ∈ t, (except d).has c = true := by
  intro c hc
  have hne : c ≠ d := fun h => hd (h ▸ hc)
  simpa [has] using hne

structure IsArgument (t : Text) : Prop where
  ne_nil : t ≠ []
  chars : ∀ c ∈ t, isArgumentChar c = true

namespace IsArgument

variable {t : Text}

theorem not_mem (ht : IsArgument t) {c : Char} (hc : isArgumentChar c = false) : c ∉ t := by
  intro hm
  rw [ht.chars c hm] at hc
  cases hc

theorem close_not_mem (ht : IsArgument t) : ')' ∉ t := ht.not_mem (by decide)

theorem not_blank (ht : IsArgument t) {c : Char} (hc : c ∈ t) : isBlank c = false := by
  have h := ht.chars c hc
  simp only [isArgumentChar, CharClass.has, CharClass.isQuote, Bool.or_eq_true, beq_iff_eq] at h
  rcases h with (h | rfl) | rfl | rfl
  · exact isBlank_of_isWord h
  · decide
  · decide
  · decide

theorem head (ht : IsArgument t) (u : Text) {k : CharClass}
    (hk : ∀ c, isArgumentChar c = true → k.has c = false) :
    ∀ c ∈ (t ++ u).head?, k.has c = false := by
  obtain ⟨d, t, rfl⟩ := List.exists_cons_of_ne_nil ht.ne_nil
  intro c hc
  obtain rfl : d = c := by simpa using hc
  exact hk d (ht.chars d List.mem_cons_self)

theorem has_except (ht : IsArgument t) {d : Char} (hd : isArgumentChar d = false) :
    ∀ c ∈ t, (CharClass.except d).has c = true := CharClass.has_except (ht.not_mem hd)

end IsArgument

theorem fieldName_of_word {c : Char} (h : CharClass.word.has c = true) :
    CharClass.fieldName.has c = true := by
  simp only [CharClass.has] at h
  simp [CharClass.has, h]

theorem not_blank_of_argument {c : Char} (h : isArgumentChar c = true) :
    CharClass.blank.has c = false :=
  IsArgument.not_blank (t := [c]) ⟨by simp, by simpa using h⟩ (by simp)

theorem Run.isArgument {k : CharClass} (hk : ∀ c, k.has c = true → CharClass.fieldName.has c = true)
    (w : Run k) : IsArgument w.text := by
  refine ⟨w.ne_nil, fun c hc => ?_⟩
  rw [isArgumentChar, hk c (w.has c hc), Bool.true_or]

theorem Quoted.isArgument {k : CharClass}
    (hk : ∀ c, k.has c = true → CharClass.fieldName.has c = true) (q : Quoted k) :
    IsArgument q.written := by
  refine ⟨by simp [written], fun c hc => ?_⟩
  have hquote : isArgumentChar q.quote = true := by rw [isArgumentChar, q.isQuote, Bool.or_true]
  simp only [written, List.mem_cons, List.mem_append, List.not_mem_nil, or_false] at hc
  rcases hc with rfl | hc | rfl
  · exact hquote
  · exact (q.toRun.isArgument hk).chars c hc
  · exact hquote

theorem Field.isArgument (f : Field) : IsArgument f.written := Quoted.isArgument (fun _ h => h) f

theorem Field.isArgument_text (f : Field) : IsArgument f.text := f.toRun.isArgument fun _ h => h

theorem Argument.isArgument (a : Argument) : IsArgument a.text := by
  cases a with
  | bare w => exact w.isArgument fun _ => fieldName_of_word
  | quoted f => exact f.isArgument

section Pieces

variable {a b c : Text} {ps : List Piece} {u : Text} {h : Hit}

theorem match_lastArgument (hne : a ≠ []) (ha : ')' ∉ a) (t : Text) :
    matchPieces lastArgument (a ++ ')' :: t) = some ⟨a ++ [')'], [a]⟩ := by
  have hclose : matchPieces [.literal [')']] (')' :: t) = some ⟨[')'], []⟩ :=
    matchPieces_literal_some (h := ⟨[], []⟩) [')'] rfl
  exact matchPieces_field_append hne (CharClass.has_except ha) (by simp [CharClass.has]) hclose

theorem match_separator (hu : ∀ c ∈ u.head?, CharClass.blank.has c = false)
    (hm : matchPieces ps u = some h) :
    matchPieces (separator ++ ps) (',' :: ' ' :: u) = some (h.after [',', ' ']) := by
  have hblank := matchPieces_many_append (w := [' ']) (by decide) hu hm
  exact matchPieces_literal_some [','] hblank

theorem match_quoted {k k' : CharClass} (q : Quoted k) (hrun : ∀ c ∈ q.text, k'.has c = true)
    (hquote : k'.has q.quote = false) (hm : matchPieces ps u = some h) :
    matchPieces (.one .quote :: .field k' :: .one .quote :: ps) (q.written ++ u) =
      some ⟨q.written ++ h.taken, q.text :: h.fields⟩ := by
  have hclose : matchPieces (.one .quote :: ps) (q.quote :: u) = some (h.after [q.quote]) :=
    matchPieces_one_cons q.isQuote hm
  have hfield := matchPieces_field_append q.ne_nil hrun (has_head_cons hquote u) hclose
  have hopen := matchPieces_one_cons (k := .quote) (c := q.quote) q.isQuote hfield
  simpa [Quoted.written, Hit.after, Hit.capture] using hopen

theorem Quoted.has_quote {k k' : CharClass} (q : Quoted k) (hdouble : k'.has '"' = false)
    (hsingle : k'.has '\'' = false) : k'.has q.quote = false := by
  have hq := q.isQuote
  simp only [CharClass.isQuote, Bool.or_eq_true, beq_iff_eq] at hq
  rcases hq with hq | hq
  · rwa [hq]
  · rwa [hq]

theorem match_quotedField (f : Field) (hm : matchPieces ps u = some h) :
    matchPieces (quotedField ++ ps) (f.written ++ u) =
      some ⟨f.written ++ h.taken, f.text :: h.fields⟩ :=
  match_quoted f f.has (f.has_quote (by decide) (by decide)) hm

theorem match_middleArgument (ha : IsArgument a)
    (hu : ∀ c ∈ u.head?, CharClass.blank.has c = false) (hm : matchPieces ps u = some h) :
    matchPieces (middleArgument ++ ps) (a ++ ',' :: ' ' :: u) =
      some ⟨a ++ ',' :: ' ' :: h.taken, a :: h.fields⟩ := by
  have hsep := match_separator hu hm
  exact matchPieces_field_append ha.ne_nil (ha.has_except (by decide)) (by simp [CharClass.has])
    hsep

def Takes (ps : List Piece) (w : Text) (fields : List Text) : Prop :=
  ∀ t, matchPieces ps (w ++ t) = some ⟨w, fields⟩

theorem match_opening {p : Pattern} {o taken : Text} {fields : List Text} (ho : p.opening = o)
    (hm : matchPieces p.pieces u = some ⟨taken, fields⟩) :
    matchPieces p.steps (o ++ u) = some ⟨o ++ taken, fields⟩ := by
  rw [Pattern.steps, ho]
  exact matchPieces_literal_some o hm

theorem Takes.steps {p : Pattern} {o w : Text} {fields : List Text} (ho : p.opening = o)
    (h : Takes p.pieces w fields) : Takes p.steps (o ++ w) fields := by
  intro t
  rw [List.append_assoc]
  exact match_opening ho (h t)

theorem takes_nothing : Takes [] [] [] := fun _ => rfl

theorem takes_argument (sep : Text) (ha : IsArgument a) :
    Takes lastArgument (joinWith sep [a] ++ [')']) [a] := by
  intro t
  simpa [joinWith] using match_lastArgument ha.ne_nil ha.close_not_mem t

theorem takes_field (sep : Text) (f : Field) :
    Takes fieldOnly (joinWith sep [f.written] ++ [')']) [f.text] := by
  intro t
  have hclose : matchPieces closing (')' :: t) = some ⟨[')'], []⟩ :=
    matchPieces_literal_some (h := ⟨[], []⟩) [')'] rfl
  simpa [joinWith, fieldOnly] using match_quotedField f hclose

theorem match_fieldAndArgument (f : Field) (hne : a ≠ []) (ha : ')' ∉ a) {t : Text}
    (hblank : ∀ c ∈ (a ++ ')' :: t).head?, CharClass.blank.has c = false) :
    matchPieces fieldAndArgument (f.written ++ ',' :: ' ' :: (a ++ ')' :: t)) =
      some ⟨f.written ++ ',' :: ' ' :: (a ++ [')']), [f.text, a]⟩ := by
  have hsep := match_separator hblank (match_lastArgument hne ha t)
  have hfield := match_quotedField f hsep
  simpa [fieldAndArgument, List.append_assoc, Hit.after] using hfield

theorem takes_fieldAndArgument (f : Field) (ha : IsArgument a) :
    Takes fieldAndArgument (joinWith [',', ' '] [f.written, a] ++ [')']) [f.text, a] := by
  intro t
  have h := match_fieldAndArgument f ha.ne_nil ha.close_not_mem (t := t)
    (ha.head _ fun _ => not_blank_of_argument)
  simpa [joinWith] using h

theorem takes_fieldAndArguments (f : Field) (ha : IsArgument a) (hb : IsArgument b) :
    Takes (quotedField ++ separator ++ middleArgument ++ lastArgument)
      (joinWith [',', ' '] [f.written, a, b] ++ [')']) [f.text, a, b] := by
  intro t
  have hlast := match_lastArgument hb.ne_nil hb.close_not_mem t
  have hmiddle := match_middleArgument ha (hb.head _ fun _ => not_blank_of_argument) hlast
  have hsep := match_separator (ha.head _ fun _ => not_blank_of_argument) hmiddle
  have hfield := match_quotedField f hsep
  simpa [joinWith, List.append_assoc, Hit.after] using hfield

theorem takes_arguments (ha : IsArgument a) (hb : IsArgument b) (hc : IsArgument c) :
    Takes (.field (.except ',') :: .literal [','] :: .field (.except ',') :: .literal [','] ::
      lastArgument) (joinWith [','] [a, b, c] ++ [')']) [a, b, c] := by
  intro t
  have hlast := match_lastArgument hc.ne_nil hc.close_not_mem t
  have hstop (u : Text) : ∀ c ∈ (',' :: u).head?, (CharClass.except ',').has c = false :=
    has_head_cons (by decide) u
  have hb' := matchPieces_field_append hb.ne_nil (hb.has_except (by decide)) (hstop _)
    (matchPieces_literal_some [','] hlast)
  have ha' := matchPieces_field_append ha.ne_nil (ha.has_except (by decide)) (hstop _)
    (matchPieces_literal_some [','] hb')
  simpa [joinWith, Hit.after, Hit.capture] using ha'

theorem match_property (f : Field) (hm : matchPieces ps u = some h) :
    matchPieces (.one .quote :: .field .notQuote :: .one .quote :: ps) (f.written ++ u) =
      some ⟨f.written ++ h.taken, f.text :: h.fields⟩ := by
  have hrun : ∀ c ∈ f.text, CharClass.notQuote.has c = true := by
    intro c hc
    have hdouble : c ≠ '"' := fun he => absurd (f.has c hc) (by rw [he]; decide)
    have hsingle : c ≠ '\'' := fun he => absurd (f.has c hc) (by rw [he]; decide)
    simp [CharClass.has, CharClass.isQuote, hdouble, hsingle]
  exact match_quoted f hrun (f.has_quote (by decide) (by decide)) hm

theorem takes_property (sep : Text) (f : Field) :
    Takes [.one .quote, .field .notQuote, .one .quote, .literal [')']]
      (joinWith sep [f.written] ++ [')']) [f.text] := by
  intro t
  have hclose : matchPieces [.literal [')']] (')' :: t) = some ⟨[')'], []⟩ :=
    matchPieces_literal_some (h := ⟨[], []⟩) [')'] rfl
  simpa [joinWith] using match_property f hclose

theorem takes_value (sep : Text) (f : Field) :
    Takes [.many .blank, .literal ['('], .many .blank, .one .quote, .field .notQuote, .one .quote,
      .many .blank, .literal [')']] ('(' :: (joinWith sep [f.written] ++ [')'])) [f.text] := by
  intro t
  have hclose : matchPieces [.many .blank, .literal [')']] (')' :: t) = some ⟨[')'], []⟩ :=
    matchPieces_many_append (w := []) (by simp) (has_head_cons (by decide) t)
      (matchPieces_literal_some (h := ⟨[], []⟩) [')'] rfl)
  have hfield := match_property f hclose
  have hblank := matchPieces_many_append (k := .blank) (w := []) (by simp)
    (f.isArgument.head (')' :: t) fun _ => not_blank_of_argument) hfield
  have hopen := matchPieces_many_append (k := .blank) (w := []) (by simp)
    (has_head_cons (by decide) _) (matchPieces_literal_some ['('] hblank)
  simpa [joinWith, Hit.after] using hopen

theorem match_notification {rest taken : Text} (hne : a ≠ []) (ha : ')' ∉ a)
    (hrest : matchPieces [.optional ';'] rest = some ⟨taken, []⟩) :
    matchPieces [.many .blank, .literal ['('], .field (.except ')'), .literal [')'], .optional ';']
      ('(' :: (a ++ ')' :: rest)) = some ⟨'(' :: (a ++ ')' :: taken), [a]⟩ := by
  have hfield := matchPieces_field_append (k := .except ')') hne (CharClass.has_except ha)
    (by simp [CharClass.has]) (matchPieces_literal_some [')'] hrest)
  have hopen := matchPieces_many_append (k := .blank) (w := []) (by simp)
    (has_head_cons (by decide) _) (matchPieces_literal_some ['('] hfield)
  simpa [Hit.after, Hit.capture] using hopen

theorem takes_notification (sep : Text) (ha : IsArgument a) :
    Takes [.many .blank, .literal ['('], .field (.except ')'), .literal [')'], .optional ';']
      ('(' :: ((joinWith sep [a] ++ [')']) ++ [';'])) [a] := by
  intro t
  have hsemi : matchPieces [.optional ';'] (';' :: t) = some ⟨[';'], []⟩ :=
    matchPieces_optional_cons (h := ⟨[], []⟩) ';' rfl
  simpa [joinWith] using match_notification ha.ne_nil ha.close_not_mem hsemi

theorem match_alert (hne : a ≠ []) (ha : ')' ∉ a) (t : Text) :
    matchPieces (.many .blank :: .literal ['('] :: lastArgument) ('(' :: (a ++ ')' :: t)) =
      some ⟨'(' :: (a ++ [')']), [a]⟩ := by
  have hopen := matchPieces_many_append (k := .blank) (w := []) (by simp)
    (has_head_cons (by decide) _)
    (matchPieces_literal_some ['('] (match_lastArgument hne ha t))
  simpa [Hit.after] using hopen

theorem takes_alert (ha : IsArgument a) :
    Takes (.many .blank :: .literal ['('] :: lastArgument) ('(' :: (a ++ [')'])) [a] := by
  intro t
  simpa using match_alert ha.ne_nil ha.close_not_mem t

def recordWord : Text := ['G', 'l', 'i', 'd', 'e', 'R', 'e', 'c', 'o', 'r', 'd']

theorem record_opening : ("GlideRecord(" : Text) = recordWord ++ ['('] := String.toList_ofList

def declarationRest (name : Word) (table : Quoted .word) : Text :=
  ' ' :: (name.text ++ (' ' :: '=' :: ' ' :: 'n' :: 'e' :: 'w' :: ' ' ::
    (recordWord ++ '(' :: (table.written ++ [')', ';']))))

theorem takes_declaration (name : Word) (table : Quoted .word) :
    Takes [.one .blank, .many .blank, .field .word, .many .blank, .literal ['='], .many .blank,
      .literal ['n', 'e', 'w'], .one .blank, .many .blank, .literal "GlideRecord(", .one .quote,
      .field .word, .one .quote, .literal [')'], .optional ';'] (declarationRest name table)
      [name.text, table.text] := by
  intro t
  rw [record_opening]
  have hsemi : matchPieces [.optional ';'] (';' :: t) = some ⟨[';'], []⟩ :=
    matchPieces_optional_cons (h := ⟨[], []⟩) ';' rfl
  -- from the last pieces to the first ones
  have htable := match_quoted table table.has (table.has_quote (by decide) (by decide))
    (matchPieces_literal_some [')'] hsemi)
  have hrecord := matchPieces_literal_some (recordWord ++ ['(']) htable
  have hhead (u : Text) :
      ∀ c ∈ ((recordWord ++ ['(']) ++ u).head?, CharClass.blank.has c = false :=
    has_head_cons (d := 'G') (by decide) _
  have hnew := matchPieces_literal_some ['n', 'e', 'w'] <|
    matchPieces_one_cons (k := .blank) (c := ' ') (by decide) <|
    matchPieces_many_append (k := .blank) (w := []) (by simp) (hhead _) hrecord
  have hequals := matchPieces_literal_some ['='] <|
    matchPieces_many_append (k := .blank) (w := [' ']) (by decide)
      (has_head_cons (by decide) _) hnew
  have hname := matchPieces_field_append name.ne_nil name.has (has_head_cons (by decide) _) <|
    matchPieces_many_append (k := .blank) (w := [' ']) (by decide)
      (has_head_cons (by decide) _) hequals
  have hblank := matchPieces_one_cons (k := .blank) (c := ' ') (by decide) <|
    matchPieces_many_append (k := .blank) (w := []) (by simp)
      ((name.isArgument fun _ => fieldName_of_word).head _ fun _ => not_blank_of_argument) hname
  simpa [declarationRest, Hit.after, Hit.capture] using hblank

theorem takes_oneOf {names : List Text} {name : Text} (hname : name ∈ names)
    (hnames : ∀ v ∈ names, '(' ∉ v ∧ ∀ w ∈ names, v <+: w → v = w) :
    Takes [.oneOf names, .many .blank, .literal ['(']] (name ++ ['(']) [] := by
  intro t
  have hopen : matchPieces [.many .blank, .literal ['(']] ('(' :: t) = some ⟨['('], []⟩ :=
    matchPieces_many_append (w := []) (by simp) (has_head_cons (by decide) t)
      (matchPieces_literal_some (h := ⟨[], []⟩) ['('] rfl)
  have hother : ∀ v ∈ names, v <+: name ++ '(' :: t → v = name := by
    intro v hv hp
    obtain ⟨hparen, huniq⟩ := hnames v hv
    exact huniq name hname ((prefix_append_cons_iff hparen name t).1 hp)
  simpa [Hit.after] using matchPieces_oneOf_some hname hother hopen

end Pieces

end GlideBridge
