import GlideBridge.Proofs.RecordLines
import GlideBridge.Proofs.Wrapping
import Mathlib.Data.List.Induction

/-! Scripts without the function around them. The head of a function is taken as a whole, and no
line of a statement begins like another one, so what is left of a script is its statements. -/

namespace GlideBridge

open Text

namespace Handler

structure IsLine (l : Text) : Prop where
  head : ∃ c t, l = c :: t ∧ c ≠ 'f' ∧ c ≠ '{' ∧ isBlank c = false
  line : '\n' ∉ l
  last : l.getLast? = some ';'

theorem IsLine.headless {l t : Text} (hl : IsLine l) (ht : Headless false t) (fresh : Bool) :
    Headless fresh (l ++ t) := by
  obtain ⟨c, v, rfl, hc, -⟩ := hl.head
  exact headless_line hc hl.line ht fresh

theorem headless_joinLines {ls : List Text} (hne : ls ≠ []) (hls : ∀ l ∈ ls, IsLine l) {t : Text}
    (ht : Headless false t) (fresh : Bool) : Headless fresh (joinLines ls ++ t) := by
  induction ls, hne using List.recNeNil generalizing fresh with
  | singleton l => simpa [joinLines] using (hls l List.mem_cons_self).headless ht fresh
  | cons l ls hne ih =>
    rw [List.forall_mem_cons] at hls
    have hrest : Headless false ('\n' :: (joinLines ls ++ t)) :=
      headless_line_break_iff.2 (ih hls.2 true)
    rw [joinLines_cons l hne, List.append_assoc]
    exact hls.1.headless hrest fresh

theorem exists_head_joinLines {ls : List Text} (hne : ls ≠ []) (hls : ∀ l ∈ ls, IsLine l) :
    ∃ c t, joinLines ls = c :: t ∧ c ≠ '{' ∧ isBlank c = false := by
  obtain ⟨l, ls, rfl⟩ := List.exists_cons_of_ne_nil hne
  obtain ⟨c, t, rfl, -, hbrace, hblank⟩ := (hls l List.mem_cons_self).head
  exact ⟨c, _, joinLines_append_cons [c] t ls, hbrace, hblank⟩

theorem getLast?_joinLines {ls : List Text} (hne : ls ≠ []) (hls : ∀ l ∈ ls, IsLine l) :
    (joinLines ls).getLast? = some ';' := by
  induction ls, hne using List.recNeNil with
  | singleton l => simpa [joinLines] using (hls l List.mem_cons_self).last
  | cons l ls hne ih =>
    rw [List.forall_mem_cons] at hls
    rw [joinLines_cons l hne, List.getLast?_append, List.getLast?_cons, ih hls.2]
    rfl

theorem unwrap_joinLines {ls : List Text} (hne : ls ≠ []) (hls : ∀ l ∈ ls, IsLine l) :
    unwrap (joinLines ls) = joinLines ls := by
  have hheadless : Headless true (joinLines ls) := by
    have h := headless_joinLines hne hls (headless_nil false) true
    rwa [List.append_nil] at h
  obtain ⟨c, t, ht, hbrace, hblank⟩ := exists_head_joinLines hne hls
  have hfirst : ∀ d ∈ (joinLines ls).head?, isBlank d = false ∧ d ≠ '{' := by
    rw [ht]
    simpa using ⟨hblank, hbrace⟩
  rw [unwrap_of_headless hfirst hheadless]
  refine dropClosingBrace_of_last ?_
  rw [getLast?_joinLines hne hls]
  simpa using (by decide : isBlank ';' = false)

theorem unwrap_function (name : Word) {parameters : Text} (hp : ')' ∉ parameters) {ls : List Text}
    (hne : ls ≠ []) (hls : ∀ l ∈ ls, IsLine l) :
    unwrap ((plainWrapper name parameters hp).head ++ ('\n' :: (joinLines ls ++ ['\n', '}']))) =
      joinLines ls := by
  obtain ⟨c, t, ht, hbrace, hblank⟩ := exists_head_joinLines hne hls
  have hleft : trimLeft (joinLines ls) = joinLines ls := by rw [ht, trimLeft_of_head hblank]
  have hright : trimRight (joinLines ls) = joinLines ls := by
    refine trimRight_of_last ?_
    rw [getLast?_joinLines hne hls]
    simpa using (by decide : isBlank ';' = false)
  have hfirst : (trimLeft ('\n' :: (joinLines ls ++ ['\n']))).head? ≠ some '{' := by
    rw [trimLeft_cons_of_blank (by decide), ht, List.cons_append, trimLeft_of_head hblank]
    simpa using hbrace
  have hheadless : Headless false ('\n' :: (joinLines ls ++ ['\n'])) := by
    refine headless_line_break_iff.2 (headless_joinLines hne hls ?_ true)
    exact headless_line_break_iff.2 (headless_nil true)
  have hbody : '\n' :: (joinLines ls ++ ['\n', '}']) =
      ('\n' :: (joinLines ls ++ ['\n'])) ++ ['}'] := by simp
  have htrim := trim_blank_append_blank (v := ['\n']) (w := ['\n']) (by decide) (by decide)
    (joinLines ls)
  rw [hbody]
  refine ((plainWrapper name parameters hp).unwrap_write hfirst hheadless).trans (htrim.trans ?_)
  rw [trim, hleft, hright]

end Handler

open Handler

theorem IsCall.isLine {name sep : Text} {args : List Text} (h : IsCall name sep args)
    (s : CallSpace) : IsLine (Statement.callOf s name sep args ++ [';']) := by
  refine ⟨?_, ?_, List.getLast?_concat ..⟩
  · obtain ⟨w, hw⟩ := s.callText_eq_cons name
    rw [IsCall.line_eq, hw, List.cons_append]
    exact ⟨'g', _, rfl, by decide, by decide, by decide⟩
  · have hline :=
      h.not_mem s (c := '\n') (by decide) (by cases s <;> decide) (by decide) (by decide)
    simpa using hline

namespace Statement

theorem isLine_record (o : RecordName) (w : Word) : IsLine ((o.statement w).text ++ [';']) := by
  rw [record_line]
  refine ⟨?_, ?_, List.getLast?_concat ..⟩
  · cases o with
    | current => exact ⟨'c', _, rfl, by decide, by decide, by decide⟩
    | workflow => exact ⟨'w', _, rfl, by decide, by decide, by decide⟩
  · have ho : '\n' ∉ o.word := by cases o <;> decide
    simp [ho, w.isArgument.not_mem (c := '\n') (by decide)]

theorem isLine (s : Statement) : IsLine (s.text ++ [';']) := by
  have hword (w : Word) : '\n' ∉ w.text := w.isArgument.not_mem (by decide)
  cases s with
  | system c => exact c.isCall.isLine .system
  | alert a =>
    have ha := a.isArgument.not_mem (c := '\n') (by decide)
    rw [alert_line]
    exact ⟨⟨'a', _, rfl, by decide, by decide, by decide⟩, by simp [alertWord, ha],
      List.getLast?_concat ..⟩
  | current w => exact isLine_record .current w
  | workflow w => exact isLine_record .workflow w
  | declare w q =>
    have hq : '\n' ∉ q.written :=
      (Quoted.isArgument (fun _ => fieldName_of_word) q).not_mem (by decide)
    refine ⟨?_, ?_, List.getLast?_concat ..⟩
    · rw [declare_line]
      exact ⟨'v', _, rfl, by decide, by decide, by decide⟩
    · rw [declare_line]
      simp [declarationWord, declarationRest, recordWord, hword, hq]
  | form c => exact c.isCall.isLine .form
  | unknown c => exact c.isCall.isLine c.space

end Statement

theorem Script.unwrap_write (script : Script) {ss : List Statement} (hne : ss ≠ []) :
    unwrap (script.write ss) = joinLines (ss.map fun s => s.text ++ [';']) := by
  have hmap : (ss.map fun s => s.text ++ [';']) ≠ [] := by simpa using hne
  have hls : ∀ l ∈ ss.map fun s => s.text ++ [';'], IsLine l := by
    intro l hl
    obtain ⟨s, -, rfl⟩ := List.mem_map.1 hl
    exact s.isLine
  cases script with
  | bare => exact unwrap_joinLines hmap hls
  | function name parameters closed =>
    have hkeyword : ("function " : Text) = keyword ++ [' '] := String.toList_ofList
    have hbrace : (") \x7b\n" : Text) = [')', ' ', '{', '\n'] := String.toList_ofList
    have hopen : ("(" : Text) = ['('] := String.toList_ofList
    have hclose : ("\n\x7d" : Text) = ['\n', '}'] := String.toList_ofList
    have hwrite : (function name parameters closed).write ss =
        ("function " ++ name.text ++ "(" ++ parameters ++ ") \x7b\n" ++
          joinLines (ss.map fun s => s.text ++ [';']) ++ "\n\x7d" : Text) := rfl
    have hunwrap := unwrap_function name closed hmap hls
    rw [hwrite, hkeyword, hbrace, hopen, hclose]
    simpa [Wrapper.head, plainWrapper] using hunwrap

end GlideBridge
