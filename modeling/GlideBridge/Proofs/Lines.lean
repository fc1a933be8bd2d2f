import GlideBridge.Proofs.Report
import Mathlib.Data.List.Induction

/-! Lines of a text. They are what stands between its newlines, and no other character ends a line.
Indentation puts the unit in front of each of them and makes no new line, and a handler has one line
in front of them and one behind them, so a script can be read back from its handler. -/

namespace GlideBridge

open Text

namespace Text

theorem lines_eq_splitOn (t : Text) : lines t = t.splitOn '\n' := by
  induction t with
  | nil => exact (List.splitOn_nil '\n').symm
  | cons c t ih =>
    rw [lines, List.splitOn_cons_eq_if_modifyHead, ih]
    by_cases hc : c = '\n'
    · rw [if_pos hc, if_pos (beq_iff_eq.2 hc)]
    · rw [if_neg hc, if_neg (mt beq_iff_eq.1 hc)]
      cases hl : t.splitOn '\n' with
      | nil => exact absurd hl (List.splitOn_ne_nil '\n' t)
      | cons l ls => rfl

theorem joinLines_singleton (l : Text) : joinLines [l] = l := by simp [joinLines]

theorem joinLines_concat {ls : List Text} (hne : ls ≠ []) (l : Text) :
    joinLines (ls ++ [l]) = joinLines ls ++ '\n' :: l := by
  induction ls, hne using List.recNeNil with
  | singleton m =>
    rw [List.singleton_append, joinLines_cons m (List.cons_ne_nil l []), joinLines_singleton,
      joinLines_singleton]
  | cons m ls hne ih =>
    have hconcat : ls ++ [l] ≠ [] := by simp
    rw [List.cons_append, joinLines_cons m hconcat, ih, joinLines_cons m hne, List.append_assoc,
      List.cons_append]

theorem lines_of_not_mem {l : Text} (hl : '\n' ∉ l) : lines l = [l] := by
  rw [lines_eq_splitOn, List.splitOn_eq_singleton hl]

theorem lines_append_line_break (t u : Text) : lines (t ++ '\n' :: u) = lines t ++ lines u := by
  simp only [lines_eq_splitOn]
  exact List.splitOn_append_cons_self t u

theorem lines_joinLines {ls : List Text} (hne : ls ≠ []) (hls : ∀ l ∈ ls, '\n' ∉ l) :
    lines (joinLines ls) = ls := by
  rw [lines_eq_splitOn]
  exact List.splitOn_intercalate '\n' hls hne

theorem not_mem_of_mem_lines {l t : Text} (h : l ∈ lines t) : '\n' ∉ l := by
  induction t generalizing l with
  | nil => simp_all [lines]
  | cons c t ih =>
    rw [lines] at h
    split at h
    · rcases List.mem_cons.1 h with rfl | h
      · exact List.not_mem_nil
      · exact ih h
    · next hc =>
      cases hl : lines t with
      | nil => exact absurd hl (lines_ne_nil t)
      | cons m ls =>
        rw [hl] at h ih
        rcases List.mem_cons.1 h with rfl | h
        · simpa [Ne.symm hc] using ih List.mem_cons_self
        · exact ih (List.mem_cons_of_mem m h)

theorem lines_induction {P : Text → Prop} (line : ∀ l, '\n' ∉ l → P l)
    (more : ∀ l t, '\n' ∉ l → P t → P (l ++ '\n' :: t)) (t : Text) : P t := by
  have hjoin (ls : List Text) (hne : ls ≠ []) (hls : ∀ l ∈ ls, '\n' ∉ l) : P (joinLines ls) := by
    induction ls, hne using List.recNeNil with
    | singleton l =>
      rw [joinLines_singleton]
      exact line l (hls l List.mem_cons_self)
    | cons l ls hne ih =>
      rw [List.forall_mem_cons] at hls
      rw [joinLines_cons l hne]
      exact more l _ hls.1 (ih hls.2)
  rw [← joinLines_lines t]
  exact hjoin _ (lines_ne_nil t) fun l hl => not_mem_of_mem_lines hl

theorem indent_joinLines (unit : Text) {ls : List Text} (hne : ls ≠ [])
    (hls : ∀ l ∈ ls, '\n' ∉ l) : indent unit (joinLines ls) = joinLines (ls.map (unit ++ ·)) := by
  rw [indent, lines_joinLines hne hls]

theorem lines_indent {unit : Text} (hunit : '\n' ∉ unit) (t : Text) :
    lines (indent unit t) = (lines t).map (unit ++ ·) := by
  refine lines_joinLines (mt List.map_eq_nil_iff.1 (lines_ne_nil t)) fun l hl => ?_
  obtain ⟨m, hm, rfl⟩ := List.mem_map.1 hl
  rw [List.mem_append, not_or]
  exact ⟨hunit, not_mem_of_mem_lines hm⟩

end Text

namespace Handler

theorem line_not_mem_heading {name : Text} (hname : '\n' ∉ name) : '\n' ∉ heading name := by
  have hfront : '\n' ∉ ("function " : Text) := by decide +kernel
  have hopen : '\n' ∉ ("(" : Text) := by decide +kernel
  have hparameters : '\n' ∉ joinWith ", " parameters := by decide +kernel
  have hback : '\n' ∉ (") \x7b" : Text) := by decide +kernel
  -- Put together piece by piece: a rewrite with the definition evaluates its texts.
  exact List.not_mem_append (List.not_mem_append (List.not_mem_append
    (List.not_mem_append hfront hname) hopen) hparameters) hback

theorem wrap_joinLines (name : Text) {ls : List Text} (hne : ls ≠ []) :
    wrap name (joinLines ls) = joinLines (heading name :: (ls ++ [['}']])) := by
  have hconcat : ls ++ [['}']] ≠ [] := by simp
  rw [wrap_eq, joinLines_cons _ hconcat, joinLines_concat hne]

theorem lines_wrap {name : Text} (hname : '\n' ∉ name) (body : Text) :
    lines (wrap name body) = heading name :: (lines body ++ [['}']]) := by
  have hbrace : '\n' ∉ ['}'] := by decide
  rw [wrap_eq, lines_append_line_break, lines_append_line_break,
    lines_of_not_mem (line_not_mem_heading hname), lines_of_not_mem hbrace, List.singleton_append]

/-- What stands between the first line and the last, without the first `width` characters of each
line. -/
def inner (width : ℕ) (t : Text) : Text := joinLines ((lines t).tail.dropLast.map (·.drop width))

theorem inner_wrap_indent {unit name : Text} (hunit : '\n' ∉ unit) (hname : '\n' ∉ name)
    (t : Text) : inner unit.length (wrap name (indent unit t)) = t := by
  have hdrop : (fun l : Text => l.drop unit.length) ∘ (unit ++ ·) = id :=
    funext fun l => List.drop_left
  rw [inner, lines_wrap hname, List.tail_cons, List.dropLast_concat, lines_indent hunit,
    List.map_map, hdrop, List.map_id, joinLines_lines]

/-- The lines of a handler are its heading, the lines of the script in their order, each behind the
unit, and a brace. So the script can be read back, and no two scripts have the same handler. -/
theorem wrap_indent_keeps_lines {unit name : Text} (hunit : '\n' ∉ unit) (hname : '\n' ∉ name)
    (t : Text) :
    (wrap name (indent unit t)).splitOn '\n' =
        heading name :: ((t.splitOn '\n').map (unit ++ ·) ++ [['}']]) ∧
      inner unit.length (wrap name (indent unit t)) = t ∧
      ∀ u, wrap name (indent unit u) = wrap name (indent unit t) → u = t := by
  refine ⟨?_, inner_wrap_indent hunit hname t, fun u hu => ?_⟩
  · rw [← lines_eq_splitOn, ← lines_eq_splitOn, lines_wrap hname, lines_indent hunit]
  · calc u = inner unit.length (wrap name (indent unit u)) := (inner_wrap_indent hunit hname u).symm
      _ = inner unit.length (wrap name (indent unit t)) := by rw [hu]
      _ = t := inner_wrap_indent hunit hname t

theorem wrap_indent_keeps_lines_control :
    '\n' ∉ ("\t" : Text) ∧ '\n' ∉ ("f" : Text) ∧
      (wrap "f" (indent "\t" "a\rb\u2028c\n\n\x7d\n\x0c\n")).splitOn '\n' =
        ["function f(ele, fieldObj, allFields) \x7b".toList, "\ta\rb\u2028c".toList, "\t".toList,
          "\t\x7d".toList, "\t\x0c".toList, "\t".toList, "\x7d".toList] ∧
      inner 1 (wrap "f" (indent "\t" "a\rb\u2028c\n\n\x7d\n\x0c\n")) =
        "a\rb\u2028c\n\n\x7d\n\x0c\n".toList ∧
      ∀ u, wrap "f" (indent "\t" u) = wrap "f" (indent "\t" "a\rb\u2028c\n\n\x7d\n\x0c\n") →
        u = "a\rb\u2028c\n\n\x7d\n\x0c\n".toList := by
  have hunit : '\n' ∉ ("\t" : Text) := by decide +kernel
  have hname : '\n' ∉ ("f" : Text) := by decide +kernel
  obtain ⟨hlines, hinner, hinj⟩ :=
    wrap_indent_keeps_lines hunit hname "a\rb\u2028c\n\n\x7d\n\x0c\n"
  refine ⟨hunit, hname, hlines.trans ?_, hinner, hinj⟩
  decide +kernel

end Handler

end GlideBridge
