import Mathlib.Data.List.Induction
import Mathlib.Data.List.TakeWhile
import Mathlib.Order.Basic

/-! Texts written line by line: where the last complete line ends, the complete lines, cutting a text to a length
and appending to it. A complete line survives what is appended, and every cut that leaves the complete lines whole. -/

namespace LineText

variable {α : Type*} [DecidableEq α] (sep : α)

/-- The length of a text up to its last separator and with it. -/
def ended (text : List α) : ℕ := (text.reverse.dropWhile fun char => char ≠ sep).length

/-- The complete lines of a text, none where nothing stands before its last separator. -/
def linesOf (text : List α) : List (List α) :=
  let complete := (text.take (ended sep text)).dropLast
  if complete = [] then [] else complete.splitOn sep

/-- A text cut to a length, filled up where it is shorter. -/
def cut (fill : α) (length : ℕ) (text : List α) : List α :=
  text.take length ++ List.replicate (length - text.length) fill

/-- The line is one of the complete lines of a text. -/
def Contains (line text : List α) : Prop :=
  ∃ before after, text = before ++ line ++ sep :: after ∧ (before = [] ∨ before.getLast? = some sep)

variable {sep} {fill : α} {line text more : List α} {length : ℕ}

theorem ended_le : ended sep text ≤ text.length := by
  unfold ended
  have hle := (List.dropWhile_suffix fun char => decide (char ≠ sep) : _ <:+ text.reverse).length_le
  rwa [List.length_reverse] at hle

theorem ended_of_not_mem (h : sep ∉ text) : ended sep text = 0 := by
  unfold ended
  rw [List.length_eq_zero_iff, List.dropWhile_eq_nil_iff]
  intro char hchar
  rw [decide_eq_true_eq]
  rintro rfl
  exact h (List.mem_reverse.mp hchar)

theorem ended_concat : ended sep (text ++ [sep]) = text.length + 1 := by
  unfold ended
  rw [List.reverse_append, List.reverse_singleton, List.singleton_append, List.dropWhile_cons_of_neg (by simp),
    List.length_cons, List.length_reverse]

/-- What stands up to a separator ends there or later. -/
theorem le_ended {before after : List α} (h : text = before ++ sep :: after) :
    before.length + 1 ≤ ended sep text := by
  induction after using List.reverseRecOn generalizing text with
  | nil =>
      rw [h, ended_concat]
  | append_singleton rest last ih =>
      have hbefore := ih rfl
      have hsame : text = (before ++ sep :: rest) ++ [last] := by rw [h]; simp
      rw [hsame]
      by_cases hlast : last = sep
      · rw [hlast, ended_concat, List.length_append, List.length_cons]
        omega
      · refine hbefore.trans (le_of_eq ?_)
        unfold ended
        rw [List.reverse_concat, List.dropWhile_cons_of_pos (by simpa using hlast)]

omit [DecidableEq α] in
theorem contains_concat (line : List α) : Contains sep line (line ++ [sep]) := ⟨[], [], by simp, Or.inl rfl⟩

omit [DecidableEq α] in
theorem Contains.append (h : Contains sep line text) (more : List α) : Contains sep line (text ++ more) := by
  obtain ⟨before, after, rfl, hstart⟩ := h
  exact ⟨before, after ++ more, by simp, hstart⟩

/-- A cut that leaves the complete lines whole leaves each of them. -/
theorem Contains.cut (h : Contains sep line text) (hlength : ended sep text ≤ length) :
    Contains sep line (cut fill length text) := by
  obtain ⟨before, after, htext, hstart⟩ := h
  have hends : (before ++ line).length + 1 ≤ length := (le_ended htext).trans hlength
  refine ⟨before, after.take (length - (before ++ line).length - 1) ++
    List.replicate (length - text.length) fill, ?_, hstart⟩
  unfold LineText.cut
  obtain ⟨rest, hrest⟩ : ∃ rest, length = (before ++ line).length + (rest + 1) :=
    ⟨length - (before ++ line).length - 1, by omega⟩
  rw [htext, hrest, List.take_length_add_append, List.take_succ_cons, List.append_assoc, List.cons_append]
  congr 4
  omega

theorem cut_ended_of_not_mem (h : sep ∉ text) : cut fill (ended sep text) text = [] := by
  rw [ended_of_not_mem h]
  simp [cut]

theorem cut_ended_concat : cut fill (ended sep (text ++ [sep])) (text ++ [sep]) = text ++ [sep] := by
  have hlength : text.length + 1 = (text ++ [sep]).length := by simp
  rw [ended_concat, hlength]
  unfold cut
  rw [List.take_length, Nat.sub_self, List.replicate_zero, List.append_nil]

theorem linesOf_of_not_mem (h : sep ∉ text) : linesOf sep text = [] := by
  unfold linesOf
  rw [ended_of_not_mem h]
  rfl

end LineText
