import Mainboard.NodeDeletion

/-! What the lines of a deletion hold. The bytes of a file stand on lines counted by the line feeds before them; a range of
whole lines holds the bytes on those lines, a blank row only blanks, and before a node that is alone on its line stand
only blanks. -/

namespace Mainboard.Analysis.Nodes

/-- The line a byte stands on. -/
def lineOf (data : Bytes) (offset : ℕ) : ℕ := (placeOf data offset).1

section Lines

variable {data : Bytes} {offset other base : ℕ} {byte : UInt8}

theorem lineOf_mono (h : offset ≤ other) : lineOf data offset ≤ lineOf data other :=
  Nat.succ_le_succ ((List.take_sublist_take_left h).count_le 10)

theorem lineEnds_le {index stop : ℕ} (h : (Source.lineEnds base data)[index]? = some stop) (offset : ℕ) :
    stop ≤ base + offset ↔ index + 1 ≤ (data.take offset).count 10 := by
  induction data generalizing base offset index with
  | nil => cases h
  | cons byte data ih =>
      have hlt := Source.lt_lineEnds stop (List.mem_of_getElem? h)
      cases offset with
      | zero =>
          rw [List.take_zero, List.count_nil]
          omega
      | succ offset =>
          rw [List.take_succ_cons]
          rw [Source.lineEnds] at h
          split at h
          · next hbyte =>
              rw [hbyte, List.count_cons_self]
              cases index with
              | zero =>
                  obtain rfl := Option.some.inj h
                  omega
              | succ index =>
                  have hlater := ih h offset
                  omega
          · next hbyte =>
              have hlater := ih h offset
              rw [List.count_cons_of_ne (by simpa using hbyte)]
              omega

theorem length_lineEnds (base : ℕ) (data : Bytes) : (Source.lineEnds base data).length = data.count 10 := by
  induction data generalizing base with
  | nil => rfl
  | cons byte data ih =>
      rw [Source.lineEnds]
      split
      · next h => rw [List.length_cons, ih, h, List.count_cons_self]
      · next h => rw [ih, List.count_cons_of_ne (by simpa using h)]

/-- A line starts at or before a byte exactly when the byte stands on it or on a later one. -/
theorem start_le_iff {index start : ℕ} (h : (Source.starts ⟨data⟩)[index]? = some start) (hoffset : offset < data.length) :
    start ≤ offset ↔ index + 1 ≤ lineOf data offset := by
  have hends : ∀ start, (0 :: Source.lineEnds 0 data)[index]? = some start →
      (start ≤ offset ↔ index + 1 ≤ lineOf data offset) := by
    intro start hstart
    cases index with
    | zero =>
        obtain rfl := Option.some.inj hstart
        exact iff_of_true (Nat.zero_le _) (Nat.succ_le_succ (Nat.zero_le _))
    | succ index =>
        have hle := @lineEnds_le data 0 index start hstart offset
        rw [Nat.zero_add] at hle
        rw [hle, lineOf, placeOf, Nat.succ_le_succ_iff]
  unfold Source.starts at h
  dsimp only at h
  split at h
  · exact hends start h
  · rcases Nat.lt_or_ge index (0 :: Source.lineEnds 0 data).length with hlt | hge
    · rw [List.getElem?_append_left hlt] at h
      exact hends start h
    · rw [List.getElem?_append_right hge] at h
      rw [List.length_cons, length_lineEnds] at hge h
      have hcount : (data.take offset).count 10 ≤ data.count 10 := (List.take_sublist _ _).count_le 10
      obtain ⟨hindex, rfl⟩ := List.getElem?_eq_some_iff.mp h
      rw [List.length_singleton] at hindex
      simp only [List.getElem_singleton, lineOf, placeOf]
      omega

/-- A range of whole lines holds the bytes on those lines. -/
theorem mem_lines {span : Span} {range : ℕ × ℕ} (hfirst : 0 < span.startLine)
    (h : Source.lines ⟨data⟩ span = some range) (hoffset : offset < data.length) :
    range.1 ≤ offset ∧ offset < range.2 ↔ span.startLine ≤ lineOf data offset ∧ lineOf data offset ≤ span.lastLine := by
  obtain ⟨line, hline⟩ := Nat.exists_eq_succ_of_ne_zero hfirst.ne'
  simp only [Source.lines, hline, Source.lineStart, Option.bind_eq_bind, Option.bind_eq_some_iff] at h
  obtain ⟨start, hstart, stop, hstop, h⟩ := h
  cases h
  have hlow := start_le_iff hstart hoffset
  have hhigh := start_le_iff hstop hoffset
  rw [hline]
  dsimp only
  omega

/-- Between two bytes of one line stands no line feed. -/
theorem column_ge (hle : offset ≤ other) (hother : other ≤ data.length) (hline : lineOf data offset = lineOf data other) :
    other - offset ≤ ((data.take other).reverse.takeWhile (· ≠ 10)).length := by
  have hparts : data.take other = data.take offset ++ (data.take other).drop offset := by
    conv_lhs => rw [← List.take_append_drop offset (data.take other)]
    rw [List.take_take, Nat.min_eq_left hle]
  have hcount : ((data.take other).drop offset).count 10 = 0 := by
    have hsame : (data.take offset).count 10 = (data.take other).count 10 := Nat.succ.inj hline
    rw [hparts, List.count_append] at hsame
    omega
  have hnone := List.count_eq_zero.mp hcount
  have hall : (((data.take other).drop offset).reverse).takeWhile (· ≠ 10) = ((data.take other).drop offset).reverse := by
    refine List.takeWhile_eq_self_iff.mpr fun byte hbyte => decide_eq_true fun heq => hnone ?_
    exact heq ▸ List.mem_reverse.mp hbyte
  rw [hparts, List.reverse_append, List.takeWhile_append, hall, if_pos rfl, List.length_append, List.length_reverse,
    List.length_drop, List.length_take]
  omega

/-- Before a byte that its line's blanks reach up to, the line holds only blanks. -/
theorem indent_blank (hle : offset < other) (hother : other ≤ data.length)
    (hindent : (indent data other : ℤ) = (placeOf data other).2) (hline : lineOf data offset = lineOf data other)
    (hbyte : data[offset]? = some byte) : LineEdit.solid byte = false := by
  have hwide := column_ge hle.le hother hline
  have hshort := ((data.take other).reverse.takeWhile_sublist (· ≠ 10)).length_le
  rw [List.length_reverse, List.length_take_of_le hother] at hshort
  simp only [placeOf, Nat.cast_inj, indent] at hindent
  have hin : offset - (other - ((data.take other).reverse.takeWhile (· ≠ 10)).length) <
      ((data.drop (other - ((data.take other).reverse.takeWhile (· ≠ 10)).length)).takeWhile
        fun byte => byte == 32 || byte == 9).length := by omega
  have hmem := List.mem_takeWhile_imp (List.getElem_mem hin)
  have hget : ((data.drop (other - ((data.take other).reverse.takeWhile (· ≠ 10)).length)).takeWhile
      fun byte => byte == 32 || byte == 9)[offset - (other - ((data.take other).reverse.takeWhile (· ≠ 10)).length)] =
        byte := by
    have hprefix := List.takeWhile_prefix (l := data.drop (other - ((data.take other).reverse.takeWhile (· ≠ 10)).length))
      fun byte => byte == 32 || byte == 9
    obtain ⟨hlt, rfl⟩ := List.getElem?_eq_some_iff.mp hbyte
    rw [List.IsPrefix.getElem hprefix hin, List.getElem_drop]
    congr 1
    omega
  rw [hget] at hmem
  unfold LineEdit.solid
  rcases Bool.or_eq_true _ _ ▸ hmem with h | h
  · rw [eq_of_beq h]; rfl
  · rw [eq_of_beq h]; rfl

end Lines

/-! Rows of blanks -/

section Rows

variable {data : Bytes} {offset line row : ℕ} {byte : UInt8} {rows : List Bytes}

/-- A byte that is no line feed is in the row of its line. -/
theorem mem_splitOn (h : data[offset]? = some byte) :
    byte = 10 ∨ ∃ row, (data.splitOn 10)[(data.take offset).count 10]? = some row ∧ byte ∈ row := by
  induction data generalizing offset with
  | nil => cases h
  | cons first data ih =>
      obtain ⟨head, tail, hsplit⟩ := List.exists_cons_of_ne_nil (List.splitOn_ne_nil (10 : UInt8) data)
      rw [List.splitOn_cons_eq_if_modifyHead]
      cases offset with
      | zero =>
          obtain rfl := Option.some.inj h
          by_cases hfirst : first = 10
          · exact .inl hfirst
          · rw [if_neg (by simpa using hfirst), hsplit]
            exact .inr ⟨first :: head, rfl, List.mem_cons_self⟩
      | succ offset =>
          rw [List.getElem?_cons_succ] at h
          refine (ih h).imp_right ?_
          rintro ⟨row, hrow, hmem⟩
          rw [List.take_succ_cons]
          by_cases hfirst : first = 10
          · rw [hfirst, if_pos (by rfl), List.count_cons_self, List.getElem?_cons_succ]
            exact ⟨row, hrow, hmem⟩
          · rw [if_neg (by simpa using hfirst), List.count_cons_of_ne (by simpa using hfirst)]
            rw [hsplit] at hrow ⊢
            cases hcount : (data.take offset).count 10 with
            | zero =>
                rw [hcount] at hrow
                obtain rfl := Option.some.inj hrow
                exact ⟨first :: head, rfl, List.mem_cons_of_mem _ hmem⟩
            | succ count =>
                rw [hcount] at hrow
                exact ⟨row, hrow, hmem⟩

/-- A blank row's line holds only blanks. -/
theorem blankRow_blank (hrow : DeleteNode.blankRow (DeleteNode.rowsOf data) row = true)
    (hbyte : data[offset]? = some byte) (hline : lineOf data offset = row + 1) : LineEdit.solid byte = false := by
  have hfeed : LineEdit.solid 10 = false := rfl
  have hcount : (data.take offset).count 10 = row := Nat.succ.inj hline
  have hchopped : byte = 10 ∨ (chopped 10 data)[offset]? = some byte ∧ (chopped 10 data).take offset = data.take offset := by
    rcases chopped_cases 10 data with hcut | ⟨hkept, -⟩
    · have hlt := (List.getElem?_eq_some_iff.mp hbyte).1
      rw [hcut] at hbyte hlt
      rw [List.length_append, List.length_singleton] at hlt
      rcases Nat.lt_succ_iff_lt_or_eq.mp hlt with hshort | hend
      · rw [List.getElem?_append_left hshort] at hbyte
        refine .inr ⟨hbyte, ?_⟩
        conv_rhs => rw [hcut]
        rw [List.take_append_of_le_length hshort.le]
      · rw [List.getElem?_append_right hend.ge, hend, Nat.sub_self] at hbyte
        exact .inl (Option.some.inj hbyte).symm
    · rw [← hkept]
      exact .inr ⟨hbyte, rfl⟩
  rcases hchopped with rfl | ⟨hchop, htake⟩
  · exact hfeed
  · rcases mem_splitOn hchop with rfl | ⟨found, hfound, hmem⟩
    · exact hfeed
    · rw [htake, hcount] at hfound
      unfold DeleteNode.blankRow DeleteNode.rowsOf at hrow
      rw [hfound] at hrow
      have hblank := List.all_eq_true.mp hrow byte hmem
      unfold LineEdit.solid
      unfold blank at hblank
      rw [hblank]
      rfl

theorem blanksUp_le (rows : List Bytes) (line : ℕ) : DeleteNode.blanksUp rows line ≤ line := by
  fun_induction DeleteNode.blanksUp rows line with
  | case1 line h ih => exact ih.trans (Nat.le_succ _)
  | case2 => exact Nat.le_refl _
  | case3 => exact Nat.le_refl _

theorem blanksUp_pos (rows : List Bytes) (h : 0 < line) : 0 < DeleteNode.blanksUp rows line := by
  fun_induction DeleteNode.blanksUp rows line with
  | case1 line hblank ih => exact ih (Nat.succ_pos _)
  | case2 => exact h
  | case3 => exact h

/-- Every line from the one reached up to the one it was reached from is blank. -/
theorem blanksUp_blank (hlow : DeleteNode.blanksUp rows line ≤ row + 1) (hhigh : row + 1 < line) :
    DeleteNode.blankRow rows row = true := by
  fun_induction DeleteNode.blanksUp rows line with
  | case1 line hblank ih =>
      rcases Nat.lt_or_ge (row + 1) (line + 1) with hlt | hge
      · exact ih hlow hlt
      · obtain rfl : row = line := by omega
        exact hblank
  | case2 => omega
  | case3 => omega

theorem blanksDown_blank (hlow : line ≤ row) (hhigh : row < DeleteNode.blanksDown rows line) :
    DeleteNode.blankRow rows row = true := by
  have hin : row - line < ((rows.drop line).takeWhile fun row => row.all blank).length := by
    rw [DeleteNode.blanksDown] at hhigh
    omega
  have hprefix := List.takeWhile_prefix (l := rows.drop line) fun row => row.all blank
  have hblank := List.mem_takeWhile_imp (List.getElem_mem hin)
  have hlt := hin.trans_le hprefix.length_le
  rw [List.length_drop] at hlt
  rw [List.IsPrefix.getElem hprefix hin, List.getElem_drop] at hblank
  unfold DeleteNode.blankRow
  rw [List.getElem?_eq_getElem (by omega : row < rows.length)]
  simp only [Nat.add_sub_cancel' hlow] at hblank
  exact hblank

end Rows

end Mainboard.Analysis.Nodes
