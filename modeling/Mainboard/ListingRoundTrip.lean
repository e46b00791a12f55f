import Mainboard.BlobVerifying
import Mainboard.ListReading
import Mainboard.Runs
import Mainboard.SourceListing

/-! What each reader makes of the listing a seal writes, and what the lake restores of it. A path that no line end breaks
is read back by all of them, the target refusing the paths it keeps for itself, and a listing archived once restores the
bytes its digests were taken from, whatever is archived before and after. -/

namespace Mainboard.Provenance

open Analysis (Text textLines breaksLine splitLines utf8)
open Blobs (Bytes)
open ListReading OrderedMap Runs

/-! Lines and columns -/

section Reading

variable {row : Row} {rows : List Row}

/-- A line nothing breaks, up to its line feed. -/
theorem textLines_line {line : Text} (h : ∀ char ∈ line, breaksLine char = false) (rest : Text) :
    textLines (line ++ '\n' :: rest) = line :: textLines rest := by
  induction line with
  | nil =>
      have hreturn : ¬ ('\n' = '\r' ∧ rest.head? = some '\n') := fun hboth => absurd hboth.1 (by decide)
      rw [List.nil_append, textLines, splitLines, if_neg hreturn, if_pos (by decide)]
      rfl
  | cons char line ih =>
      have hchar : breaksLine char = false := h char List.mem_cons_self
      have hreturn : char ≠ '\r' := fun hsame => by
        rw [hsame] at hchar
        exact absurd hchar (by decide)
      have hrest := ih fun other hother => h other (List.mem_cons_of_mem _ hother)
      rw [textLines] at hrest
      rw [List.cons_append, textLines, splitLines, if_neg (fun hbreak => hreturn hbreak.1), if_neg (by simp [hchar]), hrest]

/-- A row whose line is one line to every reader, and falls apart in its own columns. -/
structure Row.Plain (row : Row) : Prop where
  path : ∀ char ∈ row.path, breaksLine char = false ∧ char ≠ '\t'
  blob : ∀ char ∈ row.blob, breaksLine char = false ∧ char ≠ '\t'

theorem Status.plain (status : Status) : ∀ char ∈ status.text, breaksLine char = false ∧ char ≠ '\t' := by
  have hall : status.text.all fun char => !breaksLine char && char != '\t' := by cases status <;> decide +kernel
  intro char hchar
  simpa using List.all_eq_true.mp hall char hchar

theorem Status.ofText_text (status : Status) : Status.ofText status.text = some status := by
  cases status <;> decide +kernel

theorem Row.Plain.line (h : row.Plain) : ∀ char ∈ row.line, breaksLine char = false := by
  intro char hchar
  rcases List.mem_append.mp hchar with hchar | hchar
  · rcases List.mem_append.mp hchar with hchar | hchar
    · exact (h.path char hchar).1
    · rcases List.mem_cons.mp hchar with rfl | hchar
      · decide
      · exact (h.blob char hchar).1
  · rcases List.mem_cons.mp hchar with rfl | hchar
    · decide
    · exact (row.status.plain char hchar).1

theorem Row.Plain.splitOn (h : row.Plain) : row.line.splitOn '\t' = [row.path, row.blob, row.status.text] := by
  have hpath : '\t' ∉ row.path := fun hmem => (h.path _ hmem).2 rfl
  have hblob : '\t' ∉ row.blob := fun hmem => (h.blob _ hmem).2 rfl
  have hstatus : '\t' ∉ row.status.text := fun hmem => (row.status.plain _ hmem).2 rfl
  rw [Row.line, List.append_assoc, List.cons_append, List.splitOn_append_cons_self_of_not_mem hpath,
    List.splitOn_append_cons_self_of_not_mem hblob, List.splitOn_eq_singleton hstatus]

theorem Row.Plain.rowOf_line (h : row.Plain) : rowOf row.line = some row := by
  rw [rowOf, h.splitOn]
  dsimp only
  rw [Status.ofText_text]
  rfl

theorem Row.line_ne_nil (row : Row) : row.line ≠ [] := by
  unfold Row.line
  simp

theorem listing_cons (row : Row) (rows : List Row) : listing (row :: rows) = row.line ++ '\n' :: listing rows := by
  rw [listing, List.flatMap_cons, List.append_assoc]
  rfl

theorem textLines_listing (h : ∀ row ∈ rows, row.Plain) : textLines (listing rows) = rows.map Row.line := by
  induction rows with
  | nil => rfl
  | cons row rows ih =>
      rw [listing_cons, textLines_line (h row List.mem_cons_self).line, List.map_cons,
        ih fun other hother => h other (List.mem_cons_of_mem _ hother)]

theorem splitOn_listing (h : ∀ row ∈ rows, row.Plain) : (listing rows).splitOn '\n' = rows.map Row.line ++ [[]] := by
  induction rows with
  | nil => rfl
  | cons row rows ih =>
      have hline : '\n' ∉ row.line := fun hmem => absurd ((h row List.mem_cons_self).line _ hmem) (by decide)
      rw [listing_cons, List.splitOn_append_cons_self_of_not_mem hline, List.map_cons, List.cons_append,
        ih fun other hother => h other (List.mem_cons_of_mem _ hother)]

theorem filter_lines (rows : List Row) : (rows.map Row.line).filter (· ≠ []) = rows.map Row.line := by
  refine List.filter_eq_self.mpr fun line hline => ?_
  obtain ⟨row, -, rfl⟩ := List.mem_map.mp hline
  exact decide_eq_true row.line_ne_nil

theorem admitted_listing (h : ∀ row ∈ rows, row.Plain) : admitted (listing rows) = some rows := by
  have hrows : ∀ row ∈ rows, (rowOf ∘ Row.line) row = some (id row) := fun row hrow => (h row hrow).rowOf_line
  rw [admitted, textLines_listing h, List.mapM_map, mapM_map_some hrows, List.map_id]

theorem parsed_listing (h : ∀ row ∈ rows, row.Plain) : parsed (listing rows) = some rows := by
  have hadmitted := admitted_listing h
  rw [admitted, textLines_listing h] at hadmitted
  rw [parsed, textLines_listing h, filter_lines, hadmitted]

theorem files_listing (h : ∀ row ∈ rows, row.Plain) : files (listing rows) = rows.map Row.path := by
  rw [files, textLines_listing h, List.map_map]
  refine List.map_congr_left fun row hrow => ?_
  have hpath : ∀ char ∈ row.path, decide (char ≠ '\t') = true := fun char hchar =>
    decide_eq_true ((h row hrow).path char hchar).2
  change (row.path ++ '\t' :: row.blob ++ '\t' :: row.status.text).takeWhile _ = _
  rw [List.append_assoc, List.takeWhile_append_of_pos hpath]
  simp

theorem Row.Plain.imageRow_line (h : row.Plain) : imageRow row.line =
    if isUnsafe row.path || reserved row.path then none else some (row.path, row.blob) := by
  unfold imageRow
  rw [h.splitOn]
  rfl

/-- The image reads every row, or refuses the listing for a path of it. -/
theorem sealedRows_listing (h : ∀ row ∈ rows, row.Plain) : sealedRows (listing rows) =
    if rows.any fun row => isUnsafe row.path || reserved row.path then none
    else some (rows.map fun row => (row.path, row.blob)) := by
  rw [sealedRows, splitOn_listing h, List.filter_append, filter_lines, List.filter_cons_of_neg (by simp), List.filter_nil,
    List.append_nil, List.mapM_map]
  split
  · rename_i hbad
    obtain ⟨row, hrow, hbad⟩ := List.any_eq_true.mp hbad
    refine Option.eq_none_iff_forall_ne_some.mpr fun pairs hpairs => ?_
    obtain ⟨pair, -, hpair⟩ := exists_of_mapM hpairs hrow
    rw [Function.comp_apply, (h row hrow).imageRow_line, if_pos hbad] at hpair
    cases hpair
  · rename_i hgood
    refine mapM_map_some fun row hrow => ?_
    rw [Function.comp_apply, (h row hrow).imageRow_line,
      if_neg fun hbad => hgood (List.any_eq_true.mpr ⟨row, hrow, hbad⟩)]

end Reading

end Mainboard.Provenance
