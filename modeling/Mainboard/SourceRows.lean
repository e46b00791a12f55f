import Mainboard.ReceiptFrames
import Mainboard.TextBytes
import Mainboard.TracedSplices

/-! A file as the list of its lines. Every line but the last ends with its line feed; the offsets a source keeps are
where those lines start and where the last one ends, so the bytes between two of them are whole lines, and whole lines
joined are read back as the lines they are. -/

namespace Mainboard.Analysis

/-- A file's lines, each with its line feed, which the last one may lack. -/
def fileLines : Bytes → List Bytes
  | [] => []
  | byte :: rest =>
      if byte = 10 then [byte] :: fileLines rest
      else match fileLines rest with
        | [] => [[byte]]
        | line :: lines => (byte :: line) :: lines

/-- Bytes without their last where that is a given one. -/
def chopped (byte : UInt8) (bytes : Bytes) : Bytes := if bytes.getLast? = some byte then bytes.dropLast else bytes

/-- A line without its ending, the line feed and a return before it. -/
def bare (line : Bytes) : Bytes := chopped 13 (chopped 10 line)

/-- The list of a file's lines without their endings. -/
def rows (data : Bytes) : List Bytes := (fileLines data).map bare

/-- A line feed ends the bytes, or there are none. -/
def Ended (data : Bytes) : Prop := data = [] ∨ data.getLast? = some 10

/-- A line with its line feed. -/
def Line (line : Bytes) : Prop := ∃ content : Bytes, line = content ++ [10] ∧ 10 ∉ content

/-- A last line with no line feed, as lines. -/
def lastLine (rest : Bytes) : List Bytes := if rest = [] then [] else [rest]

section Lines

variable {data rest : Bytes} {full : List Bytes}

theorem chopped_concat (byte : UInt8) (bytes : Bytes) : chopped byte (bytes ++ [byte]) = bytes := by
  rw [chopped, List.getLast?_concat, if_pos rfl, List.dropLast_concat]

theorem chopped_of_not_mem {byte : UInt8} {bytes : Bytes} (h : byte ∉ bytes) : chopped byte bytes = bytes :=
  if_neg fun hlast => h (List.mem_of_getLast? hlast)

/-- What is cut off is the byte itself, and only where it stands last. -/
theorem chopped_cases (byte : UInt8) (bytes : Bytes) :
    bytes = chopped byte bytes ++ [byte] ∨ bytes = chopped byte bytes ∧ bytes.getLast? ≠ some byte := by
  unfold chopped
  split
  · next h =>
      obtain ⟨rest, rfl⟩ := List.getLast?_eq_some_iff.mp h
      rw [List.dropLast_concat]
      exact .inl rfl
  · next h => exact .inr ⟨rfl, h⟩

theorem fileLines_line {content : Bytes} (h : 10 ∉ content) (rest : Bytes) :
    fileLines (content ++ [10] ++ rest) = (content ++ [10]) :: fileLines rest := by
  induction content with
  | nil => simp [fileLines]
  | cons byte content ih =>
      rw [List.mem_cons, not_or] at h
      rw [List.cons_append, List.cons_append, fileLines, if_neg (Ne.symm h.1), ih h.2]

theorem fileLines_last (h : 10 ∉ rest) : fileLines rest = lastLine rest := by
  induction rest with
  | nil => rfl
  | cons byte rest ih =>
      rw [List.mem_cons, not_or] at h
      rw [fileLines, if_neg (Ne.symm h.1), ih h.2, lastLine, lastLine, if_neg (List.cons_ne_nil _ _)]
      split
      · next hempty =>
          split at hempty
          · next hrest => rw [hrest]
          · cases hempty
      · next line lines hlines =>
          split at hlines
          · cases hlines
          · cases hlines
            rfl

/-- Whole lines before other bytes are read as the lines they are. -/
theorem fileLines_full (h : ∀ line ∈ full, Line line) (rest : Bytes) :
    fileLines (full.flatten ++ rest) = full ++ fileLines rest := by
  induction full with
  | nil => rfl
  | cons line full ih =>
      rw [List.forall_mem_cons] at h
      obtain ⟨content, rfl, hcontent⟩ := h.1
      rw [List.flatten_cons, List.append_assoc, fileLines_line hcontent, ih h.2]
      rfl

/-- Every file is some whole lines and a last line without a line feed, or with no bytes. -/
theorem exists_lines (data : Bytes) :
    ∃ (full : List Bytes) (rest : Bytes), (∀ line ∈ full, Line line) ∧ 10 ∉ rest ∧ data = full.flatten ++ rest := by
  induction data with
  | nil => exact ⟨[], [], fun _ h => absurd h List.not_mem_nil, List.not_mem_nil, rfl⟩
  | cons byte data ih =>
      obtain ⟨full, rest, hfull, hrest, rfl⟩ := ih
      by_cases hbyte : byte = 10
      · subst hbyte
        exact ⟨[10] :: full, rest, List.forall_mem_cons.mpr ⟨⟨[], rfl, List.not_mem_nil⟩, hfull⟩, hrest, rfl⟩
      · cases full with
        | nil =>
            refine ⟨[], byte :: rest, fun _ h => absurd h List.not_mem_nil, ?_, rfl⟩
            rw [List.mem_cons, not_or]
            exact ⟨Ne.symm hbyte, hrest⟩
        | cons line full =>
            rw [List.forall_mem_cons] at hfull
            obtain ⟨⟨content, rfl, hcontent⟩, hfull⟩ := hfull
            refine ⟨(byte :: content ++ [10]) :: full, rest, List.forall_mem_cons.mpr ⟨⟨byte :: content, rfl, ?_⟩, hfull⟩,
              hrest, rfl⟩
            rw [List.mem_cons, not_or]
            exact ⟨Ne.symm hbyte, hcontent⟩

theorem fileLines_eq (hfull : ∀ line ∈ full, Line line) (hrest : 10 ∉ rest) :
    fileLines (full.flatten ++ rest) = full ++ lastLine rest := by
  rw [fileLines_full hfull, fileLines_last hrest]

theorem flatten_lastLine (rest : Bytes) : (lastLine rest).flatten = rest := by
  unfold lastLine
  split
  · next h => rw [h]; rfl
  · exact List.append_nil rest

theorem flatten_fileLines (data : Bytes) : (fileLines data).flatten = data := by
  obtain ⟨full, rest, hfull, hrest, rfl⟩ := exists_lines data
  rw [fileLines_eq hfull hrest, List.flatten_append, flatten_lastLine]

theorem ended_full (h : ∀ line ∈ full, Line line) : Ended full.flatten := by
  induction full using List.reverseRecOn with
  | nil => exact .inl rfl
  | append_singleton full line _ =>
      obtain ⟨content, rfl, -⟩ := h line (List.mem_append_right _ List.mem_cons_self)
      rw [List.flatten_append, List.flatten_singleton, ← List.append_assoc]
      exact .inr (List.getLast?_concat)

theorem Ended.append {one other : Bytes} (hone : Ended one) (hother : Ended other) : Ended (one ++ other) := by
  rcases hother with rfl | hother
  · rwa [List.append_nil]
  · right
    rw [List.getLast?_append, hother]
    rfl

theorem ended_iff (hfull : ∀ line ∈ full, Line line) (hrest : 10 ∉ rest) : Ended (full.flatten ++ rest) ↔ rest = [] := by
  constructor
  · intro h
    by_contra hne
    have hlast : (full.flatten ++ rest).getLast? = rest.getLast? := by
      rw [List.getLast?_append, List.getLast?_eq_some_getLast hne]
      rfl
    rcases h with hnil | hten
    · exact hne (List.append_eq_nil_iff.mp hnil).2
    · rw [hlast] at hten
      exact hrest (List.mem_of_getLast? hten)
  · rintro rfl
    rw [List.append_nil]
    exact ended_full hfull

/-- The lines of a file, but for a last one with no line feed, are whole. -/
theorem line_of_mem_take {count : ℕ} (h : count < (fileLines data).length ∨ Ended data) :
    ∀ line ∈ (fileLines data).take count, Line line := by
  obtain ⟨full, rest, hfull, hrest, rfl⟩ := exists_lines data
  rw [ended_iff hfull hrest] at h
  rw [fileLines_eq hfull hrest] at h ⊢
  intro line hline
  rcases h with hcount | rfl
  · refine hfull line (List.mem_of_mem_take (i := count) ?_)
    rwa [List.take_append_of_le_length] at hline
    unfold lastLine at hcount
    split at hcount
    · rw [List.append_nil] at hcount
      exact hcount.le
    · rw [List.length_append, List.length_singleton] at hcount
      exact Nat.le_of_lt_succ hcount
  · rw [lastLine, if_pos rfl, List.append_nil] at hline
    exact hfull line (List.mem_of_mem_take hline)

/-- Lines dropped from the front of a file leave the lines of what is left. -/
theorem fileLines_drop (data : Bytes) (count : ℕ) :
    fileLines ((fileLines data).drop count).flatten = (fileLines data).drop count := by
  obtain ⟨full, rest, hfull, hrest, rfl⟩ := exists_lines data
  rw [fileLines_eq hfull hrest, List.drop_append, List.flatten_append,
    fileLines_full fun line hline => hfull line (List.mem_of_mem_drop hline)]
  congr 1
  unfold lastLine
  split
  · rw [List.drop_nil]
    rfl
  · next hne =>
      cases hcount : count - full.length with
      | zero =>
          rw [List.drop_zero, List.flatten_singleton, fileLines_last hrest, lastLine, if_neg hne]
      | succ more =>
          rw [List.drop_succ_cons, List.drop_nil]
          rfl

/-- Bytes that end with a line feed are whole lines. -/
theorem line_of_ended (h : Ended data) : ∀ line ∈ fileLines data, Line line := by
  have hall := @line_of_mem_take data (fileLines data).length (.inr h)
  rwa [List.take_length] at hall

/-- A line feed ends what stands before it. -/
theorem fileLines_append (h : Ended data) (rest : Bytes) : fileLines (data ++ rest) = fileLines data ++ fileLines rest := by
  have hfull := fileLines_full (line_of_ended h) rest
  rwa [flatten_fileLines] at hfull

theorem rows_append (h : Ended data) (rest : Bytes) : rows (data ++ rest) = rows data ++ rows rest := by
  rw [rows, fileLines_append h, List.map_append]
  rfl

theorem rows_full (h : ∀ line ∈ full, Line line) : rows full.flatten = full.map bare := by
  have hlines := fileLines_full h []
  rw [List.append_nil] at hlines
  rw [rows, hlines]
  exact congrArg (List.map bare) (List.append_nil full)

end Lines

/-! Where lines start -/

namespace Source

variable {source : Source} {count : ℕ}

/-- The offsets at which lines from an offset start, and where the last one ends. -/
def bounds : ℕ → List Bytes → List ℕ
  | base, [] => [base]
  | base, line :: lines => base :: bounds (base + line.length) lines

theorem bounds_getElem? (base : ℕ) {lines : List Bytes} (h : count ≤ lines.length) :
    (bounds base lines)[count]? = some (base + (lines.take count).flatten.length) := by
  induction lines generalizing base count with
  | nil =>
      obtain rfl := Nat.le_zero.mp h
      rfl
  | cons line lines ih =>
      cases count with
      | zero => rfl
      | succ count =>
          rw [bounds, List.getElem?_cons_succ, ih _ (Nat.le_of_succ_le_succ h), List.take_succ_cons, List.flatten_cons,
            List.length_append, Nat.add_assoc]

theorem lineEnds_line {content : Bytes} (h : 10 ∉ content) (base : ℕ) (rest : Bytes) :
    lineEnds base (content ++ [10] ++ rest) =
      (base + (content ++ [10]).length) :: lineEnds (base + (content ++ [10]).length) rest := by
  induction content generalizing base with
  | nil => rfl
  | cons byte content ih =>
      rw [List.mem_cons, not_or] at h
      have hlength : base + (byte :: content ++ [10]).length = base + 1 + (content ++ [10]).length := by
        rw [List.cons_append, List.length_cons]
        omega
      rw [List.cons_append, List.cons_append, lineEnds, if_neg (Ne.symm h.1), ih h.2, ← hlength]
      rfl

theorem lineEnds_last {rest : Bytes} (h : 10 ∉ rest) (base : ℕ) : lineEnds base rest = [] := by
  induction rest generalizing base with
  | nil => rfl
  | cons byte rest ih =>
      rw [List.mem_cons, not_or] at h
      rw [lineEnds, if_neg (Ne.symm h.1), ih h.2]

theorem bounds_eq {full : List Bytes} (hfull : ∀ line ∈ full, Line line) {rest : Bytes} (hrest : 10 ∉ rest) (base : ℕ) :
    (let ends := base :: lineEnds base (full.flatten ++ rest)
     if ends.getLast? = some (base + (full.flatten ++ rest).length) then ends
     else ends ++ [base + (full.flatten ++ rest).length]) = bounds base (full ++ lastLine rest) := by
  induction full generalizing base with
  | nil =>
      rw [List.flatten_nil, List.nil_append, List.nil_append, lineEnds_last hrest, lastLine]
      by_cases hempty : rest = []
      · subst hempty
        rw [if_pos rfl]
        exact if_pos rfl
      · have hlength := List.length_pos_iff.mpr hempty
        rw [if_neg hempty]
        dsimp only
        rw [if_neg]
        · rfl
        · rw [List.getLast?_singleton, Option.some.injEq]
          omega
  | cons line full ih =>
      rw [List.forall_mem_cons] at hfull
      obtain ⟨⟨content, rfl, hcontent⟩, hfull⟩ := hfull
      have hlater := ih hfull (base + (content ++ [10]).length)
      have hlength : base + ((content ++ [10]) ++ (full.flatten ++ rest)).length =
          base + (content ++ [10]).length + (full.flatten ++ rest).length := by
        rw [List.length_append, Nat.add_assoc]
      rw [List.cons_append, bounds, ← hlater, List.flatten_cons, List.append_assoc, lineEnds_line hcontent, hlength]
      dsimp only
      rw [List.getLast?_cons_cons]
      by_cases hend : ((base + (content ++ [10]).length) ::
          lineEnds (base + (content ++ [10]).length) (full.flatten ++ rest)).getLast? =
            some (base + (content ++ [10]).length + (full.flatten ++ rest).length)
      · rw [if_pos hend, if_pos hend]
      · rw [if_neg hend, if_neg hend]
        rfl

/-- A source keeps where its lines start and where the last one ends. -/
theorem starts_eq : source.starts = bounds 0 (fileLines source.data) := by
  obtain ⟨full, rest, hfull, hrest, hdata⟩ := exists_lines source.data
  rw [starts, hdata, fileLines_eq hfull hrest, ← bounds_eq hfull hrest]
  simp only [Nat.zero_add]

theorem starts_getElem? (h : count ≤ (fileLines source.data).length) :
    source.starts[count]? = some ((fileLines source.data).take count).flatten.length := by
  rw [starts_eq, bounds_getElem? 0 h, Nat.zero_add]

theorem take_start (count : ℕ) :
    source.data.take ((fileLines source.data).take count).flatten.length = ((fileLines source.data).take count).flatten := by
  have hparts : source.data = ((fileLines source.data).take count).flatten ++ ((fileLines source.data).drop count).flatten := by
    rw [← List.flatten_append, List.take_append_drop, flatten_fileLines]
  have htake := @List.take_left _ ((fileLines source.data).take count).flatten ((fileLines source.data).drop count).flatten
  rwa [← hparts] at htake

theorem drop_start (count : ℕ) :
    source.data.drop ((fileLines source.data).take count).flatten.length = ((fileLines source.data).drop count).flatten := by
  have hparts : source.data = ((fileLines source.data).take count).flatten ++ ((fileLines source.data).drop count).flatten := by
    rw [← List.flatten_append, List.take_append_drop, flatten_fileLines]
  have hdrop := @List.drop_left _ ((fileLines source.data).take count).flatten ((fileLines source.data).drop count).flatten
  rwa [← hparts] at hdrop

/-- The bytes between two of a source's offsets are the lines between them. -/
theorem slice_starts {first last : ℕ} (h : first ≤ last) :
    slice source.data ((fileLines source.data).take first).flatten.length ((fileLines source.data).take last).flatten.length =
      (((fileLines source.data).take last).drop first).flatten := by
  have hparts : ((fileLines source.data).take last).flatten =
      ((fileLines source.data).take first).flatten ++ (((fileLines source.data).take last).drop first).flatten := by
    rw [← List.flatten_append]
    congr 1
    conv_lhs => rw [← List.take_append_drop first ((fileLines source.data).take last)]
    rw [List.take_take, Nat.min_eq_left h]
  rw [slice, take_start, hparts, List.drop_left]

end Source

end Mainboard.Analysis
