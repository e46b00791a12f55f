import Mainboard.SourceRows

/-! Edits that name whole lines: their byte edits spliced into a file against the list of the file's lines. -/

namespace Mainboard.Analysis

/-! Splitting at line ends -/

section Splitting

variable {α : Type} [DecidableEq α] {cr lf : α} {breaks : α → Bool}

/-- A line feed ends a line, whatever stands before it. -/
theorem splitLines_append (hlf : breaks lf = true) (hne : lf ≠ cr) (text rest : List α) :
    splitLines cr lf breaks (text ++ lf :: rest) =
      splitLines cr lf breaks (text ++ [lf]) ++ splitLines cr lf breaks rest := by
  induction text with
  | nil =>
      simp [splitLines, hlf, hne]
  | cons item text ih =>
      have hhead : (text ++ lf :: rest).head? = (text ++ [lf]).head? := by cases text <;> rfl
      have hsome : splitLines cr lf breaks (text ++ [lf]) ≠ [] := fun h =>
        List.append_ne_nil_of_right_ne_nil text (List.cons_ne_nil _ _) (splitLines_eq_nil.mp h)
      rw [List.cons_append, List.cons_append, splitLines, splitLines, hhead, ih]
      obtain ⟨first, lines, hlines⟩ := List.exists_cons_of_ne_nil hsome
      rw [hlines]
      split
      · rfl
      · split <;> rfl

/-- No line holds what a line ends at. -/
theorem splitLines_unbroken {text line : List α} (h : line ∈ splitLines cr lf breaks text) :
    ∀ item ∈ line, breaks item = false := by
  induction text generalizing line with
  | nil => exact absurd h List.not_mem_nil
  | cons head text ih =>
      rw [splitLines] at h
      split at h
      · exact ih h
      · split at h
        · rcases List.mem_cons.mp h with rfl | h
          · exact fun _ hitem => absurd hitem List.not_mem_nil
          · exact ih h
        · next hbreaks =>
            have hhead : breaks head = false := Bool.eq_false_iff.mpr hbreaks
            split at h
            · rw [List.mem_singleton.mp h]
              exact fun item hitem => List.mem_singleton.mp hitem ▸ hhead
            · next first lines hlines =>
                rw [hlines] at ih
                rcases List.mem_cons.mp h with rfl | h
                · exact List.forall_mem_cons.mpr ⟨hhead, ih List.mem_cons_self⟩
                · exact ih (List.mem_cons_of_mem _ h)

/-- A line that nothing ends, before its ending or with none. -/
theorem splitLines_single {line ending : List α} (hcr : breaks cr = true) (hlf : breaks lf = true) (hne : lf ≠ cr)
    (hline : ∀ item ∈ line, breaks item = false) (hending : ending = [lf] ∨ ending = [cr] ∨ ending = [cr, lf] ∨
      ending = [] ∧ line ≠ []) : splitLines cr lf breaks (line ++ ending) = [line] := by
  induction line with
  | nil =>
      rcases hending with rfl | rfl | rfl | ⟨rfl, h⟩
      · simp [splitLines, hlf, hne]
      · simp [splitLines, hcr]
      · simp [splitLines, hlf, hne]
      · exact absurd rfl h
  | cons item line ih =>
      rw [List.forall_mem_cons] at hline
      have hitem : item ≠ cr := fun heq => by
        rw [heq, hcr] at hline
        cases hline.1
      rw [List.cons_append, splitLines, if_neg fun h => hitem h.1, if_neg (by rw [hline.1]; exact Bool.false_ne_true)]
      by_cases hempty : line = [] ∧ ending = []
      · rw [hempty.1, hempty.2]
        rfl
      · rw [ih hline.2]
        rcases hending with h | h | h | ⟨h, -⟩
        · exact .inl h
        · exact .inr (.inl h)
        · exact .inr (.inr (.inl h))
        · exact .inr (.inr (.inr ⟨h, fun hline => hempty ⟨hline, h⟩⟩))

/-- What a line ends at, with more behind it that is no part of the same ending, parts two lines. -/
theorem two_le_length_splitLines {before rest : List α} {item : α} (hitem : breaks item = true)
    (hrest : rest ≠ []) (hhead : ¬ (item = cr ∧ rest.head? = some lf)) :
    2 ≤ (splitLines cr lf breaks (before ++ item :: rest)).length := by
  induction before with
  | nil =>
      rw [List.nil_append, splitLines, if_neg hhead, if_pos hitem, List.length_cons]
      have hpos := List.length_pos_iff.mpr fun h => hrest ((@splitLines_eq_nil α _ cr lf breaks rest).mp h)
      exact Nat.succ_le_succ hpos
  | cons first before ih =>
      rw [List.cons_append, splitLines]
      split
      · exact ih
      · split
        · exact ih.trans (Nat.le_succ _)
        · split
          · next h =>
              rw [h] at ih
              exact absurd ih (Nat.not_succ_le_zero 1)
          · next line lines h =>
              rw [h] at ih
              exact ih

end Splitting

/-! Edits by lines -/

/-- An edit by lines; of imports, all that a plan's fixes ask of one file. -/
inductive LineEdit where
  | insert (text : Text) (before after : Option Span)
  | delete (span : Span)
  | move (span : Span) (before after : Option Span)
  | append (path : Place) (text : Text)
  | imports (path : Place) (statements : List Text)

/-- A span names lines of a source. -/
structure Span.Names (span : Span) (source : Source) : Prop where
  first : 0 < span.startLine
  order : span.startLine ≤ span.lastLine
  last : span.lastLine ≤ (fileLines source.data).length

/-- How many lines stand before what is inserted at an anchor. -/
def landingRow (landing : Span) : Option Span → ℕ
  | some _ => landing.startLine - 1
  | none => landing.lastLine

/-- What `ruled` inserts: how many lines stand before it, and its lines. -/
def asked (grammar : Grammar) (source : Source) (statements : List Text) : Option (ℕ × List Text) := do
  let body ← grammar.parse source.data
  let bound := body.flatMap fun statement => bindings statement.node
  let read ← Plan.wanted grammar bound (statements.insertionSort fun one other => Plan.precedes one other) [] []
  return (Plan.importLine body, Plan.importLines read.1 read.2)

/-- Lines as a source's bytes. -/
def Source.written (source : Source) (lines : List Text) : Bytes :=
  lines.flatMap fun line => source.encode line ++ source.newline

/-! The list of lines after an edit -/

def insertedRows (rows : List Bytes) (row : ℕ) (added : List Bytes) : List Bytes := rows.take row ++ added ++ rows.drop row

def removedRows (rows : List Bytes) (span : Span) : List Bytes :=
  rows.take (span.startLine - 1) ++ rows.drop span.lastLine

/-- The lines of a span taken out, and others put between two lines that stay. -/
def movedRows (rows : List Bytes) (span : Span) (row : ℕ) (added : List Bytes) : List Bytes :=
  if row < span.startLine then
    rows.take row ++ added ++ (rows.take (span.startLine - 1)).drop row ++ rows.drop span.lastLine
  else rows.take (span.startLine - 1) ++ (rows.take row).drop span.lastLine ++ added ++ rows.drop row

namespace LineEdit

variable (project : Project) (grammar : Grammar) (plan : Plan)

/-- The byte edits of an edit by lines. -/
def pieces : LineEdit → Option (List TextEdit)
  | insert text before after => plan.expand project (.insert text before after)
  | delete span => plan.expand project (.delete span)
  | move span before after => plan.expand project (.move span before after)
  | append path text => plan.expand project (.append path text)
  | imports path statements => (plan.importInto project grammar path statements).map Option.toList

/-- A file's bytes with the byte edits of an edit spliced. -/
def spliced (pieces : List TextEdit) (path : Place) (source : Source) : Bytes :=
  splicedFrom source.data 0 (Plan.fileOrder (pieces.filter fun piece => piece.path = path))

/-- The blanks at an anchor, which what is inserted there gets. -/
def landingIndent (landing : Span) : Bytes :=
  ((plan.source project landing.path).bind fun source => source.indent landing.startLine).getD []

/-- The lines that a move takes. -/
def movedLines (span : Span) : List Bytes :=
  ((plan.source project span.path).map fun source =>
    ((fileLines source.data).take span.lastLine).drop (span.startLine - 1)).getD []

/-- Those lines where they land, without the blanks of the first and with those of the anchor. -/
def landedRows (span landing : Span) : List Bytes :=
  (movedLines project plan span).map fun line =>
    landingIndent project plan landing ++ (bare line).drop (landingIndent project plan span).length

/-- The list of a file's lines after an edit by lines. -/
def rowsAfter (path : Place) (source : Source) : LineEdit → List Bytes
  | insert text before after => match anchor before after with
    | none => rows source.data
    | some landing =>
        if path = landing.path then insertedRows (rows source.data) (landingRow landing before)
          ((textLines text).map fun line => landingIndent project plan landing ++ utf8 line)
        else rows source.data
  | delete span => if path = span.path then removedRows (rows source.data) span else rows source.data
  | move span before after => match anchor before after with
    | none => rows source.data
    | some landing =>
        if path = span.path then
          if landing.path = span.path then
            movedRows (rows source.data) span (landingRow landing before) (landedRows project plan span landing)
          else removedRows (rows source.data) span
        else if path = landing.path then
          insertedRows (rows source.data) (landingRow landing before) (landedRows project plan span landing)
        else rows source.data
  | append other text => if path = other then rows source.data ++ rows (source.encode text) else rows source.data
  | imports other statements =>
      if path = other then match asked grammar source statements with
        | some (row, lines) => insertedRows (rows source.data) row (rows (source.written lines))
        | none => rows source.data
      else rows source.data

/-- The edit names lines and places that its files have. -/
def Valid : LineEdit → Prop
  | insert _ before after => ∃ landing source, anchor before after = some landing ∧
      plan.source project landing.path = some source ∧ landing.Names source
  | delete span => ∃ source, plan.source project span.path = some source ∧ span.Names source
  | move span before after => (∃ source, plan.source project span.path = some source ∧ span.Names source) ∧
      ∃ landing source, anchor before after = some landing ∧ plan.source project landing.path = some source ∧
        landing.Names source ∧ (landing.path = span.path →
          landingRow landing before < span.startLine ∨ span.lastLine ≤ landingRow landing before)
  | append path _ => ∃ source, plan.source project path = some source
  | imports path statements => ∃ source row lines, plan.source project path = some source ∧
      asked grammar source statements = some (row, lines) ∧ row ≤ (fileLines source.data).length

/-- A byte that no indentation is made of, nor a blank of any other kind. -/
def solid (byte : UInt8) : Bool := !(byte == 32 || (9 ≤ byte && byte ≤ 13))

/-- No two lines are glued: what is kept and what is inserted each start where a line does, or an append ends the last
line itself. -/
def Unglued (data : Bytes) : Bytes → ℕ → List TextEdit → Prop
  | before, kept, [] => Ended before ∨ data.drop kept = []
  | before, kept, edit :: edits =>
      (Ended before ∨ slice data kept edit.start = []) ∧
        (edit.text = [] ∨ Ended (before ++ slice data kept edit.start) ∨
          edit.stacking = true ∧ Source.newline ⟨data⟩ <+: edit.text) ∧
        Unglued data (before ++ slice data kept edit.start ++ edit.text) edit.stop edits

/-- A moved line keeps what is no blank. -/
def Keeps : LineEdit → Prop
  | move span _ _ => ∀ line ∈ movedLines project plan span,
      ((bare line).drop (landingIndent project plan span).length).filter solid = (bare line).filter solid
  | _ => True

/-- What an edit by lines promises. -/
structure Exact (edit : LineEdit) : Prop where
  keeps : edit.Keeps project plan
  lines : ∃ pieces, edit.pieces project grammar plan = some pieces ∧ ∀ path source,
    plan.source project path = some source →
      rows (spliced pieces path source) = edit.rowsAfter project grammar plan path source ∧
        Unglued source.data [] 0 (Plan.fileOrder (pieces.filter fun piece => piece.path = path))

/-- A line whose first bytes, as many as are cut off, are blanks, with no return among them, and whose others are text
that nothing parts. -/
def Movable (width : ℕ) (line : Bytes) : Prop :=
  (∀ byte ∈ (bare line).take width, solid byte = false ∧ byte ≠ 13) ∧
    ∃ text, decode ((bare line).drop width) = some text ∧ ∀ char ∈ text, breaksLine char = false

/-- When an edit by lines keeps its promise: nothing is put behind a last line without a line feed but by an append,
which must not make a return before its own line ending part of one; and every moved line is movable. -/
def Sound : LineEdit → Prop
  | insert text before after => ∀ landing source, anchor before after = some landing →
      plan.source project landing.path = some source →
        text = [] ∨ landingRow landing before < (fileLines source.data).length ∨ Ended source.data
  | delete _ => True
  | move span before after => (∀ landing source, anchor before after = some landing →
      plan.source project landing.path = some source →
        landingRow landing before < (fileLines source.data).length ∨ Ended source.data ∨
          landing.path = span.path ∧ landingRow landing before = span.lastLine) ∧
      ∀ line ∈ movedLines project plan span, Movable (landingIndent project plan span).length line
  | append path _ => ∀ source, plan.source project path = some source →
      Ended source.data ∨ source.data.getLast? ≠ some 13 ∨ source.newline = [10]
  | imports path statements => ∀ source row lines, plan.source project path = some source →
      asked grammar source statements = some (row, lines) →
        lines = [] ∨ row < (fileLines source.data).length ∨ Ended source.data

end LineEdit

/-! Texts put between lines -/

section Placing

variable {source : Source} {span : Span} {row : ℕ} {text : Bytes}

theorem lines_eq (h : span.Names source) : source.lines span =
    some (((fileLines source.data).take (span.startLine - 1)).flatten.length,
      ((fileLines source.data).take span.lastLine).flatten.length) := by
  obtain ⟨line, hline⟩ := Nat.exists_eq_succ_of_ne_zero h.first.ne'
  have horder := h.order
  have hlast := h.last
  rw [Source.lines, hline, Source.lineStart, Source.starts_getElem? (by omega), Source.starts_getElem? hlast]
  rfl

theorem insertionPoint_eq (h : span.Names source) (before : Option Span) :
    Plan.insertionPoint source span before = some ((fileLines source.data).take (landingRow span before)).flatten.length := by
  cases before with
  | none => rw [Plan.insertionPoint, lines_eq h]; rfl
  | some other =>
      obtain ⟨line, hline⟩ := Nat.exists_eq_succ_of_ne_zero h.first.ne'
      have horder := h.order
      have hlast := h.last
      rw [Plan.insertionPoint, landingRow, hline, Source.lineStart, Source.starts_getElem? (by omega)]
      rfl

theorem landingRow_le (h : span.Names source) (before : Option Span) :
    landingRow span before ≤ (fileLines source.data).length := by
  have horder := h.order
  have hlast := h.last
  cases before with
  | none => exact hlast
  | some other =>
      rw [landingRow]
      omega

theorem indent_eq (h : span.Names source) :
    ∃ indent, source.indent span.startLine = some indent ∧ ∀ byte ∈ indent, byte = 32 ∨ byte = 9 := by
  obtain ⟨line, hline⟩ := Nat.exists_eq_succ_of_ne_zero h.first.ne'
  have horder := h.order
  have hlast := h.last
  rw [Source.indent, hline, Source.lineStart, Source.starts_getElem? (by omega), Source.starts_getElem? (by omega)]
  refine ⟨_, rfl, fun byte hbyte => ?_⟩
  have hblank := List.mem_takeWhile_imp hbyte
  simpa using hblank

theorem newline_cases (source : Source) : source.newline = [10] ∨ source.newline = [13, 10] := by
  unfold Source.newline
  split
  · exact .inr rfl
  · exact .inl rfl

/-- Bytes with no return and no line feed before a line ending are a line of their own. -/
theorem line_newline {content : Bytes} (hten : 10 ∉ content) (hreturn : 13 ∉ content) :
    Line (content ++ source.newline) ∧ bare (content ++ source.newline) = content := by
  rcases newline_cases source with h | h
  · rw [h]
    exact ⟨⟨content, rfl, hten⟩, by rw [bare, chopped_concat, chopped_of_not_mem hreturn]⟩
  · have hparts : content ++ [13, 10] = content ++ [13] ++ [10] := by rw [List.append_assoc]; rfl
    rw [h, hparts]
    refine ⟨⟨content ++ [13], rfl, ?_⟩, by rw [bare, chopped_concat, chopped_concat]⟩
    rw [List.mem_append, not_or]
    exact ⟨hten, by decide⟩

theorem rows_take (row : ℕ) : (rows source.data).take row = ((fileLines source.data).take row).map bare := by
  rw [rows, List.map_take]

theorem rows_drop (row : ℕ) :
    rows ((fileLines source.data).drop row).flatten = (rows source.data).drop row := by
  rw [rows, fileLines_drop, rows, List.map_drop]

/-- Whole lines put between two lines of a file are lines between its own. -/
theorem rows_inserted (hrow : row < (fileLines source.data).length ∨ Ended source.data) (htext : Ended text) :
    rows (((fileLines source.data).take row).flatten ++ text ++ ((fileLines source.data).drop row).flatten) =
      insertedRows (rows source.data) row (rows text) := by
  have hlines := line_of_mem_take hrow
  rw [rows_append ((ended_full hlines).append htext), rows_append (ended_full hlines), rows_full hlines, rows_drop,
    insertedRows, rows_take]

/-- One text spliced in before a line. -/
theorem splicedFrom_insertion {piece : TextEdit}
    (hstart : piece.start = ((fileLines source.data).take row).flatten.length) (hstop : piece.stop = piece.start) :
    splicedFrom source.data 0 [piece] =
      ((fileLines source.data).take row).flatten ++ piece.text ++ ((fileLines source.data).drop row).flatten := by
  rw [splicedFrom, splicedFrom, hstop, hstart, slice, Source.take_start, List.drop_zero, Source.drop_start]

/-- Whole lines inserted glue no two lines exactly where there are none, or where a line ends before them. -/
theorem unglued_insertion {piece : TextEdit} (hrow : row ≤ (fileLines source.data).length)
    (hstart : piece.start = ((fileLines source.data).take row).flatten.length) (hstop : piece.stop = piece.start)
    (htext : Ended piece.text) (hstacking : piece.stacking = false) :
    LineEdit.Unglued source.data [] 0 [piece] ↔
      piece.text = [] ∨ row < (fileLines source.data).length ∨ Ended source.data := by
  have hslice : slice source.data 0 ((fileLines source.data).take row).flatten.length =
      ((fileLines source.data).take row).flatten := by
    rw [slice, Source.take_start, List.drop_zero]
  have hwhole : Ended ((fileLines source.data).take row).flatten ↔
      row < (fileLines source.data).length ∨ Ended source.data := by
    constructor
    · intro h
      rcases hrow.lt_or_eq with hlt | heq
      · exact .inl hlt
      · rw [heq, List.take_length, flatten_fileLines] at h
        exact .inr h
    · exact fun h => ended_full (line_of_mem_take h)
  simp only [LineEdit.Unglued, hstop, hstart, hslice, Source.drop_start, List.nil_append, hstacking]
  constructor
  · rintro ⟨-, hnil | hended | ⟨h, -⟩, -⟩
    · exact .inl hnil
    · exact .inr (hwhole.mp hended)
    · cases h
  · intro h
    refine ⟨.inl (.inl rfl), h.imp_right fun h => .inl (hwhole.mpr h), ?_⟩
    rcases h with hnil | h
    · rw [hnil, List.append_nil]
      rcases hrow.lt_or_eq with hlt | heq
      · exact .inl (hwhole.mpr (.inl hlt))
      · right
        rw [heq, List.drop_length]
        rfl
    · exact .inl ((hwhole.mpr h).append htext)

/-- Whole lines inserted stand as they are between the lines of the file, glued to none, exactly where there are none or a
line ends before them. -/
theorem insertion_iff {piece : TextEdit} (hrow : row ≤ (fileLines source.data).length)
    (hstart : piece.start = ((fileLines source.data).take row).flatten.length) (hstop : piece.stop = piece.start)
    (htext : Ended piece.text) (hstacking : piece.stacking = false) :
    (rows (splicedFrom source.data 0 [piece]) = insertedRows (rows source.data) row (rows piece.text) ∧
      LineEdit.Unglued source.data [] 0 [piece]) ↔
        piece.text = [] ∨ row < (fileLines source.data).length ∨ Ended source.data := by
  rw [unglued_insertion hrow hstart hstop htext hstacking, and_iff_right_iff_imp, splicedFrom_insertion hstart hstop]
  rintro (hnil | h)
  · have hnone : rows [] = [] := rfl
    rw [hnil, List.append_nil, ← List.flatten_append, List.take_append_drop, flatten_fileLines, insertedRows, hnone,
      List.append_nil, List.take_append_drop]
  · exact rows_inserted h htext

/-- A text that nothing parts stays as it is in a file's own line ending. -/
theorem encode_line {line : Text} (h : ∀ char ∈ line, breaksLine char = false) : source.encode line = utf8 line := by
  have hten : '\n' ∉ line := fun hmem => absurd (h _ hmem) (by decide)
  have hunix : unixLines line = line := by
    clear hten
    induction line with
    | nil => rfl
    | cons char line ih =>
        rw [List.forall_mem_cons] at h
        rw [unixLines, if_neg, ih h.2]
        rintro ⟨rfl, -⟩
        exact absurd h.1 (by decide)
  rw [Source.encode, hunix]
  have hbytes : (10 : UInt8) ∉ utf8 line := newline_mem_utf8.not.mpr hten
  generalize utf8 line = bytes at hbytes
  induction bytes with
  | nil => rfl
  | cons byte bytes ih =>
      rw [List.mem_cons, not_or] at hbytes
      rw [List.flatMap_cons, if_neg (Ne.symm hbytes.1), ih hbytes.2]
      rfl

/-- Nothing is written only for no lines. -/
theorem flatMap_newline {f : Text → Bytes} {lines : List Text} :
    (lines.flatMap fun line => f line ++ source.newline) = [] ↔ lines = [] := by
  rw [List.flatMap_eq_nil_iff]
  constructor
  · intro hall
    refine List.eq_nil_iff_forall_not_mem.mpr fun line hline => ?_
    exact source.newline_ne_nil (List.append_eq_nil_iff.mp (hall line hline)).2
  · rintro rfl
    exact fun line hline => absurd hline List.not_mem_nil

/-- Lines of text written with an indentation and the file's line ending are the lines they say. -/
theorem rows_indented {indent : Bytes} (hindent : ∀ byte ∈ indent, byte = 32 ∨ byte = 9) {lines : List Text}
    (hlines : ∀ line ∈ lines, ∀ char ∈ line, breaksLine char = false) :
    Ended (lines.flatMap fun line => indent ++ source.encode line ++ source.newline) ∧
      rows (lines.flatMap fun line => indent ++ source.encode line ++ source.newline) =
        lines.map fun line => indent ++ utf8 line := by
  have hline : ∀ line ∈ lines, Line (indent ++ source.encode line ++ source.newline) ∧
      bare (indent ++ source.encode line ++ source.newline) = indent ++ utf8 line := by
    intro line hmem
    have hplain := hlines line hmem
    have hnone : ∀ byte ∈ indent, byte ≠ 10 ∧ byte ≠ 13 := fun byte hbyte => by
      rcases hindent byte hbyte with rfl | rfl <;> decide
    rw [encode_line hplain]
    refine line_newline ?_ ?_
    · rw [List.mem_append, not_or]
      exact ⟨fun h => (hnone 10 h).1 rfl, newline_mem_utf8.not.mpr fun h => absurd (hplain _ h) (by decide)⟩
    · rw [List.mem_append, not_or]
      exact ⟨fun h => (hnone 13 h).2 rfl, return_mem_utf8.not.mpr fun h => absurd (hplain _ h) (by decide)⟩
  have hall : ∀ row ∈ lines.map (fun line => indent ++ source.encode line ++ source.newline), Line row := by
    intro row hrow
    obtain ⟨line, hmem, rfl⟩ := List.mem_map.mp hrow
    exact (hline line hmem).1
  rw [List.flatMap_def]
  refine ⟨ended_full hall, ?_⟩
  rw [rows_full hall, List.map_map]
  exact List.map_congr_left fun line hmem => (hline line hmem).2

theorem slice_zero (row : ℕ) : slice source.data 0 ((fileLines source.data).take row).flatten.length =
    ((fileLines source.data).take row).flatten := by
  rw [slice, Source.take_start, List.drop_zero]

/-- The byte edit that takes out the lines of a span. -/
def takenOut (source : Source) (span : Span) (path : Place) : TextEdit where
  path := path
  start := ((fileLines source.data).take (span.startLine - 1)).flatten.length
  stop := ((fileLines source.data).take span.lastLine).flatten.length
  text := []

/-- The lines of a span taken out leave the others as they are. -/
theorem removed_exact (h : span.Names source) (path : Place) :
    rows (splicedFrom source.data 0 [takenOut source span path]) = removedRows (rows source.data) span ∧
      LineEdit.Unglued source.data [] 0 [takenOut source span path] := by
  have hfirst := h.first
  have horder := h.order
  have hlast := h.last
  have hlines := @line_of_mem_take source.data (span.startLine - 1) (.inl (by omega))
  constructor
  · simp only [splicedFrom, takenOut]
    rw [slice_zero, List.append_nil, Source.drop_start, rows_append (ended_full hlines), rows_full hlines, rows_drop,
      removedRows, rows_take]
  · simp only [LineEdit.Unglued, takenOut]
    rw [slice_zero, List.nil_append, List.append_nil]
    exact ⟨.inl (.inl rfl), .inl trivial, .inl (ended_full hlines)⟩

end Placing

/-! Edits of one piece -/

namespace LineEdit

section Kinds

variable {project : Project} {grammar : Grammar} {plan : Plan}

theorem fileOrder_single (piece : TextEdit) (path : Place) :
    Plan.fileOrder ([piece].filter fun piece => piece.path = path) = if piece.path = path then [piece] else [] := by
  by_cases h : piece.path = path
  · rw [if_pos h, List.filter_cons_of_pos (by simpa using h)]
    rfl
  · rw [if_neg h, List.filter_cons_of_neg (by simpa using h)]
    rfl

/-- A file no piece is of stays as it is. -/
theorem untouched (source : Source) :
    rows (splicedFrom source.data 0 []) = rows source.data ∧ Unglued source.data [] 0 [] :=
  ⟨by rw [splicedFrom, List.drop_zero], .inl (.inl rfl)⟩

/-- An edit of one piece is exact when the piece is. -/
theorem exact_single_iff {edit : LineEdit} {piece : TextEdit} {source : Source} {expected : List Bytes}
    (hpieces : edit.pieces project grammar plan = some [piece]) (hsource : plan.source project piece.path = some source)
    (hkeeps : edit.Keeps project plan) (hafter : edit.rowsAfter project grammar plan piece.path source = expected)
    (hother : ∀ path, path ≠ piece.path → ∀ source, edit.rowsAfter project grammar plan path source = rows source.data) :
    edit.Exact project grammar plan ↔
      rows (splicedFrom source.data 0 [piece]) = expected ∧ Unglued source.data [] 0 [piece] := by
  constructor
  · rintro ⟨-, pieces, hsome, hall⟩
    obtain rfl := Option.some.inj (hsome.symm.trans hpieces)
    have hone := hall piece.path source hsource
    rw [spliced, fileOrder_single, if_pos rfl, hafter] at hone
    exact hone
  · intro h
    refine ⟨hkeeps, [piece], hpieces, fun path other hread => ?_⟩
    rw [spliced, fileOrder_single]
    by_cases hpath : piece.path = path
    · subst hpath
      obtain rfl := Option.some.inj (hsource.symm.trans hread)
      rw [if_pos rfl, hafter]
      exact h
    · rw [if_neg hpath, hother path (Ne.symm hpath)]
      exact untouched other

theorem insert_exact_iff {text : Text} {before after : Option Span} (h : (insert text before after).Valid project grammar plan) :
    (insert text before after).Exact project grammar plan ↔ (insert text before after).Sound project grammar plan := by
  obtain ⟨landing, source, hanchor, hsource, hnames⟩ := h
  obtain ⟨indent, hindent, hblank⟩ := indent_eq hnames
  have hpieces : (insert text before after).pieces project grammar plan = some
      [{ path := landing.path, start := ((fileLines source.data).take (landingRow landing before)).flatten.length,
         stop := ((fileLines source.data).take (landingRow landing before)).flatten.length,
         text := (textLines text).flatMap fun line => indent ++ source.encode line ++ source.newline }] := by
    rw [pieces, Plan.expand, Plan.inserted, hanchor]
    simp only [Option.bind_eq_bind, Option.bind_some, hsource, insertionPoint_eq hnames, hindent, Option.pure_def]
  have hlanding : landingIndent project plan landing = indent := by
    rw [landingIndent, hsource, Option.bind_some, hindent, Option.getD_some]
  obtain ⟨hended, hrows⟩ := @rows_indented source indent hblank (textLines text)
    fun line hline => splitLines_unbroken hline
  have hnil : ((textLines text).flatMap fun line => indent ++ source.encode line ++ source.newline) = [] ↔ text = [] := by
    rw [flatMap_newline]
    exact splitLines_eq_nil
  have hafter : (insert text before after).rowsAfter project grammar plan landing.path source =
      insertedRows (rows source.data) (landingRow landing before)
        ((textLines text).map fun line => indent ++ utf8 line) := by
    rw [rowsAfter, hanchor, ← hlanding]
    exact if_pos rfl
  have hother : ∀ path, path ≠ landing.path → ∀ source,
      (insert text before after).rowsAfter project grammar plan path source = rows source.data := fun path hpath other => by
    rw [rowsAfter, hanchor]
    exact if_neg hpath
  rw [exact_single_iff hpieces hsource trivial hafter hother, ← hrows, insertion_iff (landingRow_le hnames before) rfl rfl hended rfl, hnil]
  constructor
  · intro hcases other read hother hread
    obtain rfl := Option.some.inj (hanchor.symm.trans hother)
    obtain rfl := Option.some.inj (hsource.symm.trans hread)
    exact hcases
  · exact fun hsound => hsound landing source hanchor hsource

theorem delete_exact {span : Span} (h : (delete span).Valid project grammar plan) :
    (delete span).Exact project grammar plan := by
  obtain ⟨source, hsource, hnames⟩ := h
  have hpieces : (delete span).pieces project grammar plan = some [takenOut source span span.path] := by
    rw [pieces, Plan.expand]
    simp only [Option.bind_eq_bind, Option.bind_some, hsource, lines_eq hnames, Option.pure_def]
    rfl
  have hafter : (delete span).rowsAfter project grammar plan span.path source = removedRows (rows source.data) span :=
    if_pos rfl
  have hother : ∀ path, path ≠ span.path → ∀ source,
      (delete span).rowsAfter project grammar plan path source = rows source.data := fun path hpath other => if_neg hpath
  exact (exact_single_iff hpieces hsource trivial hafter hother).mpr (removed_exact hnames span.path)

theorem imports_exact_iff {path : Place} {statements : List Text} (h : (imports path statements).Valid project grammar plan) :
    (imports path statements).Exact project grammar plan ↔ (imports path statements).Sound project grammar plan := by
  obtain ⟨source, row, lines, hsource, hasked, hrow⟩ := h
  have hunique : (imports path statements).Sound project grammar plan ↔
      (lines = [] ∨ row < (fileLines source.data).length ∨ Ended source.data) := by
    constructor
    · exact fun hsound => hsound source row lines hsource hasked
    · intro hcases read other more hread hother
      obtain rfl := Option.some.inj (hsource.symm.trans hread)
      obtain ⟨rfl, rfl⟩ := Prod.mk.inj (Option.some.inj (hasked.symm.trans hother))
      exact hcases
  have hafter : (imports path statements).rowsAfter project grammar plan path source =
      insertedRows (rows source.data) row (rows (source.written lines)) := by
    rw [rowsAfter, if_pos rfl, hasked]
  have hother : ∀ other, other ≠ path → ∀ source,
      (imports path statements).rowsAfter project grammar plan other source = rows source.data :=
    fun other hne source => if_neg hne
  simp only [asked, Option.bind_eq_bind, Option.bind_eq_some_iff, Option.pure_def, Option.some.injEq, Prod.mk.injEq] at hasked
  obtain ⟨body, hbody, read, hread, rfl, rfl⟩ := hasked
  rw [hunique]
  by_cases hnil : Plan.importLines read.1 read.2 = []
  · have hpieces : (imports path statements).pieces project grammar plan = some [] := by
      rw [pieces, Plan.importInto]
      simp only [hsource, hbody, hread, hnil, Option.bind_eq_bind, Option.bind_some, if_true, Option.pure_def,
        Option.map_some, Option.toList_none]
    refine iff_of_true ⟨trivial, [], hpieces, fun other source' hsome => ?_⟩ (.inl hnil)
    by_cases hpath : other = path
    · subst hpath
      obtain rfl := Option.some.inj (hsource.symm.trans hsome)
      refine ⟨?_, (untouched source).2⟩
      rw [hafter, hnil, insertedRows]
      change rows (splicedFrom source.data 0 []) = (rows source.data).take _ ++ [] ++ (rows source.data).drop _
      rw [(untouched source).1, List.append_nil, List.take_append_drop]
    · rw [hother other hpath]
      exact untouched source'
  · have hpieces : (imports path statements).pieces project grammar plan = some
        [{ path := path, start := ((fileLines source.data).take (Plan.importLine body)).flatten.length,
           stop := ((fileLines source.data).take (Plan.importLine body)).flatten.length,
           text := source.written (Plan.importLines read.1 read.2) }] := by
      rw [pieces, Plan.importInto]
      simp only [hsource, hbody, hread, hnil, Option.bind_eq_bind, Option.bind_some, if_false, Option.pure_def,
        Option.map_some, Option.toList_some, Source.starts_getElem? hrow]
      rfl
    have hended : ∀ lines : List Text, Ended (source.written lines) := by
      intro lines
      induction lines using List.reverseRecOn with
      | nil => exact .inl rfl
      | append_singleton lines line ih =>
          rw [Source.written, List.flatMap_append]
          refine ih.append ?_
          rw [List.flatMap_singleton]
          refine .inr ?_
          rcases newline_cases source with hnewline | hnewline
          · rw [hnewline, List.getLast?_concat]
          · rw [hnewline, List.getLast?_append]
            rfl
    have hsome : source.written (Plan.importLines read.1 read.2) = [] ↔ Plan.importLines read.1 read.2 = [] :=
      flatMap_newline
    rw [exact_single_iff hpieces hsource trivial hafter hother, insertion_iff hrow rfl rfl (hended _) rfl, hsome]

theorem append_exact_iff {path : Place} {text : Text} (h : (append path text).Valid project grammar plan) :
    (append path text).Exact project grammar plan ↔ (append path text).Sound project grammar plan := by
  obtain ⟨source, hsource⟩ := h
  have hpieces : (append path text).pieces project grammar plan = some
      [{ path := path, start := source.data.length, stop := source.data.length,
         text := (if source.data ≠ [] ∧ source.data.getLast? ≠ some 10 then source.newline else []) ++ source.encode text,
         stacking := true }] := by
    rw [pieces, Plan.expand]
    simp only [hsource, Option.bind_eq_bind, Option.bind_some, Option.pure_def]
  have hunique : (append path text).Sound project grammar plan ↔
      (Ended source.data ∨ source.data.getLast? ≠ some 13 ∨ source.newline = [10]) := by
    constructor
    · exact fun hsound => hsound source hsource
    · intro hcases read hread
      obtain rfl := Option.some.inj (hsource.symm.trans hread)
      exact hcases
  have hslice : slice source.data 0 source.data.length = source.data := by
    rw [slice, List.take_length, List.drop_zero]
  have hafter : (append path text).rowsAfter project grammar plan path source =
      rows source.data ++ rows (source.encode text) := if_pos rfl
  have hother : ∀ other, other ≠ path → ∀ source,
      (append path text).rowsAfter project grammar plan other source = rows source.data := fun other hne source => if_neg hne
  rw [hunique, exact_single_iff hpieces hsource trivial hafter hother]
  have hunglued : Unglued source.data [] 0
      [{ path := path, start := source.data.length, stop := source.data.length,
         text := (if source.data ≠ [] ∧ source.data.getLast? ≠ some 10 then source.newline else []) ++ source.encode text,
         stacking := true }] := by
    refine ⟨.inl (.inl rfl), ?_, .inr (List.drop_length)⟩
    rw [hslice, List.nil_append]
    by_cases hparted : source.data ≠ [] ∧ source.data.getLast? ≠ some 10
    · rw [if_pos hparted]
      exact .inr (.inr ⟨rfl, List.prefix_append _ _⟩)
    · right; left
      by_contra hnot
      exact hparted ⟨fun hnil => hnot (.inl hnil), fun hten => hnot (.inr hten)⟩
  rw [and_iff_left hunglued, splicedFrom, splicedFrom, hslice, List.drop_length, List.append_nil]
  obtain ⟨full, rest, hfull, hrest, hdata⟩ := exists_lines source.data
  by_cases hended : Ended source.data
  · refine iff_of_true ?_ (.inl hended)
    rw [if_neg fun hparted => hended.elim hparted.1 hparted.2, List.nil_append, rows_append hended]
  · have hne : rest ≠ [] := fun hnil => hended (hdata ▸ (ended_iff hfull hrest).mpr hnil)
    have hlast : source.data.getLast? = rest.getLast? := by
      rw [hdata, List.getLast?_append, List.getLast?_eq_some_getLast hne]
      rfl
    have hline : Line (rest ++ source.newline) := by
      rcases newline_cases source with hnewline | hnewline
      · rw [hnewline]
        exact ⟨rest, rfl, hrest⟩
      · rw [hnewline]
        refine ⟨rest ++ [13], by rw [List.append_assoc]; rfl, ?_⟩
        rw [List.mem_append, not_or]
        exact ⟨hrest, by decide⟩
    rw [if_pos ⟨fun hnil => hended (.inl hnil), fun hten => hended (.inr hten)⟩]
    have hrows : rows source.data = full.map bare ++ [bare rest] := by
      rw [hdata, rows, fileLines_eq hfull hrest, lastLine, if_neg hne, List.map_append]
      rfl
    have hnew : rows (source.data ++ (source.newline ++ source.encode text)) =
        full.map bare ++ [bare (rest ++ source.newline)] ++ rows (source.encode text) := by
      have hparts : source.data ++ (source.newline ++ source.encode text) =
          (full ++ [rest ++ source.newline]).flatten ++ source.encode text := by
        have hjoined := congrArg (fun data => data ++ (source.newline ++ source.encode text)) hdata
        rw [List.flatten_append, List.flatten_singleton]
        exact hjoined.trans (by simp only [List.append_assoc])
      rw [hparts, rows, fileLines_full, List.map_append, List.map_append]
      · rfl
      · intro line hmem
        rcases List.mem_append.mp hmem with hmem | hmem
        · exact hfull line hmem
        · rw [List.mem_singleton.mp hmem]
          exact hline
    rw [hrows, hnew, List.append_left_inj, List.append_right_inj, List.cons.injEq, and_iff_left rfl, or_iff_right hended,
      hlast]
    rcases newline_cases source with hnewline | hnewline
    · rw [hnewline, bare, chopped_concat, bare, chopped_of_not_mem hrest]
      exact iff_of_true rfl (.inr rfl)
    · have hparts : rest ++ [13, 10] = rest ++ [13] ++ [10] := by rw [List.append_assoc]; rfl
      rw [hnewline, hparts, bare, chopped_concat, chopped_concat, bare, chopped_of_not_mem hrest]
      rcases chopped_cases 13 rest with hcut | ⟨hkept, hnot⟩
      · refine iff_of_false (fun heq => ?_) ?_
        · have hlength := congrArg List.length hcut
          rw [← heq, List.length_append, List.length_singleton] at hlength
          omega
        · rintro (hnot | hten)
          · exact hnot (hcut ▸ List.getLast?_concat)
          · cases hten
      · exact iff_of_true hkept (.inl hnot)

end Kinds

end LineEdit

end Mainboard.Analysis
