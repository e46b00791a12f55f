import Mainboard.LineEdits

/-! Lines moved: taken out where they stand and put, with the blanks of their new place, between two lines that stay. A
moved line is read as bytes, cut, decoded and read as text again, and comes out as one line only where nothing in it
parts lines in any of these readings. -/

namespace Mainboard.Analysis

/-- Lines of a file, one after another: whole, but for the last. -/
def Lined (lines : List Bytes) : Prop :=
  ∃ (full : List Bytes) (rest : Bytes), (∀ line ∈ full, Line line) ∧ 10 ∉ rest ∧ lines = full ++ lastLine rest

section Reading

variable {lines : List Bytes} {line : Bytes}

theorem lined_fileLines (data : Bytes) : Lined (fileLines data) := by
  obtain ⟨full, rest, hfull, hrest, rfl⟩ := exists_lines data
  exact ⟨full, rest, hfull, hrest, fileLines_eq hfull hrest⟩

theorem lined_lastLine {rest : Bytes} (h : 10 ∉ rest) (part : List Bytes) (hpart : part.Sublist (lastLine rest)) :
    ∃ other, 10 ∉ other ∧ part = lastLine other := by
  unfold lastLine at hpart
  split at hpart
  · exact ⟨[], List.not_mem_nil, List.sublist_nil.mp hpart⟩
  · next hne =>
      rcases List.sublist_cons_iff.mp hpart with hnil | ⟨more, rfl, hmore⟩
      · exact ⟨[], List.not_mem_nil, List.sublist_nil.mp hnil⟩
      · rw [List.sublist_nil.mp hmore]
        exact ⟨rest, h, by rw [lastLine, if_neg hne]⟩

theorem Lined.take (h : Lined lines) (count : ℕ) : Lined (lines.take count) := by
  obtain ⟨full, rest, hfull, hrest, rfl⟩ := h
  obtain ⟨other, hother, hpart⟩ := lined_lastLine hrest _ (List.take_sublist (count - full.length) _)
  exact ⟨full.take count, other, fun line hline => hfull line (List.mem_of_mem_take hline), hother, by
    rw [List.take_append, hpart]⟩

theorem Lined.drop (h : Lined lines) (count : ℕ) : Lined (lines.drop count) := by
  obtain ⟨full, rest, hfull, hrest, rfl⟩ := h
  obtain ⟨other, hother, hpart⟩ := lined_lastLine hrest _ (List.drop_sublist (count - full.length) _)
  exact ⟨full.drop count, other, fun line hline => hfull line (List.mem_of_mem_drop hline), hother, by
    rw [List.drop_append, hpart]⟩

/-- A line is itself without its ending, and its ending. -/
theorem Lined.ending (h : Lined lines) (hline : line ∈ lines) :
    10 ∉ bare line ∧ ∃ ending, line = bare line ++ ending ∧
      ((ending = [13, 10] ∨ ending = [13]) ∨
        (ending = [10] ∨ ending = [] ∧ bare line ≠ []) ∧ (bare line).getLast? ≠ some 13) := by
  obtain ⟨full, rest, hfull, hrest, rfl⟩ := h
  rcases List.mem_append.mp hline with hline | hline
  · obtain ⟨content, rfl, hcontent⟩ := hfull line hline
    rw [bare, chopped_concat]
    rcases chopped_cases 13 content with hcut | ⟨hkept, hnot⟩
    · refine ⟨fun hmem => hcontent (hcut ▸ List.mem_append_left _ hmem), [13, 10], ?_, .inl (.inl rfl)⟩
      conv_lhs => rw [hcut]
      rw [List.append_assoc]
      rfl
    · rw [← hkept]
      exact ⟨hcontent, [10], rfl, .inr ⟨.inl rfl, hnot⟩⟩
  · unfold lastLine at hline
    split at hline
    · cases hline
    · next hne =>
        rw [List.mem_singleton.mp hline, bare, chopped_of_not_mem hrest]
        rcases chopped_cases 13 rest with hcut | ⟨hkept, hnot⟩
        · exact ⟨fun hmem => hrest (hcut ▸ List.mem_append_left _ hmem), [13], hcut, .inl (.inr rfl)⟩
        · rw [← hkept]
          exact ⟨hrest, [], (List.append_nil rest).symm, .inr ⟨.inr ⟨rfl, hne⟩, hnot⟩⟩

theorem Lined.ne_nil (h : Lined lines) (hline : line ∈ lines) : line ≠ [] := by
  obtain ⟨-, ending, hparts, hcases⟩ := h.ending hline
  rw [hparts]
  rcases hcases with (rfl | rfl) | ⟨rfl | ⟨-, hne⟩, -⟩
  · exact List.append_ne_nil_of_right_ne_nil _ (List.cons_ne_nil _ _)
  · exact List.append_ne_nil_of_right_ne_nil _ (List.cons_ne_nil _ _)
  · exact List.append_ne_nil_of_right_ne_nil _ (List.cons_ne_nil _ _)
  · exact List.append_ne_nil_of_left_ne_nil hne _

theorem byteLines_line (line rest : Bytes) :
    byteLines (line ++ [10] ++ rest) = byteLines (line ++ [10]) ++ byteLines rest := by
  have happend := @splitLines_append UInt8 _ 13 10 (fun byte => byte == 10 || byte == 13) rfl (by decide) line rest
  rwa [List.append_assoc]

/-- The lines of a stretch are read one by one. -/
theorem byteLines_flatten (h : Lined lines) : byteLines lines.flatten = lines.flatMap byteLines := by
  obtain ⟨full, rest, hfull, hrest, rfl⟩ := h
  induction full with
  | nil =>
      rw [List.nil_append, flatten_lastLine]
      unfold lastLine
      split
      · next hnil => rw [hnil]; rfl
      · rw [List.flatMap_singleton]
  | cons line full ih =>
      rw [List.forall_mem_cons] at hfull
      obtain ⟨⟨content, rfl, hcontent⟩, hfull⟩ := hfull
      rw [List.cons_append, List.flatten_cons, List.flatMap_cons, byteLines_line, ih hfull]

/-- A line is read as one line, itself without its ending, exactly when no return stands in it. -/
theorem byteLines_of_mem (h : Lined lines) (hline : line ∈ lines) :
    (13 ∉ bare line → byteLines line = [bare line]) ∧ (13 ∈ bare line → 2 ≤ (byteLines line).length) := by
  obtain ⟨hten, ending, hparts, hcases⟩ := h.ending hline
  constructor
  · intro hreturn
    conv_lhs => rw [hparts]
    refine splitLines_single rfl rfl (by decide) (fun byte hbyte => ?_) ?_
    · rw [Bool.or_eq_false_iff, beq_eq_false_iff_ne, beq_eq_false_iff_ne]
      exact ⟨fun heq => hten (heq ▸ hbyte), fun heq => hreturn (heq ▸ hbyte)⟩
    · rcases hcases with (rfl | rfl) | ⟨rfl | h, -⟩
      · exact .inr (.inr (.inl rfl))
      · exact .inr (.inl rfl)
      · exact .inl rfl
      · exact .inr (.inr (.inr h))
  · intro hreturn
    obtain ⟨before, after, hsplit⟩ := List.append_of_mem hreturn
    rw [hparts, hsplit, List.append_assoc, List.cons_append]
    cases after with
    | nil =>
        -- a return before the ending's own
        rcases hcases with (rfl | rfl) | ⟨-, hlast⟩
        · exact two_le_length_splitLines rfl (by simp) (by simp)
        · exact two_le_length_splitLines rfl (by simp) (by simp)
        · exact absurd (hsplit ▸ List.getLast?_concat) hlast
    | cons byte after =>
        refine two_le_length_splitLines rfl (by simp) ?_
        rintro ⟨-, hhead⟩
        rw [List.cons_append, List.head?_cons, Option.some.injEq] at hhead
        exact hten (hsplit ▸ List.mem_append_right _ (List.mem_cons_of_mem _ (hhead ▸ List.mem_cons_self)))

/-- A text that becomes a line of its own is read back as one line exactly when nothing in it parts lines. -/
theorem textLines_one {text : Text} (h : '\r' ∉ text) :
    ((∀ char ∈ text, breaksLine char = false) → textLines (text ++ ['\n']) = [text]) ∧
      (¬ (∀ char ∈ text, breaksLine char = false) → 2 ≤ (textLines (text ++ ['\n'])).length) := by
  constructor
  · exact fun hplain => splitLines_single (by decide) (by decide) (by decide) hplain (.inl rfl)
  · intro hbroken
    push Not at hbroken
    obtain ⟨char, hchar, hbreaks⟩ := hbroken
    obtain ⟨before, after, rfl⟩ := List.append_of_mem hchar
    rw [List.append_assoc, List.cons_append]
    refine two_le_length_splitLines (by simpa using hbreaks) (by simp) ?_
    rintro ⟨rfl, -⟩
    exact h hchar

theorem textLines_ne_nil (text : Text) : 1 ≤ (textLines (text ++ ['\n'])).length :=
  List.length_pos_iff.mpr fun h =>
    List.append_ne_nil_of_right_ne_nil text (List.cons_ne_nil '\n' []) (splitLines_eq_nil.mp h)

/-- Texts put on lines of their own are read one by one. -/
theorem textLines_flatMap (texts : List Text) :
    textLines (texts.flatMap (· ++ ['\n'])) = texts.flatMap fun text => textLines (text ++ ['\n']) := by
  induction texts with
  | nil => rfl
  | cons text texts ih =>
      have happend := @splitLines_append Char _ '\r' '\n' breaksLine (by decide) (by decide) text
        (texts.flatMap (· ++ ['\n']))
      rw [List.flatMap_cons, List.flatMap_cons, ← ih, List.append_assoc, List.singleton_append]
      exact happend

end Reading

/-! Counting -/

section Counting

variable {α β : Type} {f : α → List β} {list : List α}

theorem length_le_flatMap (h : ∀ one ∈ list, 1 ≤ (f one).length) : list.length ≤ (list.flatMap f).length := by
  induction list with
  | nil => exact Nat.le_refl _
  | cons one list ih =>
      rw [List.forall_mem_cons] at h
      have := ih h.2
      rw [List.flatMap_cons, List.length_append, List.length_cons]
      omega

/-- Where as many come out as went in, and at least one of each, one comes out of each. -/
theorem one_of_flatMap (h : ∀ one ∈ list, 1 ≤ (f one).length) (hcount : (list.flatMap f).length = list.length) :
    ∀ one ∈ list, (f one).length = 1 := by
  induction list with
  | nil => exact fun _ hone => absurd hone List.not_mem_nil
  | cons one list ih =>
      rw [List.forall_mem_cons] at h
      have hle := length_le_flatMap h.2
      rw [List.flatMap_cons, List.length_append, List.length_cons] at hcount
      exact List.forall_mem_cons.mpr ⟨by omega, ih h.2 (by omega)⟩

end Counting

/-! The lines a move takes -/

section Taking

variable {source : Source} {span : Span} {indent : Bytes} {moved : List Bytes}

/-- What a move writes, before the blanks of its new place. -/
theorem movedText_eq (h : span.Names source) (hindent : source.indent span.startLine = some indent) :
    Plan.movedText source span = (((((fileLines source.data).take span.lastLine).drop (span.startLine - 1)).flatMap
      byteLines).mapM fun line => decode (line.drop indent.length)).map (·.flatMap (· ++ ['\n'])) := by
  have horder := h.order
  have hslice := @Source.slice_starts source (span.startLine - 1) span.lastLine (by omega)
  rw [Plan.movedText, lines_eq h, hindent]
  simp only [Option.bind_eq_bind, Option.bind_some, hslice, Option.pure_def]
  rw [byteLines_flatten (((lined_fileLines _).take _).drop _)]
  cases List.mapM (fun line => decode (List.drop indent.length line)) _ <;> rfl

/-- Movable lines are read as one line each, and come out without what is cut off. -/
theorem movable_read (hmoved : Lined moved) {width : ℕ} (hall : ∀ line ∈ moved, LineEdit.Movable width line) :
    ∃ texts, (moved.flatMap byteLines).mapM (fun line => decode (line.drop width)) = some texts ∧
      textLines (texts.flatMap (· ++ ['\n'])) = texts ∧
        texts.map utf8 = moved.map fun line => (bare line).drop width := by
  have hreturn : ∀ line ∈ moved, 13 ∉ bare line := fun line hline hmem => by
    obtain ⟨htake, text, hdecode, hplain⟩ := hall line hline
    rw [← List.take_append_drop width (bare line), List.mem_append] at hmem
    rcases hmem with hmem | hmem
    · exact (htake 13 hmem).2 rfl
    · rw [decode_eq_some_iff.mp hdecode, return_mem_utf8] at hmem
      exact absurd (hplain _ hmem) (by decide)
  have hread : moved.flatMap byteLines = moved.map bare := by
    rw [← List.flatMap_pure_eq_map]
    exact List.flatMap_congr fun line hline => (byteLines_of_mem hmoved hline).1 (hreturn line hline)
  obtain ⟨texts, htexts⟩ : ∃ texts, (moved.map bare).mapM (fun line => decode (line.drop width)) = some texts := by
    refine ListReading.mapM_exists_iff.mpr fun row hrow => ?_
    obtain ⟨line, hline, rfl⟩ := List.mem_map.mp hrow
    obtain ⟨-, text, hdecode, -⟩ := hall line hline
    exact ⟨text, hdecode⟩
  refine ⟨texts, hread ▸ htexts, ?_, ?_⟩
  · have hsingle : ∀ text ∈ texts, textLines (text ++ ['\n']) = pure text := fun text htext => by
      obtain ⟨row, hrow, hdecode⟩ := ListReading.mem_of_mapM htexts htext
      obtain ⟨line, hline, rfl⟩ := List.mem_map.mp hrow
      obtain ⟨-, other, hother, hplain⟩ := hall line hline
      obtain rfl := Option.some.inj (hdecode.symm.trans hother)
      exact (textLines_one fun hchar => absurd (hplain _ hchar) (by decide)).1 hplain
    rw [textLines_flatMap, List.flatMap_congr hsingle]
    exact List.flatMap_singleton' texts
  · have heach := ListReading.mapM_eq_some_iff.mp htexts
    rw [List.forall₂_map_left_iff] at heach
    clear htexts hread hreturn hall hmoved
    induction heach with
    | nil => rfl
    | cons hdecode _ ih => rw [List.map_cons, List.map_cons, ih, decode_eq_some_iff.mp hdecode]

/-- Lines whose first bytes are blanks come out as many as they were only where each is movable. -/
theorem movable_of_count (hmoved : Lined moved) {width : ℕ}
    (hblank : ∀ line ∈ moved, ∀ byte ∈ (bare line).take width, LineEdit.solid byte = false) {texts : List Text}
    (htexts : (moved.flatMap byteLines).mapM (fun line => decode (line.drop width)) = some texts)
    (hcount : (textLines (texts.flatMap (· ++ ['\n']))).length = moved.length) :
    ∀ line ∈ moved, LineEdit.Movable width line := by
  have hone : ∀ line ∈ moved, 1 ≤ (byteLines line).length := fun line hline =>
    List.length_pos_iff.mpr fun hnil => hmoved.ne_nil hline (splitLines_eq_nil.mp hnil)
  have hmany : ∀ text ∈ texts, 1 ≤ (textLines (text ++ ['\n'])).length := fun text _ => textLines_ne_nil text
  have hsame := (ListReading.mapM_eq_some_iff.mp htexts).length_eq
  rw [textLines_flatMap] at hcount
  have hle := length_le_flatMap hone
  have hmore := length_le_flatMap hmany
  have hsingle := one_of_flatMap hone (by omega)
  have hplain := one_of_flatMap hmany (by omega)
  intro line hline
  have hreturn : 13 ∉ bare line := fun hmem => by
    have htwo := (byteLines_of_mem hmoved hline).2 hmem
    rw [hsingle line hline] at htwo
    exact absurd htwo (by decide)
  have hread := (byteLines_of_mem hmoved hline).1 hreturn
  have hmem : bare line ∈ moved.flatMap byteLines := List.mem_flatMap.mpr ⟨line, hline, hread ▸ List.mem_cons_self⟩
  obtain ⟨text, htext, hdecode⟩ := ListReading.exists_of_mapM htexts hmem
  refine ⟨fun byte hbyte => ⟨hblank line hline byte hbyte, fun heq => hreturn (heq ▸ List.mem_of_mem_take hbyte)⟩, text,
    hdecode, ?_⟩
  by_contra hbroken
  have hnone : '\r' ∉ text := fun hchar => by
    rw [← return_mem_utf8, ← decode_eq_some_iff.mp hdecode] at hchar
    exact hreturn (List.mem_of_mem_drop hchar)
  have htwo := (textLines_one hnone).2 hbroken
  rw [hplain text htext] at htwo
  exact absurd htwo (by decide)

end Taking

/-! Lines taken out and put elsewhere in one file -/

section Moving

variable {source : Source} {span : Span} {row : ℕ} {path : Place} {text : Bytes}

theorem length_take_mono {first last : ℕ} (h : first ≤ last) :
    ((fileLines source.data).take first).flatten.length ≤ ((fileLines source.data).take last).flatten.length := by
  have hsublist := (List.take_sublist_take_left (l := fileLines source.data) h).flatten
  exact hsublist.length_le

theorem length_take_lt {first last : ℕ} (h : first < last) (hlast : last ≤ (fileLines source.data).length) :
    ((fileLines source.data).take first).flatten.length < ((fileLines source.data).take last).flatten.length := by
  have hfirst : first < (fileLines source.data).length := by omega
  have hnext : ((fileLines source.data).take (first + 1)).flatten.length =
      ((fileLines source.data).take first).flatten.length + (fileLines source.data)[first].length := by
    rw [List.take_succ_eq_append_getElem (by omega), List.flatten_append, List.length_append, List.flatten_singleton]
  have hpos := List.length_pos_iff.mpr ((lined_fileLines source.data).ne_nil (List.getElem_mem (by omega : first < _)))
  have hmono := @length_take_mono source (first + 1) last h
  omega

/-- The byte edit that puts a text before a line. -/
def putIn (source : Source) (row : ℕ) (path : Place) (text : Bytes) : TextEdit where
  path := path
  start := ((fileLines source.data).take row).flatten.length
  stop := ((fileLines source.data).take row).flatten.length
  text := text

theorem inOrder_iff {one other : TextEdit} : Plan.inOrder one other = true ↔
    one.start < other.start ∨ one.start = other.start ∧ one.stop ≤ other.stop := by
  simp only [Plan.inOrder, Bool.or_eq_true, Bool.and_eq_true, decide_eq_true_eq, beq_iff_eq]

/-- Lines taken out and put before ones that stood before them. -/
theorem moved_up (h : span.Names source) (hrow : row < span.startLine) (htext : Ended text) :
    Plan.fileOrder [takenOut source span path, putIn source row path text] =
        [putIn source row path text, takenOut source span path] ∧
      rows (splicedFrom source.data 0 [putIn source row path text, takenOut source span path]) =
        movedRows (rows source.data) span row (rows text) ∧
      LineEdit.Unglued source.data [] 0 [putIn source row path text, takenOut source span path] := by
  have horder := h.order
  have hlast := h.last
  have hbefore := @line_of_mem_take source.data row (.inl (by omega))
  have hbetween : ∀ line ∈ ((fileLines source.data).take (span.startLine - 1)).drop row, Line line := fun line hline =>
    @line_of_mem_take source.data (span.startLine - 1) (.inl (by omega)) line (List.mem_of_mem_drop hline)
  have hslice := @Source.slice_starts source row (span.startLine - 1) (by omega)
  refine ⟨?_, ?_, ?_⟩
  · have hlow := @length_take_mono source row (span.startLine - 1) (by omega)
    have hhigh := @length_take_lt source (span.startLine - 1) span.lastLine (by omega) hlast
    have hnot : ¬ Plan.inOrder (takenOut source span path) (putIn source row path text) = true := by
      rw [inOrder_iff]
      change ¬ (((fileLines source.data).take (span.startLine - 1)).flatten.length <
        ((fileLines source.data).take row).flatten.length ∨ _ = _ ∧ ((fileLines source.data).take span.lastLine).flatten.length ≤
          ((fileLines source.data).take row).flatten.length)
      omega
    exact if_neg hnot
  · simp only [splicedFrom, putIn, takenOut]
    rw [slice_zero, hslice, List.append_nil, Source.drop_start, rows_append ((ended_full hbefore).append htext),
      rows_append (ended_full hbefore), rows_full hbefore, rows_append (ended_full hbetween), rows_full hbetween, rows_drop,
      movedRows, if_pos hrow, rows_take, rows_take, List.map_drop]
    simp only [List.append_assoc]
  · simp only [LineEdit.Unglued, putIn, takenOut]
    rw [slice_zero, hslice, List.nil_append]
    have hended := (ended_full hbefore).append htext
    refine ⟨.inl (.inl rfl), .inr (.inl (ended_full hbefore)), .inl hended, .inl trivial, .inl ?_⟩
    rw [List.append_nil]
    exact hended.append (ended_full hbetween)

/-- Lines taken out and put behind ones that stood behind them: glued to none exactly where a line ends before them. -/
theorem moved_down (h : span.Names source) (hrow : span.lastLine ≤ row) (hle : row ≤ (fileLines source.data).length)
    (htext : Ended text) (hne : text ≠ []) :
    Plan.fileOrder [takenOut source span path, putIn source row path text] =
        [takenOut source span path, putIn source row path text] ∧
      (LineEdit.Unglued source.data [] 0 [takenOut source span path, putIn source row path text] ↔
        row < (fileLines source.data).length ∨ Ended source.data ∨ row = span.lastLine) ∧
      ((row < (fileLines source.data).length ∨ Ended source.data ∨ row = span.lastLine) →
        rows (splicedFrom source.data 0 [takenOut source span path, putIn source row path text]) =
          movedRows (rows source.data) span row (rows text)) := by
  have hfirst := h.first
  have horder := h.order
  have hlast := h.last
  have hbefore := @line_of_mem_take source.data (span.startLine - 1) (.inl (by omega))
  have hslice := @Source.slice_starts source span.lastLine row hrow
  have hbetween : (row < (fileLines source.data).length ∨ Ended source.data ∨ row = span.lastLine) →
      ∀ line ∈ ((fileLines source.data).take row).drop span.lastLine, Line line := by
    rintro (hlt | hended | rfl) line hline
    · exact line_of_mem_take (.inl hlt) line (List.mem_of_mem_drop hline)
    · exact line_of_mem_take (.inr hended) line (List.mem_of_mem_drop hline)
    · rw [List.drop_eq_nil_of_le (by rw [List.length_take]; omega)] at hline
      cases hline
  have hwhole : Ended (((fileLines source.data).take (span.startLine - 1)).flatten ++
      (((fileLines source.data).take row).drop span.lastLine).flatten) ↔
        row < (fileLines source.data).length ∨ Ended source.data ∨ row = span.lastLine := by
    constructor
    · intro hended
      rcases hle.lt_or_eq with hlt | heq
      · exact .inl hlt
      · rcases hrow.lt_or_eq with hbehind | hsame
        · refine .inr (.inl ?_)
          -- the last line of the file stands behind the lines taken out, so it ends what is kept
          have hparts : source.data = ((fileLines source.data).take span.lastLine).flatten ++
              ((fileLines source.data).drop span.lastLine).flatten := by
            rw [← List.flatten_append, List.take_append_drop, flatten_fileLines]
          have hkept : ((fileLines source.data).drop span.lastLine).flatten ≠ [] := fun hnil => by
            have hnone := fileLines_drop source.data span.lastLine
            rw [hnil, eq_comm] at hnone
            have hlength := congrArg List.length hnone
            rw [List.length_drop] at hlength
            change _ = 0 at hlength
            omega
          have hlength : ∀ front : Bytes, (front ++ ((fileLines source.data).drop span.lastLine).flatten).getLast? =
              (((fileLines source.data).drop span.lastLine).flatten).getLast? := fun front => by
            rw [List.getLast?_append, List.getLast?_eq_some_getLast hkept]
            rfl
          rw [heq, List.take_length] at hended
          rcases hended with hnil | hten
          · exact absurd (List.append_eq_nil_iff.mp hnil).2 hkept
          · right
            rw [hparts, hlength]
            rwa [hlength] at hten
        · exact .inr (.inr hsame.symm)
    · exact fun hcases => (ended_full hbefore).append (ended_full (hbetween hcases))
  refine ⟨?_, ?_, fun hcases => ?_⟩
  · have hlow := @length_take_mono source span.lastLine row hrow
    have hhigh := @length_take_lt source (span.startLine - 1) span.lastLine (by omega) hlast
    have hahead : Plan.inOrder (takenOut source span path) (putIn source row path text) = true :=
      inOrder_iff.mpr (.inl (hhigh.trans_le hlow))
    exact if_pos hahead
  · simp only [LineEdit.Unglued, putIn, takenOut]
    rw [slice_zero, hslice, List.nil_append, List.append_nil]
    constructor
    · rintro ⟨-, -, -, hnil | hended | ⟨hfalse, -⟩, -⟩
      · exact absurd hnil hne
      · exact hwhole.mp hended
      · cases hfalse
    · intro hcases
      refine ⟨.inl (.inl rfl), .inl trivial, .inl (ended_full hbefore), .inr (.inl (hwhole.mpr hcases)), .inl ?_⟩
      exact (hwhole.mpr hcases).append htext
  · simp only [splicedFrom, putIn, takenOut]
    rw [slice_zero, hslice, List.append_nil, Source.drop_start, rows_append (ended_full hbefore), rows_full hbefore,
      rows_append ((ended_full (hbetween hcases)).append htext), rows_append (ended_full (hbetween hcases)),
      rows_full (hbetween hcases), rows_drop, movedRows, if_neg (by omega), rows_take, rows_take, List.map_drop]
    simp only [List.append_assoc]

theorem movedRows_inj {lines one other : List Bytes} :
    movedRows lines span row one = movedRows lines span row other ↔ one = other := by
  unfold movedRows
  split <;> simp [List.append_assoc]

theorem insertedRows_inj {lines one other : List Bytes} :
    insertedRows lines row one = insertedRows lines row other ↔ one = other := by
  simp [insertedRows, List.append_assoc]

end Moving

/-! Moves -/

namespace LineEdit

section Exactness

variable {project : Project} {grammar : Grammar} {plan : Plan} {span landing : Span} {source target : Source} {row : ℕ}
  {text : Bytes}

/-- The list of a file's lines after lines are taken out of one file and others put into one. -/
def relocatedRows (span landing : Span) (row : ℕ) (added : List Bytes) (path : Place) (source : Source) : List Bytes :=
  if path = span.path then
    if landing.path = span.path then movedRows (rows source.data) span row added else removedRows (rows source.data) span
  else if path = landing.path then insertedRows (rows source.data) row added else rows source.data

/-- Lines taken out of one file and whole lines put into one stand as told exactly where a line ends before the place
they are put. -/
theorem relocated_iff (hsource : plan.source project span.path = some source) (hnames : span.Names source)
    (htarget : plan.source project landing.path = some target) (hrow : row ≤ (fileLines target.data).length)
    (hplace : landing.path = span.path → row < span.startLine ∨ span.lastLine ≤ row) (htext : Ended text) (hne : text ≠ [])
    {added : List Bytes} :
    (∀ path read, plan.source project path = some read →
      rows (spliced [takenOut source span span.path, putIn target row landing.path text] path read) =
          relocatedRows span landing row added path read ∧
        Unglued read.data [] 0 (Plan.fileOrder
          ([takenOut source span span.path, putIn target row landing.path text].filter fun piece => piece.path = path))) ↔
      (row < (fileLines target.data).length ∨ Ended target.data ∨ landing.path = span.path ∧ row = span.lastLine) ∧
        rows text = added := by
  have hfilter : ∀ path, [takenOut source span span.path, putIn target row landing.path text].filter
      (fun piece => piece.path = path) =
        (if span.path = path then [takenOut source span span.path] else []) ++
          if landing.path = path then [putIn target row landing.path text] else [] := fun path => by
    by_cases hone : span.path = path <;> by_cases hother : landing.path = path <;>
      simp [takenOut, putIn, hone, hother]
  by_cases hsame : landing.path = span.path
  · rw [hsame, hsource] at htarget
    obtain rfl := Option.some.inj htarget
    have hboth : ([takenOut source span span.path, putIn source row landing.path text].filter
        fun piece => piece.path = span.path) = [takenOut source span span.path, putIn source row span.path text] := by
      rw [hfilter, if_pos rfl, if_pos hsame, hsame]
      rfl
    have hothers : ∀ path read, path ≠ span.path →
        rows (spliced [takenOut source span span.path, putIn source row landing.path text] path read) =
            relocatedRows span landing row added path read ∧
          Unglued read.data [] 0 (Plan.fileOrder ([takenOut source span span.path,
            putIn source row landing.path text].filter fun piece => piece.path = path)) := fun path read hpath => by
      rw [spliced, hfilter, if_neg (Ne.symm hpath), if_neg (fun heq => hpath (heq.symm.trans hsame)), relocatedRows,
        if_neg hpath, if_neg (fun heq => hpath (heq.trans hsame))]
      exact untouched read
    have hone : (∀ path read, plan.source project path = some read →
        rows (spliced [takenOut source span span.path, putIn source row landing.path text] path read) =
            relocatedRows span landing row added path read ∧
          Unglued read.data [] 0 (Plan.fileOrder ([takenOut source span span.path,
            putIn source row landing.path text].filter fun piece => piece.path = path))) ↔
        rows (splicedFrom source.data 0
            (Plan.fileOrder [takenOut source span span.path, putIn source row span.path text])) =
            movedRows (rows source.data) span row added ∧
          Unglued source.data [] 0
            (Plan.fileOrder [takenOut source span span.path, putIn source row span.path text]) := by
      constructor
      · intro hall
        have hhere := hall span.path source hsource
        rwa [spliced, hboth, relocatedRows, if_pos rfl, if_pos hsame] at hhere
      · intro hhere path read hread
        by_cases hpath : path = span.path
        · subst hpath
          obtain rfl := Option.some.inj (hsource.symm.trans hread)
          rwa [spliced, hboth, relocatedRows, if_pos rfl, if_pos hsame]
        · exact hothers path read hpath
    rw [hone]
    rcases hplace hsame with hup | hdown
    · obtain ⟨horder, hrows, hglue⟩ := @moved_up source span row span.path text hnames hup htext
      have hlast := hnames.last
      have horder' := hnames.order
      rw [horder, and_iff_left hglue, hrows, movedRows_inj]
      exact (and_iff_right (.inl (by omega))).symm
    · obtain ⟨horder, hglue, hrows⟩ := @moved_down source span row span.path text hnames hdown hrow htext hne
      rw [horder, hglue, and_comm]
      have hcond : (row < (fileLines source.data).length ∨ Ended source.data ∨ row = span.lastLine) ↔
          (row < (fileLines source.data).length ∨ Ended source.data ∨ landing.path = span.path ∧ row = span.lastLine) := by
        rw [and_iff_right hsame]
      rw [← hcond]
      exact and_congr_right fun hcases => by rw [hrows hcases, movedRows_inj]
  · have hdiffer : ¬ span.path = landing.path := fun heq => hsame heq.symm
    have hone : (∀ path read, plan.source project path = some read →
        rows (spliced [takenOut source span span.path, putIn target row landing.path text] path read) =
            relocatedRows span landing row added path read ∧
          Unglued read.data [] 0 (Plan.fileOrder ([takenOut source span span.path,
            putIn target row landing.path text].filter fun piece => piece.path = path))) ↔
        rows (splicedFrom target.data 0 [putIn target row landing.path text]) =
            insertedRows (rows target.data) row added ∧
          Unglued target.data [] 0 [putIn target row landing.path text] := by
      constructor
      · intro hall
        have hhere := hall landing.path target htarget
        rwa [spliced, hfilter, if_neg hdiffer, if_pos rfl, relocatedRows, if_neg hsame, if_pos rfl] at hhere
      · intro hhere path read hread
        by_cases hpath : path = span.path
        · subst hpath
          obtain rfl := Option.some.inj (hsource.symm.trans hread)
          rw [spliced, hfilter, if_pos rfl, if_neg hsame, relocatedRows, if_pos rfl, if_neg hsame]
          exact removed_exact hnames span.path
        · by_cases hland : path = landing.path
          · subst hland
            obtain rfl := Option.some.inj (htarget.symm.trans hread)
            rw [spliced, hfilter, if_neg hdiffer, if_pos rfl, relocatedRows, if_neg hsame, if_pos rfl]
            exact hhere
          · rw [spliced, hfilter, if_neg (Ne.symm hpath), if_neg (Ne.symm hland), relocatedRows, if_neg hpath,
              if_neg hland]
            exact untouched read
    have hinsert := @insertion_iff target row (putIn target row landing.path text) hrow rfl rfl htext rfl
    rw [hone]
    constructor
    · rintro ⟨hrows, hglue⟩
      have hcond := (@unglued_insertion target row (putIn target row landing.path text) hrow rfl rfl htext rfl).mp hglue
      refine ⟨(hcond.resolve_left hne).imp_right .inl, ?_⟩
      rw [(hinsert.mpr hcond).1, insertedRows_inj] at hrows
      exact hrows
    · rintro ⟨hcases, rfl⟩
      refine hinsert.mpr (.inr (hcases.imp_right fun h => h.resolve_right fun hboth => hsame hboth.1))

/-- Bytes cut off keep what is no blank exactly when they are blanks. -/
theorem filter_drop_iff {line : Bytes} {width : ℕ} :
    (line.drop width).filter solid = line.filter solid ↔ ∀ byte ∈ line.take width, solid byte = false := by
  have hparts : line.filter solid = (line.take width).filter solid ++ (line.drop width).filter solid := by
    rw [← List.filter_append, List.take_append_drop]
  rw [hparts, List.self_eq_append_left, List.filter_eq_nil_iff]
  simp only [Bool.not_eq_true]

theorem movedLines_ne_nil (hsource : plan.source project span.path = some source) (hnames : span.Names source) :
    movedLines project plan span = ((fileLines source.data).take span.lastLine).drop (span.startLine - 1) ∧
      movedLines project plan span ≠ [] := by
  have hfirst := hnames.first
  have horder := hnames.order
  have hlast := hnames.last
  have hlines : movedLines project plan span = ((fileLines source.data).take span.lastLine).drop (span.startLine - 1) := by
    rw [movedLines, hsource, Option.map_some, Option.getD_some]
  refine ⟨hlines, fun hnil => ?_⟩
  rw [hlines, List.drop_eq_nil_iff, List.length_take] at hnil
  omega

theorem move_exact_iff {before after : Option Span} (h : (move span before after).Valid project grammar plan) :
    (move span before after).Exact project grammar plan ↔ (move span before after).Sound project grammar plan := by
  obtain ⟨⟨source, hsource, hnames⟩, landing, target, hanchor, htarget, hland, hplace⟩ := h
  obtain ⟨indent, hindent, -⟩ := indent_eq hnames
  obtain ⟨gap, hgap, hblank⟩ := indent_eq hland
  obtain ⟨hmoved, hsome⟩ := movedLines_ne_nil hsource hnames
  have hlined : Lined (movedLines project plan span) := hmoved ▸ ((lined_fileLines _).take _).drop _
  have hcut : landingIndent project plan span = indent := by
    rw [landingIndent, hsource, Option.bind_some, hindent, Option.getD_some]
  have hput : landingIndent project plan landing = gap := by
    rw [landingIndent, htarget, Option.bind_some, hgap, Option.getD_some]
  have hlanded : landedRows project plan span landing =
      (movedLines project plan span).map fun line => gap ++ (bare line).drop indent.length := by
    rw [landedRows, hcut, hput]
  have hpieces : (move span before after).pieces project grammar plan =
      (((movedLines project plan span).flatMap byteLines).mapM fun line => decode (line.drop indent.length)).map fun texts =>
        [takenOut source span span.path, putIn target (landingRow landing before) landing.path
          ((textLines (texts.flatMap (· ++ ['\n']))).flatMap fun line => gap ++ target.encode line ++ target.newline)] := by
    rw [pieces, Plan.expand]
    simp only [Option.bind_eq_bind, Option.bind_some, hsource, lines_eq hnames, movedText_eq hnames hindent, ← hmoved,
      Plan.inserted, hanchor, htarget, insertionPoint_eq hland, hgap, Option.pure_def]
    cases List.mapM (fun line => decode (List.drop indent.length line)) _ <;> rfl
  have hafter : ∀ path read, (move span before after).rowsAfter project grammar plan path read =
      relocatedRows span landing (landingRow landing before) (landedRows project plan span landing) path read := by
    intro path read
    rw [rowsAfter, hanchor]
    rfl
  have hunique : (move span before after).Sound project grammar plan ↔
      (landingRow landing before < (fileLines target.data).length ∨ Ended target.data ∨
        landing.path = span.path ∧ landingRow landing before = span.lastLine) ∧
        ∀ line ∈ movedLines project plan span, Movable indent.length line := by
    rw [Sound, hcut]
    refine and_congr_left fun _ => ⟨fun hsound => hsound landing target hanchor htarget, fun hcases other read hother hread => ?_⟩
    obtain rfl := Option.some.inj (hanchor.symm.trans hother)
    obtain rfl := Option.some.inj (htarget.symm.trans hread)
    exact hcases
  -- what a move writes, whatever texts it reads
  have hstands : ∀ texts, ((movedLines project plan span).flatMap byteLines).mapM
      (fun line => decode (line.drop indent.length)) = some texts →
      ((∀ path read, plan.source project path = some read →
        rows (spliced [takenOut source span span.path, putIn target (landingRow landing before) landing.path
          ((textLines (texts.flatMap (· ++ ['\n']))).flatMap fun line => gap ++ target.encode line ++ target.newline)]
            path read) = relocatedRows span landing (landingRow landing before) (landedRows project plan span landing) path read ∧
        Unglued read.data [] 0 (Plan.fileOrder ([takenOut source span span.path,
          putIn target (landingRow landing before) landing.path ((textLines (texts.flatMap (· ++ ['\n']))).flatMap fun line =>
            gap ++ target.encode line ++ target.newline)].filter fun piece => piece.path = path))) ↔
      (landingRow landing before < (fileLines target.data).length ∨ Ended target.data ∨
        landing.path = span.path ∧ landingRow landing before = span.lastLine) ∧
        (textLines (texts.flatMap (· ++ ['\n']))).map (fun line => gap ++ utf8 line) =
          (movedLines project plan span).map fun line => gap ++ (bare line).drop indent.length) := by
    intro texts htexts
    obtain ⟨hended, hrows⟩ := @rows_indented target gap hblank (textLines (texts.flatMap (· ++ ['\n'])))
      fun line hline => splitLines_unbroken hline
    have hcount := (ListReading.mapM_eq_some_iff.mp htexts).length_eq
    have hone := @length_le_flatMap _ _ byteLines (movedLines project plan span) fun line hline =>
      List.length_pos_iff.mpr fun hnil => hlined.ne_nil hline (splitLines_eq_nil.mp hnil)
    have hmany := @length_le_flatMap _ _ (fun text => textLines (text ++ ['\n'])) texts fun text _ => textLines_ne_nil text
    have hpos := List.length_pos_iff.mpr hsome
    rw [← textLines_flatMap] at hmany
    have hne : ((textLines (texts.flatMap (· ++ ['\n']))).flatMap fun line =>
        gap ++ target.encode line ++ target.newline) ≠ [] := fun hnil => by
      rw [flatMap_newline.mp hnil] at hmany
      change _ ≤ 0 at hmany
      omega
    rw [relocated_iff hsource hnames htarget (landingRow_le hland before) hplace hended hne, hrows, hlanded]
  rw [hunique]
  constructor
  · rintro ⟨hkeeps, some, hread, hall⟩
    rw [hpieces, Option.map_eq_some_iff] at hread
    obtain ⟨texts, htexts, rfl⟩ := hread
    simp only [hafter] at hall
    obtain ⟨hcases, hsame⟩ := (hstands texts htexts).mp hall
    refine ⟨hcases, movable_of_count hlined (fun line hline => ?_) htexts ?_⟩
    · exact filter_drop_iff.mp (hcut ▸ hkeeps line hline)
    · have hlength := congrArg List.length hsame
      rwa [List.length_map, List.length_map] at hlength
  · rintro ⟨hcases, hmovable⟩
    obtain ⟨texts, htexts, hlines, hbytes⟩ := movable_read hlined hmovable
    refine ⟨fun line hline => ?_, _, by rw [hpieces, htexts]; rfl, ?_⟩
    · rw [hcut]
      exact filter_drop_iff.mpr fun byte hbyte => ((hmovable line hline).1 byte hbyte).1
    · simp only [hafter]
      refine (hstands texts htexts).mpr ⟨hcases, ?_⟩
      have hindented := congrArg (List.map (gap ++ ·)) hbytes
      rw [hlines]
      simpa only [List.map_map, Function.comp_def] using hindented

/-- Line edits change exactly the lines they name precisely where a line ends before what they put and every line they move
is movable. -/
theorem exact_iff_sound (edit : LineEdit) (h : edit.Valid project grammar plan) :
    edit.Exact project grammar plan ↔ edit.Sound project grammar plan := by
  cases edit with
  | insert text before after => exact insert_exact_iff h
  | delete span => exact iff_of_true (delete_exact h) trivial
  | move span before after => exact move_exact_iff h
  | append path text => exact append_exact_iff h
  | imports path statements => exact imports_exact_iff h

/-- A file of two lines. -/
def pairProject : Project := FileTree.Tree.ofFiles [(["m.py"], utf8 "a\nb\n".toList)]

/-- The first of two lines moved behind the second. -/
theorem exact_pair : (move ⟨["m.py"], 1, 0, none, none⟩ none (some ⟨["m.py"], 2, 0, none, none⟩)).Exact pairProject
    ⟨fun _ => none, fun _ => none⟩ {} := by
  have hsource : Plan.source pairProject {} ["m.py"] = some ⟨utf8 "a\nb\n".toList⟩ := by decide +kernel
  have hlines : fileLines (utf8 "a\nb\n".toList) = [[97, 10], [98, 10]] := by decide +kernel
  refine (exact_iff_sound _ ?_).mpr ⟨fun landing source hanchor hread => ?_, fun line hline => ?_⟩
  · refine ⟨⟨_, hsource, by decide, by decide, ?_⟩, _, _, rfl, hsource, ⟨by decide, by decide, ?_⟩, fun _ => .inr (by decide)⟩
    all_goals rw [hlines]; decide
  · obtain rfl := Option.some.inj hanchor
    obtain rfl := Option.some.inj (hsource.symm.trans hread)
    exact .inr (.inl (.inr (by decide +kernel)))
  · have hmoved : movedLines pairProject {} ⟨["m.py"], 1, 0, none, none⟩ = [[97, 10]] := by decide +kernel
    have hindent : (landingIndent pairProject {} ⟨["m.py"], 1, 0, none, none⟩).length = 0 := by decide +kernel
    rw [hmoved, List.mem_singleton] at hline
    rw [hline, hindent]
    exact ⟨fun _ hbyte => absurd hbyte List.not_mem_nil, ['a'], by decide +kernel,
      fun char hchar => List.mem_singleton.mp hchar ▸ by decide⟩

/-- A file whose only line has no line feed. -/
def openProject : Project := FileTree.Tree.ofFiles [(["m.py"], utf8 "a".toList)]

/-- What is inserted behind a last line without a line feed is glued to it. -/
theorem exact_fails : ¬ ∀ (project : Project) (grammar : Grammar) (plan : Plan) (edit : LineEdit),
    edit.Valid project grammar plan → edit.Exact project grammar plan := by
  intro hall
  have hsource : Plan.source openProject {} ["m.py"] = some ⟨utf8 "a".toList⟩ := by decide +kernel
  have hvalid : (insert "b".toList none (some ⟨["m.py"], 1, 0, none, none⟩)).Valid openProject
      ⟨fun _ => none, fun _ => none⟩ {} :=
    ⟨_, _, rfl, hsource, by decide, by decide, by decide +kernel⟩
  rcases (insert_exact_iff hvalid).mp (hall _ _ _ _ hvalid) _ _ rfl hsource with h | h | h | h
  · cases h
  · exact absurd h (by decide +kernel)
  · exact absurd h (by decide +kernel)
  · exact absurd h (by decide +kernel)

end Exactness

end LineEdit

end Mainboard.Analysis
