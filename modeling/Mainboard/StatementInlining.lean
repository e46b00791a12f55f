import Mainboard.QuotedText

/-! What a lake is sent. A lake attached as a server drops what a statement binds, so its statements go out with
each parameter written in the place of its mark; any other lake is sent the statement and what it binds. Whatever
characters a parameter holds, they are read within the string written for it, and the statement's own strings are
read as they were. -/

namespace Mainboard.Lake

open QuotedText (Piece State)

abbrev Text := List Char

/-- What `repr` writes of a number: letters, digits, signs and points. -/
structure Numeral where
  text : Text
  figured : text.all (fun char => char.isAlphanum || char == '+' || char == '-' || char == '.') = true

/-- What a statement binds. Bytes, a list or a mapping is given by its `str`. -/
inductive Cell where
  | null
  | bool (value : Bool)
  | number (value : Numeral)
  | date (iso : Text)
  | datetime (iso : Text)
  | text (value : Text)
  | other (str : Text)

/-- A text as an SQL string. -/
def quoted (text : Text) : Text := QuotedText.quoted '\'' text

/-- `_literal`. -/
def Cell.literal : Cell → Text
  | .null => "NULL".toList
  | .bool value => if value then "true".toList else "false".toList
  | .number value => value.text
  | .date iso => "DATE ".toList ++ quoted iso
  | .datetime iso => "TIMESTAMPTZ ".toList ++ quoted iso
  | .text value => quoted value
  | .other str => quoted str

/-- A statement whose marks are not as many as what it is given. -/
structure Mismatch where
  given : ℕ
  marks : ℕ
  sql : Text
  deriving DecidableEq, Repr

/-- The marks of the pieces a statement is split into at its quotes, of every second piece. -/
def marks : Bool → List Text → ℕ
  | _, [] => 0
  | true, piece :: rest => piece.count '?' + marks false rest
  | false, _ :: rest => marks true rest

/-- A piece with its marks replaced by the first of the parameters. -/
def fill (piece : Text) (values : List Cell) : Text := match piece.splitOn '?' with
  | [] => []
  | head :: rest => head ++ (List.zipWith (fun value tail => value.literal ++ tail) values rest).flatten

def filled : Bool → List Text → List Cell → List Text
  | _, [], _ => []
  | true, piece :: rest, values => fill piece values :: filled false rest (values.drop (piece.count '?'))
  | false, piece :: rest, values => piece :: filled true rest values

def inlined (sql : Text) (parameters : List Cell) : Except Mismatch Text :=
  let pieces := sql.splitOn '\''
  if marks true pieces = parameters.length then .ok (['\''].intercalate (filled true pieces parameters))
  else .error ⟨parameters.length, marks true pieces, sql⟩

/-- What one execution sends: a statement and what it binds. -/
structure Sent where
  sql : Text
  bound : List Cell

/-- `Attachment.execute`, up to the connection. -/
def execute (served : Bool) (sql : Text) (bound : List Cell) : Except Mismatch Sent :=
  if served && !bound.isEmpty then (inlined sql bound).map fun inlined => ⟨inlined, []⟩ else .ok ⟨sql, bound⟩

/-- The parts of a statement, its strings told apart by the quotes alone. -/
def parts (sql : Text) : List (Piece Char) := QuotedText.parts '\'' sql

def mark : Piece Char := .plain '?'

/-- What a parameter is to the statement it is written into. -/
def Cell.parts : Cell → List (Piece Char)
  | .null => "NULL".toList.map .plain
  | .bool value => (if value then "true".toList else "false".toList).map .plain
  | .number value => value.text.map .plain
  | .date iso => "DATE ".toList.map .plain ++ [.string iso]
  | .datetime iso => "TIMESTAMPTZ ".toList.map .plain ++ [.string iso]
  | .text value => [.string value]
  | .other str => [.string str]

/-! ### Writing character by character -/

/-- The marks outside strings, where each quote opens or closes one. -/
def counted : Bool → Text → ℕ
  | _, [] => 0
  | outside, char :: rest =>
      if char = '\'' then counted (!outside) rest
      else if outside = true ∧ char = '?' then counted outside rest + 1
      else counted outside rest

/-- A statement with those marks replaced by the parameters. -/
def written : Bool → Text → List Cell → Text
  | _, [], _ => []
  | outside, char :: rest, values =>
      if char = '\'' then char :: written (!outside) rest values
      else if outside = true ∧ char = '?' then values.head?.elim [] Cell.literal ++ written outside rest values.tail
      else char :: written outside rest values

section

variable {outside : Bool} {char : Char} {piece sql : Text} {values : List Cell} {pieces : List Text}

theorem marks_splitOn : marks outside (sql.splitOn '\'') = counted outside sql := by
  induction sql generalizing outside with
  | nil => cases outside <;> rfl
  | cons char sql ih =>
      rw [List.splitOn_cons_eq_if_modifyHead, counted]
      by_cases hquote : char = '\''
      · rw [if_pos (beq_iff_eq.mpr hquote), if_pos hquote]
        cases outside with
        | true => rw [marks, List.count_nil, Nat.zero_add, ih, Bool.not_true]
        | false => rw [marks, ih, Bool.not_false]
      · rw [if_neg (mt beq_iff_eq.mp hquote), if_neg hquote]
        obtain ⟨piece, pieces, hsplit⟩ := List.exists_cons_of_ne_nil (List.splitOn_ne_nil '\'' sql)
        have hrest : marks outside (piece :: pieces) = counted outside sql := hsplit ▸ ih
        rw [hsplit, List.modifyHead_cons, ← hrest]
        cases outside with
        | false => rw [if_neg (fun hboth => Bool.false_ne_true hboth.1), marks, marks]
        | true =>
            rw [marks, marks, List.count_cons]
            by_cases hmark : char = '?'
            · rw [if_pos (beq_iff_eq.mpr hmark), if_pos ⟨rfl, hmark⟩]
              omega
            · rw [if_neg (mt beq_iff_eq.mp hmark), if_neg (fun hboth => hmark hboth.2), Nat.add_zero]

theorem fill_nil : fill [] values = [] := by
  unfold fill
  rw [List.splitOn_nil]
  cases values <;> rfl

theorem fill_mark {value : Cell} : fill ('?' :: piece) (value :: values) = value.literal ++ fill piece values := by
  unfold fill
  rw [List.splitOn_cons_eq_if_modifyHead, if_pos (beq_iff_eq.mpr rfl)]
  obtain ⟨head, rest, hsplit⟩ := List.exists_cons_of_ne_nil (List.splitOn_ne_nil '?' piece)
  rw [hsplit]
  simp only [List.zipWith_cons_cons, List.flatten_cons, List.nil_append, List.append_assoc]

theorem fill_other (h : char ≠ '?') : fill (char :: piece) values = char :: fill piece values := by
  unfold fill
  rw [List.splitOn_cons_eq_if_modifyHead, if_neg (mt beq_iff_eq.mp h)]
  obtain ⟨head, rest, hsplit⟩ := List.exists_cons_of_ne_nil (List.splitOn_ne_nil '?' piece)
  rw [hsplit]
  rfl

theorem filled_ne_nil (h : pieces ≠ []) : filled outside pieces values ≠ [] := by
  cases pieces with
  | nil => exact absurd rfl h
  | cons piece pieces => cases outside <;> exact List.cons_ne_nil _ _

theorem intercalate_append {sep front : Text} : sep.intercalate ((front ++ piece) :: pieces) =
    front ++ sep.intercalate (piece :: pieces) := by
  cases pieces with
  | nil => rw [List.intercalate_singleton, List.intercalate_singleton]
  | cons next pieces =>
      rw [List.intercalate_cons_cons, List.intercalate_cons_cons]
      simp only [List.append_assoc]

/-- The pieces filled and joined again are the statement with its marks replaced. -/
theorem filled_splitOn (h : counted outside sql = values.length) :
    ['\''].intercalate (filled outside (sql.splitOn '\'') values) = written outside sql values := by
  induction sql generalizing outside values with
  | nil =>
      cases outside with
      | true => rw [List.splitOn_nil, filled, fill_nil, filled, written, List.intercalate_singleton]
      | false => rw [List.splitOn_nil, filled, filled, written, List.intercalate_singleton]
  | cons char sql ih =>
      rw [List.splitOn_cons_eq_if_modifyHead]
      by_cases hquote : char = '\''
      · rw [counted, if_pos hquote] at h
        rw [if_pos (beq_iff_eq.mpr hquote), written, if_pos hquote, ← ih h]
        have hpieces : ∀ outside, filled outside (sql.splitOn '\'') values ≠ [] := fun _ =>
          filled_ne_nil (List.splitOn_ne_nil '\'' sql)
        cases outside with
        | true =>
            rw [filled, fill_nil, List.count_nil, List.drop_zero, List.intercalate_cons_of_ne_nil (hpieces false),
              hquote]
            rfl
        | false =>
            rw [filled, List.intercalate_cons_of_ne_nil (hpieces true), hquote]
            rfl
      · rw [if_neg (mt beq_iff_eq.mp hquote), written, if_neg hquote]
        rw [counted, if_neg hquote] at h
        obtain ⟨piece, pieces, hsplit⟩ := List.exists_cons_of_ne_nil (List.splitOn_ne_nil '\'' sql)
        rw [hsplit, List.modifyHead_cons]
        rw [hsplit] at ih
        by_cases hmark : outside = true ∧ char = '?'
        · rw [if_pos hmark] at h ⊢
          obtain ⟨rfl, rfl⟩ := hmark
          cases values with
          | nil => exact absurd h (Nat.succ_ne_zero _)
          | cons value values =>
              rw [filled, fill_mark, intercalate_append, List.count_cons_self, List.drop_succ_cons]
              exact congrArg (value.literal ++ ·) (ih (Nat.succ.inj h))
        · rw [if_neg hmark] at h ⊢
          rw [← ih h]
          cases outside with
          | true =>
              have hother : char ≠ '?' := fun hsame => hmark ⟨rfl, hsame⟩
              rw [filled, fill_other hother, List.count_cons_of_ne hother, List.intercalate_cons_cons_left, filled]
          | false => rw [filled, List.intercalate_cons_cons_left, filled]

theorem inlined_eq : inlined sql values = if counted true sql = values.length then .ok (written true sql values)
    else .error ⟨values.length, counted true sql, sql⟩ := by
  rw [inlined, marks_splitOn]
  split
  next h => rw [filled_splitOn h]
  next h => rfl

end

/-! ### What a literal reads as -/

section

variable {text : Text}

/-- A text read from outside strings as some parts, the last of them whole. -/
def Reads (text : Text) (read : List (Piece Char)) : Prop :=
  (QuotedText.run '\'' .outside text).2.beyond = true ∧ parts text = read

theorem reads_plain (h : '\'' ∉ text) : Reads text (text.map .plain) := by
  refine ⟨?_, ?_⟩
  · rw [QuotedText.run_plain h]
    rfl
  · rw [parts, QuotedText.parts, QuotedText.read, QuotedText.run_plain h]
    exact List.append_nil _

theorem reads_typed {front : Text} (h : '\'' ∉ front) (text : Text) :
    Reads (front ++ quoted text) (front.map .plain ++ [.string text]) := by
  have hrun : QuotedText.run '\'' .outside (front ++ quoted text) = (front.map .plain ++ [], .ending text) := by
    rw [QuotedText.run_append, QuotedText.run_plain h, quoted, QuotedText.run_quoted]
  refine ⟨?_, ?_⟩
  · rw [hrun]
    rfl
  · rw [parts, QuotedText.parts, QuotedText.read, hrun, List.append_nil]
    rfl

theorem Numeral.not_mem (value : Numeral) {char : Char}
    (hother : (char.isAlphanum || char == '+' || char == '-' || char == '.') = false) : char ∉ value.text :=
  fun hmem => Bool.false_ne_true (hother.symm.trans (List.all_eq_true.mp value.figured char hmem))

/-- A parameter's literal is read as the parameter. -/
theorem reads_literal (cell : Cell) : Reads cell.literal cell.parts := by
  cases cell with
  | null => exact reads_plain (by decide)
  | bool value => cases value <;> exact reads_plain (by decide)
  | number value => exact reads_plain (value.not_mem (by decide))
  | date iso | datetime iso => exact reads_typed (by decide) iso
  | text value | other value => exact reads_typed List.not_mem_nil value

theorem mark_not_mem_plain (h : '?' ∉ text) : mark ∉ text.map Piece.plain := fun hmem => by
  obtain ⟨char, hchar, hsame⟩ := List.mem_map.mp hmem
  cases hsame
  exact h hchar

theorem mark_not_mem_string (text : Text) : mark ∉ [Piece.string text] := fun hmem => by
  cases List.mem_singleton.mp hmem

theorem mark_not_mem_literal (cell : Cell) : mark ∉ cell.parts := by
  cases cell with
  | null => exact mark_not_mem_plain (by decide)
  | bool value => cases value <;> exact mark_not_mem_plain (by decide)
  | number value => exact mark_not_mem_plain (value.not_mem (by decide))
  | date iso | datetime iso =>
      exact fun hmem => (List.mem_append.mp hmem).elim (mark_not_mem_plain (by decide)) (mark_not_mem_string iso)
  | text value | other value => exact mark_not_mem_string value

end

/-! ### Served and bound alike -/

section

variable {state : State Char} {char : Char} {rest sql : Text} {values : List Cell}

/-- No mark outside strings stands next to a quote or another mark. -/
def Loose (sql : Text) : Prop := QuotedText.Loose '\'' '?' .outside sql

instance (sql : Text) : Decidable (Loose sql) := QuotedText.decidableLoose _ _ _ _

variable (state rest values) in
/-- A character that is no mark to replace is kept, and the next one is met as the reading meets it. -/
theorem written_kept (hkept : ¬(state.beyond = true ∧ char = '?')) :
    written state.beyond (char :: rest) values =
        char :: written (QuotedText.step '\'' state char).2.beyond rest values ∧
      counted state.beyond (char :: rest) = counted (QuotedText.step '\'' state char).2.beyond rest := by
  rw [written, counted, QuotedText.beyond_step]
  by_cases hquote : char = '\''
  · rw [if_pos hquote, if_pos hquote, if_pos hquote]
    exact ⟨rfl, rfl⟩
  · rw [if_neg hquote, if_neg hquote, if_neg hquote, if_neg hkept, if_neg hkept]
    exact ⟨rfl, rfl⟩

theorem mark_not_mem_finish (state : State Char) : mark ∉ QuotedText.finish state := by
  cases state <;> simp [QuotedText.finish, mark]

theorem mark_not_mem_kept (hkept : ¬(state.beyond = true ∧ char = '?')) :
    mark ∉ (QuotedText.step '\'' state char).1 := by
  have hother : state.beyond = true → char ≠ '?' := fun hbeyond hsame => hkept ⟨hbeyond, hsame⟩
  cases state with
  | inside text =>
      rw [QuotedText.step]
      split <;> exact List.not_mem_nil
  | outside | ending text =>
      have hchar := hother rfl
      rw [QuotedText.step]
      split <;> simp [mark, Ne.symm hchar]

variable (values) in
/-- A replaced mark is followed by no quote. -/
theorem head_written (hquote : rest.head? ≠ some '\'') (hmark : rest.head? ≠ some '?') :
    (written true rest values).head? ≠ some '\'' := by
  cases rest with
  | nil => exact (Option.some_ne_none _).symm
  | cons char rest =>
      have hother : char ≠ '\'' := fun hsame => hquote (congrArg some hsame)
      rw [written, if_neg hother, if_neg fun hboth => hmark (congrArg some hboth.2)]
      exact hquote

/-- The written statement is read as the statement itself with its marks bound. -/
theorem read_written (hloose : QuotedText.Loose '\'' '?' state sql) (hcount : counted state.beyond sql = values.length) :
    QuotedText.read '\'' state (written state.beyond sql values) =
      QuotedText.bind '?' (QuotedText.read '\'' state sql) (values.map Cell.parts) := by
  induction sql generalizing state values with
  | nil =>
      rw [List.length_eq_zero_iff.mp hcount.symm, List.map_nil, QuotedText.bind_nil]
      rfl
  | cons char rest ih =>
      by_cases hkept : state.beyond = true ∧ char = '?'
      · obtain ⟨hbeyond, rfl⟩ := hkept
        have hnext := hloose.1 rfl
        cases state with
        | inside text => exact absurd hbeyond Bool.false_ne_true
        | ending text => exact hnext.elim
        | outside =>
            have houtside : (State.outside : State Char).beyond = true := rfl
            rw [houtside, counted, if_neg (by decide), if_pos ⟨rfl, rfl⟩] at hcount
            cases values with
            | nil => exact absurd hcount (Nat.succ_ne_zero _)
            | cons value values =>
                have hread := @ih .outside values hloose.2 (Nat.succ.inj hcount)
                have hwritten : written true ('?' :: rest) (value :: values) = value.literal ++ written true rest values := by
                  rw [written, if_neg (by decide), if_pos ⟨rfl, rfl⟩]
                  rfl
                have hstep : QuotedText.step '\'' .outside '?' = ([mark], .outside) := rfl
                obtain ⟨hwhole, hparts⟩ := reads_literal value
                -- the literal's last part ends where the rest starts, so the two are read one after the other
                rw [houtside, hwritten, QuotedText.read_append,
                  QuotedText.read_beyond hwhole (head_written values hnext.1 hnext.2), ← List.append_assoc,
                  QuotedText.read_cons, hstep, List.map_cons]
                exact (congrArg₂ (· ++ ·) hparts hread).trans (QuotedText.bind_mark _ _).symm
      · obtain ⟨hwritten, hcounted⟩ := written_kept state rest values hkept
        rw [hcounted] at hcount
        rw [hwritten, QuotedText.read_cons, QuotedText.read_cons, ih hloose.2 hcount,
          QuotedText.bind_append (mark_not_mem_kept hkept)]

/-- The marks a statement is read with are the ones its quotes leave outside. -/
theorem count_read (state : State Char) (sql : Text) :
    (QuotedText.read '\'' state sql).count mark = counted state.beyond sql := by
  induction sql generalizing state with
  | nil => exact List.count_eq_zero.mpr (mark_not_mem_finish state)
  | cons char rest ih =>
      rw [QuotedText.read_cons, List.count_append, ih]
      by_cases hkept : state.beyond = true ∧ char = '?'
      · obtain ⟨hbeyond, rfl⟩ := hkept
        rw [hbeyond, counted, if_neg (by decide), if_pos ⟨rfl, rfl⟩, Nat.add_comm]
        cases state with
        | inside text => exact absurd hbeyond Bool.false_ne_true
        | outside | ending text => rfl
      · rw [(written_kept state rest [] hkept).2, List.count_eq_zero.mpr (mark_not_mem_kept hkept), Nat.zero_add]

/-- A served lake is sent the statement with each parameter in the place of its mark, the strings of both as they were and
no mark left, and only a statement with other than as many marks as parameters is refused. -/
theorem execute_served {bound : List Cell} (hloose : Loose sql) :
    (∀ fault, execute true sql bound = .error fault ↔ bound ≠ [] ∧ (parts sql).count mark ≠ bound.length ∧
        fault = ⟨bound.length, (parts sql).count mark, sql⟩) ∧
      ∀ sent, execute true sql bound = .ok sent →
        parts sent.sql = QuotedText.bind '?' (parts sql) (bound.map Cell.parts) ∧
          (bound ≠ [] → sent.bound = [] ∧ mark ∉ parts sent.sql) := by
  have hcount : (parts sql).count mark = counted true sql := count_read .outside sql
  rw [hcount]
  cases bound with
  | nil =>
      have hplain : execute true sql [] = .ok ⟨sql, []⟩ := rfl
      rw [hplain]
      refine ⟨fun fault => ⟨fun h => (nomatch h), fun h => absurd rfl h.1⟩, ?_⟩
      rintro sent ⟨⟩
      exact ⟨QuotedText.bind_nil.symm, fun h => absurd rfl h⟩
  | cons value values =>
      have hserved : execute true sql (value :: values) =
          (inlined sql (value :: values)).map fun inlined => ⟨inlined, []⟩ := rfl
      rw [hserved, inlined_eq]
      split_ifs with hmarks
      · refine ⟨fun fault => ⟨fun h => (nomatch h), fun h => absurd hmarks h.2.1⟩, ?_⟩
        rintro sent ⟨⟩
        have hbound : parts (written true sql (value :: values)) =
            QuotedText.bind '?' (parts sql) ((value :: values).map Cell.parts) := read_written hloose hmarks
        refine ⟨hbound, fun _ => ⟨rfl, ?_⟩⟩
        dsimp only
        rw [hbound]
        refine QuotedText.mark_not_mem_bind ?_ (Nat.le_of_eq (by rw [← mark, hcount, hmarks, List.length_map]))
        intro text htext
        obtain ⟨cell, -, rfl⟩ := List.mem_map.mp htext
        exact mark_not_mem_literal cell
      · refine ⟨fun fault => ⟨fun h => ?_, fun h => h.2.2 ▸ rfl⟩, fun sent h => nomatch h⟩
        exact ⟨List.cons_ne_nil _ _, hmarks, (Except.error.inj h).symm⟩

/-- A text with quotes of its own stays one string behind the mark that is no string's. -/
theorem execute_served_quotes :
    (∀ sent, execute true "a='?' or b=?".toList [.text "' or '1'='1".toList] = .ok sent →
      parts sent.sql = "a=".toList.map .plain ++ ([.string ['?']] : List (QuotedText.Piece Char)) ++
        " or b=".toList.map .plain ++ ([.string "' or '1'='1".toList] : List (QuotedText.Piece Char)) ∧
      sent.bound = [] ∧ mark ∉ parts sent.sql) ∧
      (execute true "a='?' or b=?".toList [.text "' or '1'='1".toList]).map Sent.sql =
        .ok "a='?' or b=''' or ''1''=''1'".toList := by
  refine ⟨fun sent h => ?_, by decide +kernel⟩
  obtain ⟨hreads, hbound⟩ := (@execute_served "a='?' or b=?".toList [.text "' or '1'='1".toList] (by decide +kernel)).2 sent h
  exact ⟨hreads, hbound (List.cons_ne_nil _ _)⟩

end

end Mainboard.Lake
