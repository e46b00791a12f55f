import Mathlib.Data.List.DropRight
import Mathlib.Data.List.Induction
import Mainboard.TextBytes

/-! Text hygiene: a file's text with one newline style, no trailing blanks and exactly one final newline, what the
examination finds when the bytes are not that, and what a second one finds after the repair. What a text is beside its
blanks and newlines is the lines of its substance, which normalizing keeps. -/

namespace Mainboard.Hygiene

open Analysis (Bytes Text decode utf8 unixLines)

/-- The line ending a file's attributes name. -/
inductive Newline where
  | lf
  | crlf
  deriving DecidableEq, Repr

def Newline.text : Newline → Text
  | lf => ['\n']
  | crlf => ['\r', '\n']

/-- What `.gitattributes` says about one file's bytes. -/
structure Attributes where
  binary : Bool := false
  newline : Newline := .lf
  deriving DecidableEq, Repr

/-- What a file's bytes read as: text, data no text step may touch, or neither. -/
inductive Decoded where
  | text (text : Text)
  | binary
  | malformed
  deriving DecidableEq

/-- Bytes in pairs, the low one first. -/
def units : Bytes → Option (List ℕ)
  | [] => some []
  | [_] => none
  | low :: high :: rest => (units rest).map fun units => (low.toNat + 256 * high.toNat) :: units

/-- Bytes in pairs, the high one first. -/
def unitsBig : Bytes → Option (List ℕ)
  | [] => some []
  | [_] => none
  | high :: low :: rest => (unitsBig rest).map fun units => (low.toNat + 256 * high.toNat) :: units

/-- The characters of UTF-16 units, nothing where a surrogate stands alone. -/
def utf16 : List ℕ → Option Text
  | [] => some []
  | [unit] => if 0xD800 ≤ unit ∧ unit < 0xE000 then none else some [Char.ofNat unit]
  | unit :: next :: rest =>
      if 0xD800 ≤ unit ∧ unit < 0xDC00 then
        if 0xDC00 ≤ next ∧ next < 0xE000 then
          (utf16 rest).map fun text => Char.ofNat (0x10000 + (unit - 0xD800) * 0x400 + (next - 0xDC00)) :: text
        else none
      else if 0xDC00 ≤ unit ∧ unit < 0xE000 then none
      else (utf16 (next :: rest)).map fun text => Char.ofNat unit :: text

/-- The byte order mark. -/
def mark : Char := '\uFEFF'

/-- A text without the mark it starts with. -/
def unmarked (text : Text) : Text := if text.head? = some mark then text.tail else text

def readAs : Option Text → Decoded
  | some text => .text text
  | none => .malformed

/-- A file's bytes read as text: UTF-16 behind its byte order mark, UTF-8 with or without one. -/
def decoded (data : Bytes) : Decoded :=
  if [0xFF, 0xFE] <+: data then readAs ((units (data.drop 2)).bind utf16)
  else if [0xFE, 0xFF] <+: data then readAs ((unitsBig (data.drop 2)).bind utf16)
  else if 0 ∈ data.take 8000 then .binary
  else readAs ((decode data).map unmarked)

def isBlank (char : Char) : Bool := char == ' ' || char == '\t'

/-- A text with one newline for each line ending. -/
def unified (text : Text) : Text := (unixLines text).map fun char => if char = '\r' then '\n' else char

/-- `"\n".join(line.rstrip(" \t") for line in text.split("\n"))`. -/
def trimmed (text : Text) : Text := ['\n'].intercalate ((text.splitOn '\n').map fun line => line.rdropWhile isBlank)

/-- A text with each newline written as the file keeps it. -/
def respelled (newline : Newline) (text : Text) : Text :=
  text.flatMap fun char => if char = '\n' then newline.text else [char]

/-- A text with one newline style, no trailing blanks, and exactly one final newline. -/
def normalized (newline : Newline) (text : Text) : Text :=
  let body := (trimmed (unified text)).rdropWhile (· == '\n')
  if body = [] then [] else respelled newline (body ++ ['\n'])

/-- What normalizing changes in a text. -/
def untidiness (newline : Newline) (data : Bytes) (text : Text) : List String :=
  let unified := unified text
  let trimmed := trimmed unified
  (if utf8 text ≠ data then ["an encoding other than plain UTF-8"] else []) ++
    (if respelled newline unified ≠ text then ["line endings"] else []) ++
    (if trimmed ≠ unified then ["trailing whitespace"] else []) ++
    if normalized .lf trimmed ≠ trimmed then ["blank lines or a missing newline at the end"] else []

/-- What the hygiene makes of one file: the bytes it should hold, what the repair changes, and what only a person can
fix. -/
structure Examination where
  repaired : Option Bytes := none
  untidy : List String := []
  problems : List String := []
  deriving DecidableEq

/-- A file's bytes examined. What only a person can fix in a text is `problems`' to say. -/
def examined (problems : Text → List String) (attributes : Attributes) (data : Bytes) : Examination :=
  if attributes.binary then {}
  else match decoded data with
    | .malformed => { problems := ["is not UTF-8 text; save it as UTF-8"] }
    | .binary => {}
    | .text text =>
        let fixed := normalized attributes.newline text
        let untidy := untidiness attributes.newline data text
        { repaired := if untidy ≠ [] then some (utf8 fixed) else none, untidy, problems := problems fixed }

/-- The lines a text has beside trailing blanks and the blank lines at its end. -/
def substance (text : Text) : List Text :=
  (((unified text).splitOn '\n').map fun line => line.rdropWhile isBlank).rdropWhile (· == [])

/-- Lines that are a text's substance: without line endings and trailing blanks, the last not empty. -/
structure Tidy (lines : List Text) : Prop where
  unbroken : ∀ line ∈ lines, '\n' ∉ line ∧ '\r' ∉ line
  trimmed : ∀ line ∈ lines, line.rdropWhile isBlank = line
  last : lines.rdropWhile (· == []) = lines

section Normal

variable {text : Text} {lines : List Text} {newline : Newline}

theorem return_not_mem_unified (text : Text) : '\r' ∉ unified text := by
  rw [unified, List.mem_map]
  rintro ⟨char, -, hchar⟩
  by_cases hreturn : char = '\r'
  · rw [if_pos hreturn] at hchar
    exact absurd hchar (by decide)
  · rw [if_neg hreturn] at hchar
    exact hreturn hchar

theorem unified_of_plain (h : '\r' ∉ text) : unified text = text := by
  have hunix : unixLines text = text := by
    induction text with
    | nil => rfl
    | cons char text ih =>
        rw [List.mem_cons, not_or] at h
        rw [unixLines, if_neg (fun hpair => h.1 hpair.1.symm), ih h.2]
  rw [unified, hunix]
  conv_rhs => rw [← List.map_id text]
  refine List.map_congr_left fun char hchar => ?_
  rw [if_neg]
  · rfl
  · rintro rfl
    exact h hchar

theorem mem_splitOn {line : Text} (hline : line ∈ text.splitOn '\n') : '\n' ∉ line ∧ ∀ char ∈ line, char ∈ text := by
  induction text generalizing line with
  | nil =>
      rw [List.splitOn_nil, List.mem_singleton] at hline
      subst hline
      exact ⟨List.not_mem_nil, fun char hchar => hchar⟩
  | cons first text ih =>
      rw [List.splitOn_cons_eq_if_modifyHead] at hline
      split at hline
      · rcases List.mem_cons.mp hline with rfl | hlate
        · exact ⟨List.not_mem_nil, fun char hchar => (List.not_mem_nil hchar).elim⟩
        · exact (ih hlate).imp_right fun hmem char hchar => List.mem_cons_of_mem _ (hmem char hchar)
      · rename_i hfirst
        obtain ⟨head, rest, hsplit⟩ := List.exists_cons_of_ne_nil (List.splitOn_ne_nil '\n' text)
        rw [hsplit, List.modifyHead_cons] at hline
        rw [hsplit] at ih
        rcases List.mem_cons.mp hline with rfl | hlate
        · obtain ⟨hout, hmem⟩ := ih List.mem_cons_self
          refine ⟨fun hin => ?_, fun char hchar => ?_⟩
          · rcases List.mem_cons.mp hin with hsame | hlater
            · exact hfirst (beq_iff_eq.mpr hsame.symm)
            · exact hout hlater
          · rcases List.mem_cons.mp hchar with rfl | hlater
            · exact List.mem_cons_self
            · exact List.mem_cons_of_mem _ (hmem char hlater)
        · exact (ih (List.mem_cons_of_mem _ hlate)).imp_right fun hmem char hchar =>
            List.mem_cons_of_mem _ (hmem char hchar)

/-- The lines of a text, each without its trailing blanks. -/
def trimmedLines (text : Text) : List Text := ((unified text).splitOn '\n').map fun line => line.rdropWhile isBlank

theorem trimmedLines_unbroken (text : Text) : ∀ line ∈ trimmedLines text, '\n' ∉ line ∧ '\r' ∉ line := by
  intro line hline
  obtain ⟨before, hbefore, rfl⟩ := List.mem_map.mp hline
  obtain ⟨hout, hmem⟩ := mem_splitOn hbefore
  have hkept : ∀ char ∈ before.rdropWhile isBlank, char ∈ before := fun char hchar =>
    (List.rdropWhile_prefix isBlank before).subset hchar
  exact ⟨fun hin => hout (hkept _ hin), fun hin => return_not_mem_unified text (hmem _ (hkept _ hin))⟩

theorem trimmedLines_trimmed (text : Text) : ∀ line ∈ trimmedLines text, line.rdropWhile isBlank = line := by
  intro line hline
  obtain ⟨before, -, rfl⟩ := List.mem_map.mp hline
  exact List.rdropWhile_idempotent _ _

theorem tidy_substance (text : Text) : Tidy (substance text) where
  unbroken line hline := trimmedLines_unbroken text line ((List.rdropWhile_prefix _ _).subset hline)
  trimmed line hline := trimmedLines_trimmed text line ((List.rdropWhile_prefix _ _).subset hline)
  last := List.rdropWhile_idempotent _ _

theorem join_concat (line : Text) (hlines : lines ≠ []) :
    ['\n'].intercalate (lines ++ [line]) = ['\n'].intercalate lines ++ '\n' :: line := by
  induction lines with
  | nil => exact absurd rfl hlines
  | cons first lines ih =>
      cases lines with
      | nil => simp [List.intercalate_cons_cons]
      | cons next lines =>
          rw [List.cons_append, List.cons_append, List.intercalate_cons_cons, ← List.cons_append,
            ih (List.cons_ne_nil _ _), List.intercalate_cons_cons]
          simp only [List.append_assoc]

/-- Blank lines at the end of joined lines are newlines at the end of the text. -/
theorem rdropWhile_join (hlines : ∀ line ∈ lines, '\n' ∉ line) :
    (['\n'].intercalate lines).rdropWhile (· == '\n') = ['\n'].intercalate (lines.rdropWhile (· == [])) := by
  induction lines using List.reverseRecOn with
  | nil => rfl
  | append_singleton lines line ih =>
      have hline := hlines line (List.mem_append_right _ (List.mem_singleton_self _))
      have ih := ih fun other hother => hlines other (List.mem_append_left _ hother)
      cases line using List.reverseRecOn with
      | nil =>
          rw [List.rdropWhile_concat_pos _ _ _ rfl, ← ih]
          by_cases hnone : lines = []
          · subst hnone
            rfl
          · rw [join_concat _ hnone, List.rdropWhile_concat_pos _ _ _ rfl]
      | append_singleton line char =>
          have hchar : ¬ (char == '\n') = true := fun hsame => hline
            (List.mem_append_right _ (beq_iff_eq.mp hsame ▸ List.mem_singleton_self _))
          have hsolid : ¬ (line ++ [char] == []) = true := by simp
          rw [List.rdropWhile_concat_neg (· == []) lines (line ++ [char]) hsolid]
          by_cases hnone : lines = []
          · subst hnone
            have hone : ['\n'].intercalate ([] ++ [line ++ [char]]) = line ++ [char] := by simp
            rw [hone]
            exact List.rdropWhile_concat_neg (· == '\n') line char hchar
          · rw [join_concat _ hnone, ← List.cons_append, ← List.append_assoc]
            exact List.rdropWhile_concat_neg (· == '\n') _ char hchar

theorem join_ended (hlines : lines ≠ []) : ['\n'].intercalate lines ++ ['\n'] = lines.flatMap (· ++ ['\n']) := by
  induction lines using List.reverseRecOn with
  | nil => exact absurd rfl hlines
  | append_singleton lines line ih =>
      rw [List.flatMap_append, List.flatMap_singleton]
      by_cases hnone : lines = []
      · subst hnone
        simp
      · rw [join_concat _ hnone, ← ih hnone, List.append_assoc, List.append_assoc]
        rfl

theorem respelled_line {line : Text} (hline : '\n' ∉ line) (newline : Newline) : respelled newline line = line := by
  induction line with
  | nil => rfl
  | cons char line ih =>
      rw [List.mem_cons, not_or] at hline
      have hrest := ih hline.2
      rw [respelled] at hrest ⊢
      rw [List.flatMap_cons, if_neg (Ne.symm hline.1), hrest]
      rfl

theorem respelled_lines (hlines : ∀ line ∈ lines, '\n' ∉ line) (newline : Newline) :
    respelled newline (lines.flatMap (· ++ ['\n'])) = lines.flatMap (· ++ newline.text) := by
  induction lines with
  | nil => rfl
  | cons line lines ih =>
      rw [List.forall_mem_cons] at hlines
      have hline := respelled_line hlines.1 newline
      have hrest := ih hlines.2
      rw [respelled] at hrest hline ⊢
      rw [List.flatMap_cons, List.flatMap_append, List.flatMap_append, hline, hrest, List.flatMap_cons]
      simp

/-- A normalized text is the lines of its substance, each ended as the file keeps it. -/
theorem normalized_eq (newline : Newline) (text : Text) :
    normalized newline text = (substance text).flatMap (· ++ newline.text) := by
  have hbody : (trimmed (unified text)).rdropWhile (· == '\n') = ['\n'].intercalate (substance text) :=
    rdropWhile_join fun line hline => (trimmedLines_unbroken text line hline).1
  have hlines : ∀ line ∈ substance text, '\n' ∉ line := fun line hline => ((tidy_substance text).unbroken line hline).1
  simp only [normalized, hbody]
  by_cases hnone : substance text = []
  · rw [hnone]
    rfl
  · have hsome : ['\n'].intercalate (substance text) ≠ [] := by
      intro hempty
      have hsplit := List.splitOn_intercalate '\n' hlines hnone
      rw [hempty, List.splitOn_nil] at hsplit
      have hlast := (tidy_substance text).last
      rw [← hsplit] at hlast
      exact absurd hlast (by decide)
    rw [if_neg hsome, join_ended hnone, respelled_lines hlines]

theorem unified_line {line rest : Text} (hline : '\r' ∉ line) (newline : Newline) :
    unified (line ++ newline.text ++ rest) = line ++ '\n' :: unified rest := by
  induction line with
  | nil => cases newline <;> rfl
  | cons char line ih =>
      rw [List.mem_cons, not_or] at hline
      have hstep : unified (char :: (line ++ newline.text ++ rest)) = char :: unified (line ++ newline.text ++ rest) := by
        rw [unified, unixLines, if_neg (fun hpair => hline.1 hpair.1.symm), List.map_cons,
          if_neg (fun hsame => hline.1 hsame.symm)]
        rfl
      rw [List.cons_append, List.cons_append, hstep, ih hline.2]
      rfl

theorem unified_lines (hlines : ∀ line ∈ lines, '\r' ∉ line) (newline : Newline) :
    unified (lines.flatMap (· ++ newline.text)) = lines.flatMap (· ++ ['\n']) := by
  induction lines with
  | nil => rfl
  | cons line lines ih =>
      rw [List.forall_mem_cons] at hlines
      rw [List.flatMap_cons, unified_line hlines.1, ih hlines.2, List.flatMap_cons, List.append_assoc]
      rfl

theorem splitOn_lines (hlines : ∀ line ∈ lines, '\n' ∉ line) :
    (lines.flatMap (· ++ ['\n'])).splitOn '\n' = lines ++ [[]] := by
  induction lines with
  | nil => rfl
  | cons line lines ih =>
      rw [List.forall_mem_cons] at hlines
      rw [List.flatMap_cons, List.append_assoc, List.singleton_append,
        List.splitOn_append_cons_self_of_not_mem hlines.1, ih hlines.2]
      rfl

/-- Tidy lines written out have themselves for substance. -/
theorem substance_lines (h : Tidy lines) (newline : Newline) :
    trimmedLines (lines.flatMap (· ++ newline.text)) = lines ++ [[]] ∧
      substance (lines.flatMap (· ++ newline.text)) = lines := by
  have htrimmed : trimmedLines (lines.flatMap (· ++ newline.text)) = lines ++ [[]] := by
    rw [trimmedLines, unified_lines fun line hline => (h.unbroken line hline).2,
      splitOn_lines fun line hline => (h.unbroken line hline).1, List.map_append]
    congr 1
    conv_rhs => rw [← List.map_id lines]
    exact List.map_congr_left fun line hline => h.trimmed line hline
  refine ⟨htrimmed, ?_⟩
  have hsubstance : substance (lines.flatMap (· ++ newline.text)) = (lines ++ [[]]).rdropWhile (· == []) :=
    congrArg (List.rdropWhile (· == [])) htrimmed
  rw [hsubstance, List.rdropWhile_concat_pos _ _ _ rfl, h.last]

/-- Normalizing keeps a text's substance. -/
theorem substance_normalized (newline : Newline) (text : Text) : substance (normalized newline text) = substance text := by
  rw [normalized_eq]
  exact (substance_lines (tidy_substance text) newline).2

/-- Normalizing a text twice is normalizing it once. -/
theorem normalized_normalized (newline : Newline) (text : Text) :
    normalized newline (normalized newline text) = normalized newline text := by
  rw [normalized_eq newline (normalized newline text), substance_normalized, ← normalized_eq]

/-- A file whose text is its own normal form needs no trimming. -/
theorem trimmed_of_normal (h : normalized newline text = text) :
    respelled newline (unified text) = text ∧ trimmed (unified text) = unified text ∧
      normalized .lf (trimmed (unified text)) = trimmed (unified text) := by
  have htidy := tidy_substance text
  have hbreaks : ∀ line ∈ substance text, '\n' ∉ line := fun line hline => (htidy.unbroken line hline).1
  have htext : text = (substance text).flatMap (· ++ newline.text) := h.symm.trans (normalized_eq newline text)
  have hunified : unified text = (substance text).flatMap (· ++ ['\n']) := by
    conv_lhs => rw [htext]
    exact unified_lines (fun line hline => (htidy.unbroken line hline).2) newline
  have htrimmed : trimmed (unified text) = unified text := by
    have hlines := (substance_lines htidy newline).1
    rw [← htext] at hlines
    change ['\n'].intercalate (trimmedLines text) = unified text
    rw [hlines, hunified, ← splitOn_lines hbreaks]
    exact List.intercalate_splitOn '\n'
  refine ⟨?_, htrimmed, ?_⟩
  · rw [hunified, respelled_lines hbreaks, ← htext]
  · rw [htrimmed, normalized_eq, hunified]
    exact congrArg (List.flatMap (· ++ ['\n'])) (substance_lines htidy .lf).2

/-- A text that needs no trimming is its own normal form. -/
theorem normal_of_trimmed (hendings : respelled newline (unified text) = text)
    (htrimmed : trimmed (unified text) = unified text)
    (hfinal : normalized .lf (trimmed (unified text)) = trimmed (unified text)) : normalized newline text = text := by
  rw [htrimmed, normalized_eq] at hfinal
  have hbreaks := fun line hline => ((tidy_substance (unified text)).unbroken line hline).1
  have htwice : unified (unified text) = unified text := unified_of_plain (return_not_mem_unified text)
  have hsame : substance (unified text) = substance text := by
    rw [substance, htwice]
    rfl
  rw [normalized_eq, ← hsame, ← respelled_lines hbreaks]
  exact (congrArg (respelled newline) hfinal).trans hendings

theorem rdropWhile_cons {α : Type} {p : α → Bool} {first : α} (hfirst : ¬ p first = true) (rest : List α) :
    (first :: rest).rdropWhile p = first :: rest.rdropWhile p := by
  induction rest using List.reverseRecOn with
  | nil => exact List.rdropWhile_concat_neg p [] first hfirst
  | append_singleton rest last ih =>
      by_cases hlast : p last = true
      · rw [← List.cons_append, List.rdropWhile_concat_pos _ _ _ hlast, List.rdropWhile_concat_pos _ _ _ hlast, ih]
      · rw [← List.cons_append, List.rdropWhile_concat_neg p _ last hlast, List.rdropWhile_concat_neg p _ last hlast,
          List.cons_append]

/-- A byte order mark is part of the first line of what a text is. -/
theorem substance_mark (text : Text) :
    ∃ first rest, substance (mark :: text) = (mark :: first) :: rest ∧ ∀ line ∈ (substance text).head?, line = first := by
  obtain ⟨head, rest, hsplit⟩ := List.exists_cons_of_ne_nil (List.splitOn_ne_nil '\n' (unified text))
  have hunified : unified (mark :: text) = mark :: unified text := by
    rw [unified, unixLines, if_neg (fun hpair => absurd hpair.1 (by decide))]
    rfl
  have hlines : ((mark :: unified text).splitOn '\n') = (mark :: head) :: rest := by
    rw [List.splitOn_cons_eq_if_modifyHead, if_neg (by decide), hsplit, List.modifyHead_cons]
  refine ⟨head.rdropWhile isBlank, (rest.map fun line => line.rdropWhile isBlank).rdropWhile (· == []), ?_, ?_⟩
  · have hmark : (mark :: head).rdropWhile isBlank = mark :: head.rdropWhile isBlank := rdropWhile_cons (by decide) head
    rw [substance, hunified, hlines, List.map_cons, hmark, rdropWhile_cons (by simp)]
  · intro line hline
    rw [substance, hsplit, List.map_cons] at hline
    have hprefix := List.rdropWhile_prefix (· == [])
      (head.rdropWhile isBlank :: rest.map fun line => line.rdropWhile isBlank)
    obtain ⟨later, hlater⟩ := List.head?_eq_some_iff.mp hline
    rw [hlater] at hprefix
    exact (List.cons_prefix_cons.mp hprefix).1

theorem normalized_marked (newline : Newline) (text : Text) : (normalized newline (mark :: text)).head? = some mark := by
  obtain ⟨first, rest, hlines, -⟩ := substance_mark text
  rw [normalized_eq, hlines]
  rfl

/-- No text's normal form is the text behind a byte order mark. -/
theorem normalized_ne_mark (newline : Newline) (text : Text) : normalized newline text ≠ mark :: text := by
  intro h
  obtain ⟨first, rest, hlines, hhead⟩ := substance_mark text
  rw [← h, substance_normalized] at hlines
  rw [hlines] at hhead
  exact List.cons_ne_self _ _ (hhead _ rfl)

theorem mark_of_unified (h : (unified text).head? = some mark) : text.head? = some mark := by
  cases text with
  | nil => exact h
  | cons char text =>
      rw [unified, unixLines] at h
      split at h
      · rename_i hpair
        obtain ⟨rest, rfl⟩ := List.head?_eq_some_iff.mp hpair.2
        rw [unixLines, if_neg (fun hagain => absurd hagain.1 (by decide))] at h
        exact absurd (Option.some.inj h) (by decide)
      · rw [List.map_cons, List.head?_cons] at h
        split at h
        · exact absurd h (by decide)
        · exact h

/-- A normal form starts with a byte order mark exactly where the text does. -/
theorem normalized_head (newline : Newline) (text : Text) :
    (normalized newline text).head? = some mark ↔ text.head? = some mark := by
  constructor
  · intro h
    apply mark_of_unified
    rw [normalized_eq] at h
    obtain ⟨head, rest, hsplit⟩ := List.exists_cons_of_ne_nil (List.splitOn_ne_nil '\n' (unified text))
    have hprefix : substance text <+: head.rdropWhile isBlank :: rest.map fun line => line.rdropWhile isBlank := by
      rw [substance, hsplit, List.map_cons]
      exact List.rdropWhile_prefix _ _
    cases hlines : substance text with
    | nil =>
        rw [hlines] at h
        cases h
    | cons first later =>
        rw [hlines] at h hprefix
        have hfirst := (List.cons_prefix_cons.mp hprefix).1
        cases first with
        | nil => cases newline <;> exact absurd (Option.some.inj h) (by decide)
        | cons char first =>
            have hchar : char = mark := Option.some.inj h
            obtain ⟨after, hafter⟩ := List.rdropWhile_prefix isBlank head
            rw [← @List.intercalate_splitOn _ (unified text) _ _ '\n', hsplit, ← hafter, ← hfirst, hchar]
            cases rest with
            | nil => simp
            | cons => rw [List.intercalate_cons_cons]; rfl
  · intro h
    obtain ⟨rest, rfl⟩ := List.head?_eq_some_iff.mp h
    exact normalized_marked newline rest

end Normal

section Examined

variable {newline : Newline} {text : Text} {data : Bytes}

theorem ite_singleton_eq_nil {found : String} {p : Prop} [Decidable p] : (if p then [found] else []) = [] ↔ ¬ p := by
  split <;> simp_all

/-- Nothing is untidy in a text written as it is encoded exactly when it is its own normal form. -/
theorem untidiness_eq_nil_iff : untidiness newline data text = [] ↔ utf8 text = data ∧ normalized newline text = text := by
  simp only [untidiness, List.append_eq_nil_iff, ite_singleton_eq_nil, ne_eq, not_not, and_assoc]
  refine and_congr_right fun _ => ⟨?_, trimmed_of_normal⟩
  rintro ⟨hendings, htrimmed, hfinal⟩
  exact normal_of_trimmed hendings htrimmed hfinal

theorem byte_lt_of_mem {char : Char} {byte : UInt8} (h : byte ∈ String.utf8EncodeChar char) : byte.toNat < 0xF8 := by
  have hbyte : ∀ code : ℕ, byte = UInt8.ofNat code → code < 0xF8 → byte.toNat < 0xF8 := by
    rintro code rfl hcode
    rwa [UInt8.toNat_ofNat', Nat.mod_eq_of_lt (by omega)]
  unfold String.utf8EncodeChar at h
  dsimp only at h
  generalize char.val.toNat = code at h
  split at h
  · exact hbyte _ (List.mem_singleton.mp h) (by omega)
  · split at h
    · simp only [List.mem_cons, List.not_mem_nil, or_false] at h
      rcases h with h | h <;> exact hbyte _ h (by omega)
    · split at h <;> simp only [List.mem_cons, List.not_mem_nil, or_false] at h
      · rcases h with h | h | h <;> exact hbyte _ h (by omega)
      · rcases h with h | h | h | h <;> exact hbyte _ h (by omega)

/-- No UTF-8 starts with a byte of UTF-16's mark. -/
theorem not_prefix_utf8 {first : UInt8} (hfirst : 0xF8 ≤ first.toNat) (rest : Bytes) (text : Text) :
    ¬ first :: rest <+: utf8 text := by
  intro h
  obtain ⟨char, -, hbyte⟩ := List.mem_flatMap.mp (h.subset List.mem_cons_self)
  have := byte_lt_of_mem hbyte
  omega

/-- A text's own encoding reads as binary where a NUL is near its start, and else as the text without its mark. -/
theorem decoded_utf8 (text : Text) :
    decoded (utf8 text) = if 0 ∈ (utf8 text).take 8000 then .binary else .text (unmarked text) := by
  rw [decoded, if_neg (not_prefix_utf8 (by decide) _ text), if_neg (not_prefix_utf8 (by decide) _ text),
    Analysis.decode_utf8]
  rfl

theorem unmarked_eq_self (h : text.head? ≠ some mark) : unmarked text = text := if_neg h

/-- A file reads as its own normal form exactly where its bytes are that text's. -/
theorem normal_iff (h : decoded data = .text text) :
    utf8 text = data ∧ normalized newline text = text ↔ data = utf8 (normalized newline text) := by
  constructor
  · rintro ⟨hdata, hnormal⟩
    rw [hnormal, hdata]
  · intro hdata
    have hread := decoded_utf8 (normalized newline text)
    rw [← hdata, h] at hread
    split at hread
    · cases hread
    · have htext : text = unmarked (normalized newline text) := Decoded.text.inj hread
      have hplain : (normalized newline text).head? ≠ some mark := by
        intro hmark
        obtain ⟨rest, hrest⟩ := List.head?_eq_some_iff.mp hmark
        rw [unmarked, if_pos hmark, hrest] at htext
        exact normalized_ne_mark newline text (hrest.trans (congrArg (mark :: ·) htext.symm))
      rw [unmarked_eq_self hplain] at htext
      exact ⟨by rw [hdata, ← htext], htext.symm⟩

variable {problems : Text → List String} {attributes : Attributes} {bytes : Bytes}

theorem examined_text (hplain : attributes.binary = false) (h : decoded data = .text text) :
    examined problems attributes data =
      { repaired := if untidiness attributes.newline data text ≠ [] then
          some (utf8 (normalized attributes.newline text)) else none
        untidy := untidiness attributes.newline data text
        problems := problems (normalized attributes.newline text) } := by
  rw [examined, hplain, h]
  rfl

/-- Only a file that reads as text is repaired, with its normal form. -/
theorem repaired_eq_some (h : (examined problems attributes data).repaired = some bytes) :
    attributes.binary = false ∧ ∃ text, decoded data = .text text ∧ bytes = utf8 (normalized attributes.newline text) := by
  cases hbinary : attributes.binary with
  | true =>
      rw [examined, hbinary] at h
      cases h
  | false =>
      cases hread : decoded data with
      | text text =>
          rw [examined_text hbinary hread] at h
          dsimp only at h
          split at h
          · exact ⟨rfl, text, rfl, (Option.some.inj h).symm⟩
          · cases h
      | binary =>
          rw [examined, hbinary, hread] at h
          cases h
      | malformed =>
          rw [examined, hbinary, hread] at h
          cases h

/-- Nothing is untidy in a file exactly where it is not repaired. -/
theorem untidy_eq_nil_iff : (examined problems attributes data).untidy = [] ↔
    (examined problems attributes data).repaired = none := by
  cases hbinary : attributes.binary with
  | true => rw [examined, hbinary]; exact iff_of_true rfl rfl
  | false =>
      cases hread : decoded data with
      | text text =>
          rw [examined_text hbinary hread]
          dsimp only
          split
          · rename_i hfound
            exact ⟨fun hnone => absurd hnone hfound, fun hnone => by cases hnone⟩
          · rename_i hfound
            exact iff_of_true (not_not.mp hfound) rfl
      | binary => rw [examined, hbinary, hread]; exact iff_of_true rfl rfl
      | malformed => rw [examined, hbinary, hread]; exact iff_of_true rfl rfl

end Examined

/-- What the hygiene promises of one file: it finds nothing exactly in a file that is its own normal form, nothing in
one it repaired, and what it repairs keeps the lines the text has beside its trailing blanks. -/
structure Hygienic (problems : Text → List String) (attributes : Attributes) (data : Bytes) : Prop where
  found : ∀ text, attributes.binary = false → decoded data = .text text →
    ((examined problems attributes data).repaired = none ↔ data = utf8 (normalized attributes.newline text))
  told : (examined problems attributes data).untidy = [] ↔ (examined problems attributes data).repaired = none
  settled : ∀ bytes, (examined problems attributes data).repaired = some bytes →
    (examined problems attributes bytes).repaired = none
  kept : ∀ bytes, (examined problems attributes data).repaired = some bytes →
    ∃ before after, decoded data = .text before ∧ bytes = utf8 after ∧ substance after = substance before

/-- A file whose text starts with a second byte order mark behind the first, none of it data to the next reader. -/
def Marked (attributes : Attributes) (data : Bytes) : Prop :=
  attributes.binary = false ∧ ∃ text, decoded data = .text text ∧ text.head? = some mark ∧
    0 ∉ (utf8 ((substance text).flatMap (· ++ attributes.newline.text))).take 8000

section Promise

variable {problems : Text → List String} {attributes : Attributes} {data : Bytes} {text : Text}

theorem found_text (hplain : attributes.binary = false) (h : decoded data = .text text) :
    (examined problems attributes data).repaired = none ↔ data = utf8 (normalized attributes.newline text) := by
  rw [← untidy_eq_nil_iff, examined_text hplain h, ← normal_iff h]
  exact untidiness_eq_nil_iff

theorem marked_repaired (hplain : attributes.binary = false) (h : decoded data = .text text)
    (hmark : text.head? = some mark) :
    (examined problems attributes data).repaired = some (utf8 (normalized attributes.newline text)) := by
  rw [examined_text hplain h]
  dsimp only
  refine if_pos fun hnone => ?_
  obtain ⟨hdata, -⟩ := untidiness_eq_nil_iff.mp hnone
  have hread := decoded_utf8 text
  rw [hdata, h] at hread
  split at hread
  · cases hread
  · have htext : text = unmarked text := Decoded.text.inj hread
    obtain ⟨rest, rfl⟩ := List.head?_eq_some_iff.mp hmark
    rw [unmarked, if_pos hmark] at htext
    exact List.cons_ne_self _ _ htext

/-- A repaired file is found to be one again exactly where what it reads as starts with a mark. -/
theorem settled_iff (hplain : attributes.binary = false) :
    (examined problems attributes (utf8 (normalized attributes.newline text))).repaired = none ↔
      ¬ (text.head? = some mark ∧ 0 ∉ (utf8 (normalized attributes.newline text)).take 8000) := by
  have hread := decoded_utf8 (normalized attributes.newline text)
  by_cases hdata : 0 ∈ (utf8 (normalized attributes.newline text)).take 8000
  · rw [if_pos hdata] at hread
    refine iff_of_true ?_ fun hboth => hboth.2 hdata
    rw [examined, hplain, hread]
    rfl
  · rw [if_neg hdata] at hread
    rw [found_text hplain hread]
    by_cases hmark : text.head? = some mark
    · refine iff_of_false (fun hsame => ?_) (fun hneither => hneither ⟨hmark, hdata⟩)
      obtain ⟨rest, hrest⟩ := List.head?_eq_some_iff.mp ((normalized_head attributes.newline text).mpr hmark)
      have hrest' : unmarked (mark :: rest) = rest := if_pos rfl
      rw [hrest, hrest'] at hsame
      have htexts := Analysis.decode_eq_some_iff.mpr hsame
      rw [Analysis.decode_utf8] at htexts
      exact normalized_ne_mark attributes.newline rest (Option.some.inj htexts).symm
    · refine iff_of_true ?_ fun hboth => hmark hboth.1
      rw [unmarked_eq_self fun h => hmark ((normalized_head attributes.newline text).mp h), normalized_normalized]

end Promise

/-- The hygiene keeps what it promises of exactly the files without a second byte order mark. -/
theorem hygienic_iff (problems : Text → List String) (attributes : Attributes) (data : Bytes) :
    Hygienic problems attributes data ↔ ¬ Marked attributes data := by
  constructor
  · rintro h ⟨hplain, text, hread, hmark, hdata⟩
    rw [← normalized_eq] at hdata
    have hrepaired : (examined problems attributes data).repaired = _ := marked_repaired hplain hread hmark
    exact (settled_iff hplain).mp (h.settled _ hrepaired) ⟨hmark, hdata⟩
  · intro h
    refine ⟨fun text hplain hread => found_text hplain hread, untidy_eq_nil_iff, ?_, ?_⟩
    · intro bytes hrepaired
      obtain ⟨hplain, text, hread, rfl⟩ := repaired_eq_some hrepaired
      refine (settled_iff hplain).mpr fun hboth => h ⟨hplain, text, hread, hboth.1, ?_⟩
      rw [← normalized_eq]
      exact hboth.2
    · intro bytes hrepaired
      obtain ⟨-, text, hread, rfl⟩ := repaired_eq_some hrepaired
      exact ⟨text, _, hread, rfl, substance_normalized attributes.newline text⟩

/-- A repair that leaves a mark at the start of the text is found untidy again. -/
theorem marked_found (problems : Text → List String) :
    ¬ (∀ bytes, (examined problems {} (utf8 [mark, mark, 'a', '\n'])).repaired = some bytes →
      (examined problems {} bytes).repaired = none) := by
  have hread : decoded (utf8 [mark, mark, 'a', '\n']) = .text [mark, 'a', '\n'] := by
    rw [decoded_utf8]
    decide
  have hplain : ({} : Attributes).binary = false := rfl
  intro h
  have hsettled := @settled_iff problems {} [mark, 'a', '\n'] hplain
  refine hsettled.mp (h _ (marked_repaired hplain hread rfl)) ⟨rfl, ?_⟩
  decide

/-- A file of two byte order marks before an `a` is repaired without end. -/
theorem hygienic_fails : ¬ Hygienic (fun _ => []) {} (utf8 [mark, mark, 'a', '\n']) :=
  fun h => marked_found (fun _ => []) h.settled

end Mainboard.Hygiene
