import Mainboard.Base64
import Mainboard.ListingRoundTrip
import Mainboard.PlanTaking
import Mainboard.Seals

/-! The trial receipts a job hands back through its own output: framed as base64 between two marks by whatever started
the job, read back by the harvest beside the receipts the job printed itself, and taken out again for a reader of the
job's own words. -/

namespace Mainboard.Evidence

open Analysis (Text Bytes textLines splitLines breaksLine utf8 decode)
open Analysis.Sealed (isSpace)

/-- `str.strip`. -/
def strip (text : Text) : Text := (text.dropWhile isSpace).rdropWhile isSpace

/-- Whether a text holds another somewhere, `mark in text`. -/
def holds (mark text : Text) : Bool := text.tails.any fun rest => mark.isPrefixOf rest

/-- `str.splitlines(keepends=True)`. -/
def keptLines : Text → List Text
  | [] => []
  | char :: rest =>
      if breaksLine char ∧ ¬(char = '\r' ∧ rest.head? = some '\n') then [char] :: keptLines rest
      else match keptLines rest with
        | [] => [[char]]
        | line :: lines => (char :: line) :: lines

/-- How many bytes at the front of undecodable data one replacement character stands for: a lead byte and what can still
follow it. -/
def tornSize : Bytes → ℕ
  | lead :: second :: rest =>
      let follows (byte : UInt8) := 0x80 ≤ byte.toNat && byte.toNat ≤ 0xbf
      let second := second.toNat
      match lead.toNat with
      | 0xe0 => if 0xa0 ≤ second ∧ second ≤ 0xbf then 2 else 1
      | 0xed => if 0x80 ≤ second ∧ second ≤ 0x9f then 2 else 1
      | lead =>
          if 0xe1 ≤ lead ∧ lead ≤ 0xef then (if 0x80 ≤ second ∧ second ≤ 0xbf then 2 else 1)
          else
            let fits := match lead with
              | 0xf0 => 0x90 ≤ second && second ≤ 0xbf
              | 0xf4 => 0x80 ≤ second && second ≤ 0x8f
              | lead => 0xf1 ≤ lead && lead ≤ 0xf3 && 0x80 ≤ second && second ≤ 0xbf
            if fits then (if rest.head?.any follows then 3 else 2) else 1
  | _ => 1

/-- The character at the front of data, and its size. -/
def charAt (data : Bytes) : Option (Char × ℕ) :=
  [1, 2, 3, 4].findSome? fun size => match decode (data.take size) with
    | some [char] => some (char, size)
    | _ => none

/-- Data of at most so many bytes decoded character by character, torn parts replaced. -/
def replacing : ℕ → Bytes → Text
  | 0, _ => []
  | _, [] => []
  | bound + 1, data => match charAt data with
      | some (char, size) => char :: replacing bound (data.drop size)
      | none => '\uFFFD' :: replacing bound (data.drop (tornSize data))

/-- `bytes.decode(errors="replace")`. -/
def decodeReplacing (data : Bytes) : Text := (decode data).getD (replacing data.length data)

/-- `_RECEIPT`. -/
def receiptMark : Text := "trial_receipt".toList

/-- `_BEGIN`. -/
def beginMark : Text := "mainboard-receipts-begin".toList

/-- `_END`. -/
def endMark : Text := "mainboard-receipts-end".toList

/-- `_CHUNK_MARKER`. -/
def chunkMarker : Text := "mainboard-receipt:".toList

/-- `_CHUNK_WIDTH`. -/
def chunkWidth : ℕ := 240

def chunks (payload : Text) : List Text :=
  (List.range ((payload.length + chunkWidth - 1) / chunkWidth)).map fun index =>
    (payload.drop (index * chunkWidth)).take chunkWidth

/-- The lines of a frame around a payload. -/
def frameLines (payload : Text) : List Text := beginMark :: ((chunks payload).map (chunkMarker ++ ·) ++ [endMark])

def framed (receipts : Bytes) : Text := ['\n'].intercalate ([] :: frameLines (Base64.encode receipts)) ++ ['\n']

/-- The payload between a begin line and the first end line after it. -/
def payloadOf (rest : List Text) : Text :=
  ((rest.takeWhile (· ≠ endMark)).filter fun line => chunkMarker.isPrefixOf line).flatMap (·.drop chunkMarker.length)

/-- The payloads of the blocks in stripped lines, the last one first. A begin line no end line follows opens none. -/
def blocks : List Text → List Text
  | [] => []
  | line :: rest =>
      blocks rest ++ if beginMark.isSuffixOf line && rest.any (· = endMark) then [payloadOf rest] else []

/-- What a block's payload must be to be read: some whole quanta of the alphabet. -/
def whole (payload : Text) : Bool :=
  payload ≠ [] && payload.length % 4 = 0 && payload.all fun char => char = '=' || Base64.isLetter char

/-- The stripped lines of a log. -/
def stripped (log : Text) : List Text := (textLines log).map strip

/-- The text a payload carries, nothing where `b64decode` raises. -/
def carried (payload : Text) : Option Text := (Base64.decode payload).map decodeReplacing

/-- `_unframed`, nothing where it raises. -/
def unframed (log : Text) : Option Text :=
  match (blocks (stripped log)).find? whole with
  | none => some []
  | some payload => carried payload

/-- The receipts among lines, stripped. -/
def receiptsOf (lines : List Text) : List Text :=
  (lines.filter fun line => holds receiptMark line && strip line ≠ []).map strip

/-- The receipts of the framed text and of the log's own lines, each once, in first-seen order. -/
def gathered (text log : Text) : List Text := (receiptsOf (textLines text ++ textLines log)).eraseDups

/-- `receipts_in`, nothing where it raises. -/
def receiptsIn (log : Text) : Option (List Text) := (unframed log).map fun text => gathered text log

/-- A line `printed` drops. -/
def isFrameLine (line : Text) : Bool :=
  strip line = beginMark || strip line = endMark || chunkMarker.isPrefixOf (line.dropWhile isSpace)

/-- The markers a job reports its progress after. -/
def markers : List Text := ["mainboard-cells: ".toList, "mainboard-cell: ".toList, "mainboard-session: ".toList]

/-- A text without its marker spans, from inside a span or outside of one. -/
def withoutSpans : Bool → Text → Text
  | _, [] => []
  | true, char :: rest => withoutSpans (char ≠ '\n') rest
  | false, char :: rest =>
      if markers.any fun marker => marker.isPrefixOf (char :: rest) then withoutSpans true rest
      else char :: withoutSpans false rest

def unbeaconed (log : Text) : Text := withoutSpans false log

def printed (log : Text) : Text := unbeaconed ((keptLines log).filter fun line => !isFrameLine line).flatten

/-! Stripping -/

section Stripping

variable {text line : Text}

theorem strip_sublist : (strip text).Sublist text :=
  (List.rdropWhile_prefix _ _).sublist.trans (List.dropWhile_suffix _).sublist

theorem strip_lead (text : Text) : (strip text).dropWhile isSpace = strip text := by
  unfold strip
  have hhead := List.head?_dropWhile_not isSpace text
  generalize text.dropWhile isSpace = rest at hhead ⊢
  have hprefix := List.rdropWhile_prefix isSpace rest
  cases hkept : rest.rdropWhile isSpace with
  | nil => rfl
  | cons char kept =>
      rw [hkept] at hprefix
      obtain ⟨more, rfl⟩ := hprefix
      have hchar : isSpace char = false := by simpa using hhead
      rw [List.dropWhile_cons, if_neg (by rw [hchar]; exact Bool.false_ne_true)]

theorem strip_strip (text : Text) : strip (strip text) = strip text := by
  rw [strip, strip_lead, strip, List.rdropWhile_idempotent]

/-- Stripping leaves a text alone exactly when neither of its ends is a space. -/
theorem strip_eq_self_iff :
    strip text = text ↔ (∀ char, text.head? = some char → isSpace char = false) ∧
      ∀ char, text.getLast? = some char → isSpace char = false := by
  constructor
  · intro h
    have hlead := strip_lead text
    rw [h] at hlead
    refine ⟨fun char hchar => ?_, fun char hchar => ?_⟩
    · have hhead := List.head?_dropWhile_not isSpace text
      rw [hlead, hchar] at hhead
      simpa using hhead
    · have hlast : text.rdropWhile isSpace = text := by
        rw [strip, hlead] at h
        exact h
      have hne : text ≠ [] := by rintro rfl; cases hchar
      rw [List.getLast?_eq_some_getLast hne, Option.some.injEq] at hchar
      have hnot := List.rdropWhile_eq_self_iff.mp hlast hne
      rw [hchar] at hnot
      exact Bool.eq_false_iff.mpr hnot
  · rintro ⟨hhead, hlast⟩
    have hlead : text.dropWhile isSpace = text := by
      cases text with
      | nil => rfl
      | cons char rest =>
          rw [List.dropWhile_cons, if_neg (by rw [hhead char rfl]; exact Bool.false_ne_true)]
    rw [strip, hlead, List.rdropWhile_eq_self_iff]
    intro hne
    rw [hlast _ (List.getLast?_eq_some_getLast hne)]
    exact Bool.false_ne_true

theorem holds_nil {mark : Text} (h : mark ≠ []) : holds mark [] = false := by
  cases mark with
  | nil => exact absurd rfl h
  | cons char mark => rfl

end Stripping

/-! Lines -/

section Lines

variable {text line : Text} {char : Char}

theorem textLines_eq_nil : textLines text = [] ↔ text = [] := Analysis.splitLines_eq_nil

theorem textLines_break (rest : Text) : textLines ('\n' :: rest) = [] :: textLines rest :=
  @Provenance.textLines_line [] (fun _ h => absurd h List.not_mem_nil) rest

/-- A line feed ends a line, whatever stands before it. -/
theorem textLines_append (text rest : Text) :
    textLines (text ++ '\n' :: rest) = textLines (text ++ ['\n']) ++ textLines rest := by
  induction text with
  | nil =>
      rw [List.nil_append, List.nil_append, textLines_break, textLines_break]
      rfl
  | cons char text ih =>
      have hhead : (text ++ '\n' :: rest).head? = (text ++ ['\n']).head? := by cases text <;> rfl
      have hne : textLines (text ++ ['\n']) ≠ [] := fun h =>
        List.append_ne_nil_of_right_ne_nil text (List.cons_ne_nil _ _) (textLines_eq_nil.mp h)
      unfold textLines at ih hne ⊢
      rw [List.cons_append, List.cons_append, splitLines, splitLines, hhead, ih]
      obtain ⟨first, lines, hlines⟩ := List.exists_cons_of_ne_nil hne
      rw [hlines]
      split
      · rfl
      · split <;> rfl

/-- No line holds a character a line ends at. -/
theorem textLines_unbroken (h : line ∈ textLines text) : ∀ char ∈ line, breaksLine char = false := by
  induction text generalizing line with
  | nil => exact absurd h List.not_mem_nil
  | cons head text ih =>
      unfold textLines at ih h
      rw [splitLines] at h
      split at h
      · exact ih h
      · split at h
        · rcases List.mem_cons.mp h with rfl | h
          · exact fun _ hchar => absurd hchar List.not_mem_nil
          · exact ih h
        · rename_i hbreaks
          have hhead : breaksLine head = false := Bool.eq_false_iff.mpr hbreaks
          split at h
          · rw [List.mem_singleton.mp h]
            exact fun char hchar => List.mem_singleton.mp hchar ▸ hhead
          · rename_i first lines hlines
            rw [hlines] at ih
            rcases List.mem_cons.mp h with rfl | h
            · intro char hchar
              rcases List.mem_cons.mp hchar with rfl | hchar
              · exact hhead
              · exact ih List.mem_cons_self char hchar
            · exact ih (List.mem_cons_of_mem _ h)

/-- A last line nothing breaks or ends. -/
theorem textLines_last (hline : ∀ char ∈ line, breaksLine char = false) (hne : line ≠ []) : textLines line = [line] := by
  induction line with
  | nil => exact absurd rfl hne
  | cons char line ih =>
      have hchar : breaksLine char = false := hline char List.mem_cons_self
      have hreturn : ¬ (char = '\r' ∧ line.head? = some '\n') := fun hboth => by
        rw [hboth.1] at hchar
        exact absurd hchar (by decide)
      have hrest := ih fun other hother => hline other (List.mem_cons_of_mem _ hother)
      unfold textLines at hrest ⊢
      rw [splitLines, if_neg hreturn, if_neg (by rw [hchar]; exact Bool.false_ne_true)]
      cases line with
      | nil => rfl
      | cons second line => rw [hrest (List.cons_ne_nil _ _)]

/-- A line nothing breaks is a line of the text it stands in. -/
theorem mem_textLines (hline : ∀ char ∈ line, breaksLine char = false) (hne : line ≠ [])
    (h : line ∈ text.splitOn '\n') : line ∈ textLines text := by
  have htext : ['\n'].intercalate (text.splitOn '\n') = text := List.intercalate_splitOn _
  revert h htext
  generalize text.splitOn '\n' = lines
  intro h htext
  subst htext
  induction lines with
  | nil => exact absurd h List.not_mem_nil
  | cons first lines ih =>
      cases lines with
      | nil =>
          obtain rfl := List.mem_singleton.mp h
          rw [List.intercalate_singleton]
          rw [textLines_last hline hne]
          exact List.mem_cons_self
      | cons second lines =>
          rw [List.intercalate_cons_cons, List.append_assoc, List.singleton_append, textLines_append, List.mem_append]
          rcases List.mem_cons.mp h with rfl | h
          · left
            rw [Provenance.textLines_line hline]
            exact List.mem_cons_self
          · exact Or.inr (ih h)

theorem keptLines_ne_nil (h : text ≠ []) : keptLines text ≠ [] := by
  cases text with
  | nil => exact absurd rfl h
  | cons char text =>
      rw [keptLines]
      split
      · exact List.cons_ne_nil _ _
      · split <;> exact List.cons_ne_nil _ _

theorem keptLines_append (text rest : Text) :
    keptLines (text ++ '\n' :: rest) = keptLines (text ++ ['\n']) ++ keptLines rest := by
  induction text with
  | nil => rfl
  | cons char text ih =>
      have hhead : (text ++ '\n' :: rest).head? = (text ++ ['\n']).head? := by cases text <;> rfl
      obtain ⟨first, lines, hlines⟩ := List.exists_cons_of_ne_nil
        (keptLines_ne_nil (List.append_ne_nil_of_right_ne_nil text (List.cons_ne_nil '\n' [])))
      rw [List.cons_append, List.cons_append, keptLines, keptLines, hhead, ih, hlines]
      split <;> rfl

/-- A line nothing breaks, kept with its line feed. -/
theorem keptLines_line (h : ∀ char ∈ line, breaksLine char = false) (rest : Text) :
    keptLines (line ++ '\n' :: rest) = (line ++ ['\n']) :: keptLines rest := by
  induction line with
  | nil => rfl
  | cons char line ih =>
      have hchar : breaksLine char = false := h char List.mem_cons_self
      rw [List.cons_append, keptLines, if_neg (fun hbreak => by simp [hchar] at hbreak),
        ih fun other hother => h other (List.mem_cons_of_mem _ hother)]
      rfl

end Lines

end Mainboard.Evidence
