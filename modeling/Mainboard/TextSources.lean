import Mathlib.Data.List.Basic
import Mainboard.FileTree

/-! A file's bytes as an edit sees them: spans as byte ranges, counted in lines and UTF-8 columns, and texts as
bytes in the file's own line ending. A place a file does not have is an index that raises. -/

namespace Mainboard.Analysis

abbrev Bytes := List UInt8
abbrev Text := List Char

instance lawfulText : LawfulBEq Text := inferInstance

/-- A project path, by its parts. -/
abbrev Place := List String

instance lawfulPlace : LawfulBEq Place := inferInstance

/-- The files and folders under a project's root. -/
abbrev Project := FileTree.Tree String Bytes

/-- A source range, lines one-indexed and columns zero-indexed. -/
structure Span where
  path : Place
  startLine : ℕ
  startColumn : ℕ := 0
  endLine : Option ℕ := none
  endColumn : Option ℕ := none
  deriving DecidableEq, Repr

/-- The line a span ends on; a missing one, and line zero, read as the start line. -/
def Span.lastLine (span : Span) : ℕ := match span.endLine with
  | none | some 0 => span.startLine
  | some line => line

/-- Replace the bytes from `start` up to `stop` of one file with a text. An append is `stacking`: it may share its
point with other appends; what `claims` holds a range against other claims and changes no byte. -/
structure TextEdit where
  path : Place
  start : ℕ
  stop : ℕ
  text : Bytes
  stacking : Bool := false
  claims : Bool := false
  deriving DecidableEq, Repr

/-- The lines of a text without their endings. A return before a line feed is part of its ending. -/
def splitLines {α : Type} [DecidableEq α] (cr lf : α) (breaks : α → Bool) : List α → List (List α)
  | [] => []
  | char :: rest =>
      if char = cr ∧ rest.head? = some lf then splitLines cr lf breaks rest
      else if breaks char then [] :: splitLines cr lf breaks rest
      else match splitLines cr lf breaks rest with
        | [] => [[char]]
        | line :: lines => (char :: line) :: lines

/-- `bytes.splitlines`. -/
def byteLines (data : Bytes) : List Bytes := splitLines 13 10 (fun byte => byte == 10 || byte == 13) data

/-- A character `str.splitlines` ends a line at. -/
def breaksLine (char : Char) : Bool :=
  let code := char.toNat
  (10 ≤ code && code ≤ 13) || (28 ≤ code && code ≤ 30) || code == 0x85 || code == 0x2028 || code == 0x2029

/-- `str.splitlines`. -/
def textLines (text : Text) : List Text := splitLines '\r' '\n' breaksLine text

/-- A text with each return before a line feed left out. -/
def unixLines : Text → Text
  | [] => []
  | char :: rest => if char = '\r' ∧ rest.head? = some '\n' then unixLines rest else char :: unixLines rest

/-- `str.encode`. -/
def utf8 (text : Text) : Bytes := text.flatMap String.utf8EncodeChar

/-- `bytes.decode`, nothing where the bytes are no UTF-8. -/
def decode (data : Bytes) : Option Text := (String.fromUTF8? data.toByteArray).map String.toList

/-- `data[start:stop]`. -/
def slice (data : Bytes) (start stop : ℕ) : Bytes := (data.take stop).drop start

/-- One file's bytes. -/
structure Source where
  data : Bytes
  deriving DecidableEq, Repr

namespace Source

/-- A return and a line feed stand side by side. -/
def crlf : Bytes → Bool
  | [] => false
  | byte :: rest => (byte == 13 && rest.head? == some 10) || crlf rest

/-- The offsets behind each line feed, counted from an offset. -/
def lineEnds : ℕ → Bytes → List ℕ
  | _, [] => []
  | offset, byte :: rest =>
      if byte = 10 then (offset + 1) :: lineEnds (offset + 1) rest else lineEnds (offset + 1) rest

variable (source : Source)

/-- The file's own line ending. -/
def newline : Bytes := if crlf source.data then [13, 10] else [10]

/-- Where each line starts, and where the last one ends. -/
def starts : List ℕ :=
  let ends := 0 :: lineEnds 0 source.data
  if ends.getLast? = some source.data.length then ends else ends ++ [source.data.length]

/-- `starts[line - 1]`; line zero indexes the last. -/
def lineStart : ℕ → Option ℕ
  | 0 => source.starts.getLast?
  | line + 1 => source.starts[line]?

def offset (line column : ℕ) : Option ℕ := (source.lineStart line).map (· + column)

/-- The bytes a span covers. -/
def covers (span : Span) : Option (ℕ × ℕ) := do
  let start ← source.offset span.startLine span.startColumn
  let stop ← source.offset span.lastLine (span.endColumn.getD 0)
  return (start, stop)

/-- A text as this file's bytes, in its line ending. -/
def encode (text : Text) : Bytes :=
  (utf8 (unixLines text)).flatMap fun byte => if byte = 10 then source.newline else [byte]

/-- The blanks a line starts with. -/
def indent (line : ℕ) : Option Bytes := do
  let start ← source.lineStart line
  let stop ← source.starts[line]?
  return (slice source.data start stop).takeWhile fun byte => byte == 32 || byte == 9

/-- The whole lines a span covers, line ending included. -/
def lines (span : Span) : Option (ℕ × ℕ) := do
  let start ← source.lineStart span.startLine
  let stop ← source.starts[span.lastLine]?
  return (start, stop)

end Source

/-- A file's bytes with edits in file order applied, from what is already kept. -/
def splicedFrom (data : Bytes) : ℕ → List TextEdit → Bytes
  | kept, [] => data.drop kept
  | kept, edit :: edits => slice data kept edit.start ++ edit.text ++ splicedFrom data edit.stop edits

end Mainboard.Analysis
