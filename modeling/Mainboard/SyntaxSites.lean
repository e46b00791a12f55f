import Mainboard.Relocation

/-! What a node operation reads of the node it changes: rows of a file's syntax tree, each with its byte range and its
span, and the bytes of the file. Ranges of bytes are handed on as spans, which name the same bytes again. -/

namespace Mainboard.Analysis.Nodes

/-- One row of a file's syntax tree: ids within its file, kinds, byte range and span as the facts give them. -/
structure Node where
  node : ℕ
  parent : Option ℕ
  index : ℕ
  type : String
  semantic : String
  start : ℕ
  stop : ℕ
  line : ℕ
  column : ℕ
  endLine : ℕ
  endColumn : ℕ
  deriving DecidableEq, Repr

def Node.comment (node : Node) : Bool := node.semantic == "METADATA_COMMENT"

/-- Whether the node is punctuation or a delimiter. -/
def Node.trivial (node : Node) : Bool := node.semantic == "PARSER_PUNCTUATION" || node.semantic == "PARSER_DELIMITER"

/-- Where the node stands in a file. -/
def Node.span (node : Node) (path : Place) : Span where
  path := path
  startLine := node.line
  startColumn := node.column
  endLine := some node.endLine
  endColumn := some node.endColumn

/-- What an operation reads of one node: its file's bytes and language, the node and what stands below it, its parent's
children, its grandparent's children and its ancestors, nearest first. -/
structure Site where
  path : Place
  language : String
  content : Bytes
  target : Node
  below : List Node := []
  siblings : List Node := []
  uncles : List Node := []
  ancestors : List Node := []

/-- The node and its descendants. -/
def Site.tree (site : Site) : List Node := site.target :: site.below

def Site.parent (site : Site) : Option Node := site.ancestors.head?

/-- Why an operation makes no edits: it refused, or an exception of Python's went up. -/
inductive Halt where
  | refused (why : String)
  | raised
  deriving DecidableEq, Repr

/-- `_span`: where a range of a file's bytes stands. -/
def rangeSpan (data : Bytes) (path : Place) (start stop : ℕ) : Span where
  path := path
  startLine := (placeOf data start).1
  startColumn := (placeOf data start).2.toNat
  endLine := some (placeOf data stop).1
  endColumn := some (placeOf data stop).2.toNat

section Ranges

variable {data : Bytes} {path : Place} {start stop : ℕ}

/-- The line and the column of an offset name it again. -/
theorem offset_placeOf {offset : ℕ} (h : offset ≤ data.length) :
    Source.offset ⟨data⟩ (placeOf data offset).1 (placeOf data offset).2.toNat = some offset := by
  have hat := @Source.lineEnds_at data 0 offset h
  have hprefix : (0 :: Source.lineEnds 0 data) <+: Source.starts ⟨data⟩ := by
    unfold Source.starts
    dsimp only
    split
    · exact List.prefix_rfl
    · exact List.prefix_append _ _
  have hstart : (Source.starts ⟨data⟩)[(data.take offset).count 10]? =
      some (offset - ((data.take offset).reverse.takeWhile (· ≠ 10)).length) := by
    obtain ⟨more, hmore⟩ := hprefix
    rw [← hmore, List.getElem?_append_left (List.getElem?_eq_some_iff.mp hat).1, hat, Nat.zero_add]
  have hshort := ((data.take offset).reverse.takeWhile_sublist (· ≠ 10)).length_le
  rw [List.length_reverse, List.length_take_of_le h] at hshort
  rw [placeOf, Source.offset, Source.lineStart, hstart, Option.map_some, Int.toNat_natCast, Nat.sub_add_cancel hshort]

/-- A range of bytes is what its span covers. -/
theorem covers_rangeSpan (hstart : start ≤ data.length) (hstop : stop ≤ data.length) :
    Source.covers ⟨data⟩ (rangeSpan data path start stop) = some (start, stop) := by
  have hlast : (rangeSpan data path start stop).lastLine = (placeOf data stop).1 := rfl
  rw [Source.covers, hlast]
  simp only [rangeSpan, Option.getD_some, offset_placeOf hstart, offset_placeOf hstop, Option.bind_eq_bind,
    Option.bind_some, Option.pure_def]

end Ranges

end Mainboard.Analysis.Nodes
