import Mainboard.LineEdits
import Mainboard.SyntaxSites

/-! A node deleted with whole lines: its wrapper, the comment lines right above it and the blank lines beside them. What
the lines hold beside these is blank, but for what stands behind a comment on the node's last line. -/

namespace Mainboard.Analysis.Nodes

/-- What a deletion must know of one language's syntax. -/
structure Dialect where
  language : String
  blocks : List String := []
  filler : Text := []
  wrappers : List String := []

def dialects : List Dialect :=
  [{ language := "python", blocks := ["block"], filler := "pass".toList, wrappers := ["decorated_definition"] },
    { language := "rust" },
    { language := "typescript", wrappers := ["ambient_declaration", "export_statement"] },
    { language := "c", wrappers := ["linkage_specification"] },
    { language := "cpp", wrappers := ["linkage_specification", "template_declaration"] },
    { language := "cuda", wrappers := ["linkage_specification", "template_declaration"] }]

/-- The syntax of a language, where a dialect describes it. -/
def Dialect.find (language : String) : Option Dialect := dialects.find? fun dialect => dialect.language == language

/-- A byte that `bytes.strip` takes. -/
def blank (byte : UInt8) : Bool := byte == 32 || (9 ≤ byte && byte ≤ 13)

/-- The leading blanks of the line holding a byte. -/
def indent (data : Bytes) (offset : ℕ) : ℕ :=
  let line := offset - ((data.take offset).reverse.takeWhile (· ≠ 10)).length
  ((data.drop line).takeWhile fun byte => byte == 32 || byte == 9).length

namespace DeleteNode

/-- The line a node's text ends on. -/
def last (node : Node) : ℕ := if node.endColumn = 0 ∧ node.line < node.endLine then node.endLine - 1 else node.endLine

/-- Whether the node has its lines to itself. -/
def alone (data : Bytes) (node : Node) (holder : List Node) : Bool :=
  if indent data node.start ≠ node.column then false
  else if node.endColumn = 0 ∧ node.line < node.endLine then true
  else
    let rest := (data.drop node.stop).takeWhile (· ≠ 10)
    let start := node.stop + (rest.takeWhile blank).length
    rest.all blank || holder.any fun each => each.comment && each.start == start && last each == last node

/-- Whether the sibling before the node that is no comment annotates the item after it. -/
def annotated (dialect : Dialect) (node : Node) (holder : List Node) : Bool :=
  let before := holder.filter fun each => each.index < node.index && !each.comment
  match (before.filter fun each => !each.trivial).getLast? with
  | none => false
  | some each => each.semantic == "METADATA_ANNOTATION" && !(dialect.wrappers.contains each.type)

/-- A file's lines as a deletion reads them. -/
def rowsOf (data : Bytes) : List Bytes := (chopped 10 data).splitOn 10

def blankRow (rows : List Bytes) (row : ℕ) : Bool := match rows[row]? with
  | some bytes => bytes.all blank
  | none => false

/-- The line reached from a line over the blank lines above it. -/
def blanksUp (rows : List Bytes) : ℕ → ℕ
  | line + 2 => if blankRow rows line then blanksUp rows (line + 1) else line + 2
  | line => line

/-- The line reached from a line over the blank lines below it. -/
def blanksDown (rows : List Bytes) (line : ℕ) : ℕ := line + ((rows.drop line).takeWhile fun row => row.all blank).length

/-- The topmost of a node and the comments on lines of their own above it, of siblings nearest first. -/
def climb (data : Bytes) : Node → List Node → Node
  | first, [] => first
  | first, each :: rest =>
      if each.comment ∧ 0 < each.start ∧ indent data each.start = each.column ∧ last each + 1 = first.line then
        climb data each rest
      else first

/-- The topmost of the node and the comments on lines of their own right above it. -/
def first (data : Bytes) (node : Node) (holder : List Node) : Node :=
  climb data node (holder.filter fun each => each.index < node.index).reverse

/-- The whole lines to delete with the node. -/
def lines (data : Bytes) (node : Node) (holder : List Node) (path : Place) : Span :=
  let first := (first data node holder).line
  let rows := rowsOf data
  let top := blanksUp rows first
  let bottom := blanksDown rows (last node)
  let followed := bottom = last node ∧ holder.any fun each => node.index < each.index && !each.trivial
  let start := if followed then first else top
  { path := path, startLine := start, endLine := some (if start = 1 then bottom else last node) }

/-- Why the node cannot be deleted, empty when it can. -/
def refusal (site : Site) (dialect : Dialect) (node : Node) (holder : List Node) (wrapped : ℕ) : String :=
  let types := node.type :: site.ancestors.map Node.type
  let parent := (site.ancestors.drop wrapped).take 1
  let reasons := [
    (site.ancestors.length == wrapped, "the node is the root"),
    (decide (1 < wrapped), "wrappers nest"),
    (types.contains "ERROR", "the node sits in a syntax error"),
    (!alone site.content node holder, "the node shares a line with other code"),
    (annotated dialect node holder, "an annotation above the node would pass to the next one"),
    (parent.any fun each => each.semantic.startsWith "FLOW_" || each.semantic.startsWith "EXECUTION_",
      "a control construct holds the node with no block around it")]
  match reasons.find? Prod.fst with
  | some (_, why) => why
  | none => ""

/-- The wrappers around the site's node. -/
def lifted (site : Site) (dialect : Dialect) : List Node :=
  site.ancestors.takeWhile fun each => dialect.wrappers.contains each.type

/-- The node deleted and its siblings: the outermost wrapper's where there is one. -/
def chosen (site : Site) (dialect : Dialect) : Node × List Node := match lifted site dialect with
  | wrapper :: _ => (wrapper, site.uncles)
  | [] => (site.target, site.siblings)

/-- The filler takes the node's place: its block must hold a statement, and it is the only one. -/
def fills (dialect : Dialect) (block node : Node) (holder : List Node) : Bool :=
  let statements := (holder.filter fun each => !(each.comment || each.trivial)).map Node.node
  dialect.filler ≠ [] && dialect.blocks.contains block.type && statements.contains node.node &&
    statements.all fun each => each == node.node

def lowered (site : Site) : Except Halt (List Edit) :=
  match Dialect.find site.language with
  | none => .error (.refused ("no dialect describes " ++ site.language))
  | some dialect =>
      let (node, holder) := chosen site dialect
      let why := refusal site dialect node holder (lifted site dialect).length
      if why ≠ "" then .error (.refused why)
      else match site.ancestors[(lifted site dialect).length]? with
        | none => .error .raised
        | some block =>
            let claim := if dialect.blocks.contains block.type then [Edit.claim (block.span site.path)] else []
            if fills dialect block node holder then .ok (.replace (node.span site.path) dialect.filler :: claim)
            else .ok (.delete (lines site.content node holder site.path) :: claim)

end DeleteNode

end Mainboard.Analysis.Nodes
