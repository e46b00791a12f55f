import Mathlib.Data.List.Sort
import Mainboard.OrderedMap
import Mainboard.Seals

/-! The fixes of one pass over a project: one finding's edits expanded into byte edits, taken beside renames,
removals and imports unless they collide with what the plan holds or touch a sealed file, and each edited file's new
bytes. How a module reads is `ast.parse`'s to say and stands here as a parameter. -/

namespace Mainboard.Analysis

/-- Edits a fix returns. -/
inductive Edit where
  | replace (span : Span) (text : Text)
  | insert (text : Text) (before after : Option Span)
  | delete (span : Span)
  | move (span : Span) (before after : Option Span)
  | append (path : Place) (text : Text)
  | create (path : Place) (text : Text)
  | remove (path : Place)
  | rename (path target : Place)
  | imports (path : Place) (statement : Text)
  | claim (span : Span)
  deriving DecidableEq, Repr

/-- The span an insert goes before, else the one it goes after; one with neither raises. -/
def anchor (before after : Option Span) : Option Span := before <|> after

namespace Edit

/-- The project path the edit changes. -/
def file : Edit → Option Place
  | replace span _ | delete span | move span _ _ | claim span => some span.path
  | insert _ before after => (anchor before after).map Span.path
  | append path _ | create path _ | remove path | rename path _ | imports path _ => some path

def removedPath : Edit → Option Place
  | remove path => some path
  | _ => none

def renamePair : Edit → Option (Place × Place)
  | rename path target => some (path, target)
  | _ => none

def createdPath : Edit → Option Place
  | create path _ => some path
  | _ => none

def importPair : Edit → Option (Place × Text)
  | imports path statement => some (path, statement)
  | _ => none

end Edit

/-- A name an import takes. -/
structure Alias where
  name : Text
  asname : Option Text
  deriving DecidableEq, Repr

/-- A statement, as far as a plan reads it. -/
inductive Node where
  | imports (names : List Alias)
  | importsFrom (module : Option Text) (names : List Alias) (level : ℕ)
  | string
  | other
  deriving DecidableEq, Repr

structure Statement where
  node : Node
  endLine : Option ℕ
  deriving DecidableEq, Repr

/-- `ast.parse` on a file's bytes and on one statement's text, nothing where it raises. -/
structure Grammar where
  parse : Bytes → Option (List Statement)
  parseText : Text → Option (List Statement)

/-- What an import binds: a name of a module, or a whole module. -/
structure Binding where
  module : Option Text
  name : Text
  deriving DecidableEq, Repr

def spelled (names : Alias) : Text := match names.asname with
  | none | some [] => names.name
  | some asname => names.name ++ " as ".toList ++ asname

/-- What an import statement binds, one for each name or module it takes. -/
def bindings : Node → List Binding
  | .importsFrom module names level =>
      names.map fun name => ⟨some (List.replicate level '.' ++ module.getD []), spelled name⟩
  | .imports names => names.map fun name => ⟨none, spelled name⟩
  | _ => []

def Node.isImport : Node → Bool
  | .imports _ | .importsFrom _ _ _ => true
  | _ => false

/-- The fixes of one pass. -/
structure Plan where
  text : List TextEdit := []
  renamed : List (Place × Place) := []
  removed : List Place := []
  created : List Place := []
  imports : List (Place × List Text) := []
  /-- How many findings' edits the pass put off. -/
  deferred : ℕ := 0
  deriving DecidableEq, Repr

namespace Plan

variable (project : Project) (grammar : Grammar) (plan : Plan)

/-- A path's bytes before the plan, empty for a file it creates or appends into being. -/
def source (path : Place) : Option Source :=
  if path ∈ plan.created then some ⟨[]⟩
  else match project.read path with
    | .ok data => some ⟨data⟩
    | .error .missing => some ⟨[]⟩
    | .error _ => none

/-- Where an insertion goes: at its anchor's first line, or behind its last. -/
def insertionPoint (source : Source) (anchor : Span) : Option Span → Option ℕ
  | some _ => source.lineStart anchor.startLine
  | none => (source.lines anchor).map (·.2)

/-- The byte edits of an insertion. -/
def inserted (text : Text) (before after : Option Span) : Option (List TextEdit) := do
  let anchor ← anchor before after
  let source ← source project plan anchor.path
  let start ← insertionPoint source anchor before
  let indent ← source.indent anchor.startLine
  let lines := (textLines text).flatMap fun line => indent ++ source.encode line ++ source.newline
  return [{ path := anchor.path, start := start, stop := start, text := lines }]

/-- The lines a move takes, each without the indentation of the first. -/
def movedText (source : Source) (span : Span) : Option Text := do
  let range ← source.lines span
  let indent ← source.indent span.startLine
  let lines ← (byteLines (slice source.data range.1 range.2)).mapM fun line => decode (line.drop indent.length)
  return lines.flatMap (· ++ ['\n'])

/-- An edit as byte edits, none for one that changes no text. -/
def expand : Edit → Option (List TextEdit)
  | .replace span text => do
      let source ← source project plan span.path
      let range ← source.covers span
      return [{ path := span.path, start := range.1, stop := range.2, text := source.encode text }]
  | .delete span => do
      let source ← source project plan span.path
      let range ← source.lines span
      return [{ path := span.path, start := range.1, stop := range.2, text := [] }]
  | .insert text before after => inserted project plan text before after
  | .move span before after => do
      let source ← source project plan span.path
      let range ← source.lines span
      let moved ← movedText source span
      let landed ← inserted project plan moved before after
      return { path := span.path, start := range.1, stop := range.2, text := [] } :: landed
  | .append path text => do
      let source ← source project plan path
      let parted := source.data ≠ [] ∧ source.data.getLast? ≠ some 10
      let added := (if parted then source.newline else []) ++ source.encode text
      return [{ path := path, start := source.data.length, stop := source.data.length, text := added, stacking := true }]
  | .claim span => do
      let source ← source project plan span.path
      let range ← source.covers span
      return [{ path := span.path, start := range.1, stop := range.2, text := [], claims := true }]
  | .create path text => some [{ path, start := 0, stop := 0, text := utf8 text }]
  | .remove _ | .imports _ _ | .rename _ _ => some []

def expandAll : List Edit → Option (List TextEdit)
  | [] => some []
  | edit :: edits => do
      let pieces ← expand project plan edit
      let rest ← expandAll edits
      return pieces ++ rest

/-- Two edits of one file overlap, or insert at one point. Appends stack, and a claim meets only claims. -/
def collide (one other : TextEdit) : Bool :=
  if one.path ≠ other.path ∨ one.claims ≠ other.claims ∨ (one.stacking ∧ other.stacking) then false
  else (one.start < other.stop && other.start < one.stop) || one.start == other.start

/-- Whether one finding's edits clash with what the plan already holds. -/
def collides (edits : List Edit) (expanded : List TextEdit) : Bool :=
  let moving := edits.filterMap Edit.removedPath ++ (edits.filterMap Edit.renamePair).map (·.1)
  let targets := (edits.filterMap Edit.renamePair).map (·.2)
  let made := edits.filterMap Edit.createdPath
  let taken := plan.removed ++ plan.renamed.map (·.1) ++ plan.renamed.map (·.2) ++ plan.created
  (moving ++ targets ++ made).any (fun path => decide (path ∈ taken)) ||
    (targets ++ made).any (fun target => (project.entry target).isSome) ||
    expanded.any fun edit => plan.text.any fun other => collide edit other

/-- Whether an edit changes a sealed file, up to the first that does or that raises. -/
def anySealed : List Edit → Option Bool
  | [] => some false
  | edit :: edits => do
      let path ← edit.file
      let held ← Sealed.holds project path
      if held then return true else anySealed edits

/-- The plan with one finding's edits taken. -/
def taking (edits : List Edit) (expanded : List TextEdit) : Plan where
  text := plan.text ++ expanded
  renamed := OrderedMap.putAll plan.renamed (OrderedMap.ofPairs (edits.filterMap Edit.renamePair))
  removed := plan.removed ++ edits.filterMap Edit.removedPath
  created := plan.created ++ edits.filterMap Edit.createdPath
  imports := (edits.filterMap Edit.importPair).foldl (fun imports entry =>
    let statements := (OrderedMap.get imports entry.1).getD []
    OrderedMap.put imports entry.1 (if entry.2 ∈ statements then statements else statements ++ [entry.2])) plan.imports
  deferred := plan.deferred

/-- One finding's edits taken, unless they collide or change a sealed file. -/
def add (edits : List Edit) : Option (Plan × Bool) :=
  (anySealed project edits).bind fun held =>
    (if held then some [] else expandAll project plan edits).bind fun expanded =>
      some (if held || collides project plan edits expanded then
        ({ plan with deferred := plan.deferred + 1 }, false)
      else (plan.taking edits expanded, true))

/-- The lists of edits offered to a plan one after the other, with those it took. An offer that raises ends it. -/
def offer : Plan → List (List Edit) → Option (Plan × List (List Edit))
  | plan, [] => some (plan, [])
  | plan, edits :: offers => do
      let answer ← add project plan edits
      let rest ← offer answer.1 offers
      return (rest.1, if answer.2 then edits :: rest.2 else rest.2)

/-- The zero-based line a new top-level import goes on. -/
def importLine (body : List Statement) : ℕ :=
  match (body.filter fun statement => statement.node.isImport).getLast? with
  | some statement => statement.endLine.getD 0
  | none => match body with
    | ⟨.string, endLine⟩ :: _ => endLine.getD 0
    | _ => 0

/-- Texts in the order of their characters' codes. -/
def precedes : Text → Text → Bool
  | [], _ => true
  | _ :: _, [] => false
  | one :: ones, other :: others => one < other || (one == other && precedes ones others)

/-- The names a statement binds that the file does not, each under its module. -/
def wantMore (bound : List Binding) (wanted : List (Option Text × List Text)) (names : List Binding) :
    List (Option Text × List Text) :=
  names.foldl (fun wanted binding =>
    let standing := (OrderedMap.get wanted binding.module).getD []
    if binding ∈ bound ∨ binding.name ∈ standing then wanted
    else OrderedMap.put wanted binding.module (standing ++ [binding.name])) wanted

/-- The names the statements import that the file does not bind yet, by module, and those that are no import. -/
def wanted (bound : List Binding) : List Text → List (Option Text × List Text) → List Text →
    Option (List (Option Text × List Text) × List Text)
  | [], names, definitions => some (names, definitions)
  | statement :: statements, names, definitions => do
      let body ← grammar.parseText statement
      let first ← body.head?
      let definitions := if first.node.isImport then definitions else definitions ++ [statement]
      wanted bound statements (wantMore bound names (bindings first.node)) definitions

/-- The lines an import insertion writes. -/
def importLines (names : List (Option Text × List Text)) (definitions : List Text) : List Text :=
  ((OrderedMap.get names none).getD []).map (fun name => "import ".toList ++ name) ++
    names.filterMap (fun entry => entry.1.map fun module =>
      "from ".toList ++ module ++ " import ".toList ++ ", ".toList.intercalate entry.2) ++
    (if definitions = [] then [] else [] :: definitions)

/-- The one insertion into a path of what its fixes import and it does not yet bind. -/
def importInto (path : Place) (statements : List Text) : Option (Option TextEdit) := do
  let source ← source project plan path
  let body ← grammar.parse source.data
  let bound := body.flatMap fun statement => bindings statement.node
  let read ← wanted grammar bound (statements.insertionSort fun one other => precedes one other) [] []
  let lines := importLines read.1 read.2
  if lines = [] then return none
  else
    let start ← source.starts[importLine body]?
    let text := lines.flatMap fun line => source.encode line ++ source.newline
    return some { path := path, start := start, stop := start, text := text }

/-- One insertion for each file of the names its fixes import and it does not yet bind. -/
def importedFrom : List (Place × List Text) → Option (List TextEdit)
  | [] => some []
  | (path, statements) :: imports => do
      let edit ← importInto project grammar plan path statements
      let rest ← importedFrom imports
      return edit.toList ++ rest

def imported : Option (List TextEdit) := importedFrom project grammar plan plan.imports

/-- File order, by start and then by end. -/
def inOrder (one other : TextEdit) : Bool := one.start < other.start || (one.start == other.start && one.stop ≤ other.stop)

def fileOrder (edits : List TextEdit) : List TextEdit := edits.insertionSort fun one other => inOrder one other

/-- Each edited file's edits, claims aside and its imports included, in file order. -/
def edits : Option (List (Place × List TextEdit)) := do
  let imported ← imported project grammar plan
  let pieces := (plan.text ++ imported).filter fun edit => !edit.claims
  return (pieces.map TextEdit.path).eraseDups.map fun path =>
    (path, fileOrder (pieces.filter fun edit => edit.path = path))

/-- A path's bytes with its edits applied. -/
def spliced (path : Place) (edits : List TextEdit) : Option Bytes :=
  (source project plan path).map fun source => splicedFrom source.data 0 edits

def splicedAll : List (Place × List TextEdit) → Option (List (Place × Bytes))
  | [] => some []
  | (path, edits) :: rest => do
      let data ← spliced project plan path edits
      let written ← splicedAll rest
      return (path, data) :: written

/-- Every edited file's new bytes. -/
def written : Option (List (Place × Bytes)) := do
  let edits ← edits project grammar plan
  splicedAll project plan edits

/-- Where a path stands after the plan's renames of it or of a folder holding it. -/
def moved (path : Place) : Place := match plan.renamed.find? fun entry => entry.1 <+: path with
  | some (old, new) => new ++ path.drop old.length
  | none => path

end Plan

end Mainboard.Analysis
