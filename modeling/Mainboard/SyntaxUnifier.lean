import Mainboard.OrderedMap
import Mainboard.SyntaxSites

/-! A pattern's tree unified with a target's: each hole takes one node, or a run of siblings with the comments the run
owns, a name takes the same bytes each time, and the rest agrees in kinds and leaves. Runs are tried longest first, and
what a nested list of siblings took stands once the list has unified. -/

namespace Mainboard.Analysis.Nodes

/-- A node of a tree over its children in order. -/
inductive Branch where
  | node (row : Node) (kids : List Branch)

namespace Branch

def row : Branch → Node
  | node row _ => row

def kids : Branch → List Branch
  | node _ kids => kids

/-- Whether a branch is trivia or a comment. -/
def idle (branch : Branch) : Bool := branch.row.trivial || branch.row.comment

/-- The children that are neither trivia nor comments. -/
def significant (branch : Branch) : List Branch := branch.kids.filter fun kid => !kid.idle

/-- The children in order, comments included and trivia left out. -/
def shown (branch : Branch) : List Node := (branch.kids.map row).filter fun kid => !kid.trivial

end Branch

/-- What a hole took: a range of the target's bytes, and the nodes in it. -/
structure Capture where
  start : ℕ
  stop : ℕ
  nodes : List ℕ
  deriving DecidableEq, Repr

/-- The captures held, by name. -/
abbrev Captures := List (Text × Capture)

namespace Unifier

/-- The letter a `$` becomes in a pattern. -/
def expando : Char := 'µ'

/-- Whether nothing but comments stands from a child on. -/
def closes (kids : List Node) (index : ℕ) : Bool := (kids.drop index).all Node.comment

/-- Whether the comment at a place ends the line of the code before it, which owns it. -/
def trailing (kids : List Node) (index : ℕ) : Bool :=
  match ((kids.take index).filter fun kid => !kid.comment).getLast?, kids[index]? with
  | some before, some kid => before.endLine == kid.line
  | _, _ => false

/-- The first of the comments above a place that go with it. -/
def above (kids : List Node) : ℕ → ℕ
  | 0 => 0
  | first + 1 =>
      if (kids[first]?).any Node.comment && !trailing kids first then above kids first else first + 1

/-- The last of the comments after a place that go with it. -/
def below (kids : List Node) (last : ℕ) : List Node → ℕ
  | [] => last
  | next :: rest =>
      if next.comment && (some next.line == (kids[last]?).map Node.endLine || closes kids (last + 1)) then
        below kids (last + 1) rest
      else last

/-- The byte a run opens at: one that opens its parent also owns the comments above the parent. -/
def opening (kids : List Node) (first : ℕ) (parent : Node) (uncles : List Node) : ℕ :=
  let start := ((kids[first]?).map Node.start).getD 0
  if uncles ≠ [] ∧ first = 0 then
    let index := uncles.idxOf parent
    let top := above uncles index
    if top < index then ((uncles[top]?).map Node.start).getD 0 else start
  else start

/-- The bytes of a run of a parent's children and the comments it owns. -/
def extent (one last : Node) (parent : Branch) (uncles : List Node) : ℕ × ℕ :=
  let kids := parent.shown
  let first := above kids (kids.idxOf one)
  let last := below kids (kids.idxOf last) (kids.drop (kids.idxOf last + 1))
  (opening kids first parent.row uncles, ((kids[last]?).map Node.stop).getD 0)

/-- The capture of one node, or of a run of a parent's children. -/
def capture (nodes : List Node) (parent : Option (Branch × List Node)) : Capture :=
  match nodes.head?, nodes.getLast? with
  | some one, some last =>
      match parent with
      | none => { start := one.start, stop := last.stop, nodes := nodes.map Node.node }
      | some (parent, uncles) =>
          let (start, stop) := extent one last parent uncles
          { start, stop, nodes := nodes.map Node.node }
  | _, _ => { start := 0, stop := 0, nodes := [] }

/-- A hole's name. -/
def nameOf (hole : Text) : Text := hole.dropWhile (· == expando)

section Unifying

variable (pattern target : Bytes)

/-- The text of a node. -/
def text (data : Bytes) (node : Node) : Bytes := slice data node.start node.stop

def taken (capture : Capture) : Bytes := slice target capture.start capture.stop

/-- Capture nodes under a hole's name, which may hold the same bytes already and no others. -/
def captured (held : Captures) (hole : Text) (capture : Capture) : Bool × Captures :=
  let name := nameOf hole
  if name = ['_'] then (true, held)
  else match OrderedMap.get held name with
    | some other => (decide (taken target other = taken target capture), held)
    | none => (true, OrderedMap.put held name capture)

/-- The hole an identifier is. -/
def marked (node : Node) : Option Text :=
  let text := (decode (text pattern node)).getD []
  if node.type = "identifier" ∧ text.head? = some expando then some text else none

/-- The hole a pattern node stands for, none when it is written out. -/
def hole (branch : Branch) : Option Text :=
  if branch.row.type = "identifier" then marked pattern branch.row
  else if branch.row.type = "expression_statement" then
    match branch.significant with
    | [only] => if only.significant.isEmpty then marked pattern only.row else none
    | _ => none
  else none

/-- The hole for a run of siblings. -/
def spreading (branch : Branch) : Option Text :=
  (hole pattern branch).filter fun hole => List.replicate 3 expando <+: hole

/-- The first of the cuts, longest first, whose attempt is made; what was held stays otherwise. -/
def spread (attempt : ℕ → Bool × Captures) (held : Captures) : ℕ → Bool × Captures
  | 0 => match attempt 0 with
    | (true, next) => (true, next)
    | (false, _) => (false, held)
  | cut + 1 => match attempt (cut + 1) with
    | (true, next) => (true, next)
    | (false, _) => spread attempt held cut

mutual

/-- Whether a pattern node unifies with a target node, holes captured as it goes. -/
def unify : Branch → Branch → List Node → Captures → Bool × Captures
  | .node row kids, node, uncles, held =>
      match hole pattern (.node row kids) with
      | some hole => captured target held hole (capture [node.row] none)
      | none =>
          if row.type ≠ node.row.type then (false, held)
          else if (Branch.node row kids).significant.isEmpty then
            (decide (text pattern row = text target node.row), held)
          else run kids node.significant node uncles held

/-- Whether the pattern nodes that are neither trivia nor comments unify with the target nodes one for one. -/
def run : List Branch → List Branch → Branch → List Node → Captures → Bool × Captures
  | [], targets, _, _, held => (targets.isEmpty, held)
  | first :: rest, targets, parent, uncles, held =>
      if first.idle then run rest targets parent uncles held
      else match spreading pattern first with
        | some hole => spread (fun cut =>
            match captured target held hole (capture ((targets.take cut).map Branch.row) (some (parent, uncles))) with
            | (true, next) => run rest (targets.drop cut) parent uncles next
            | (false, _) => (false, held)) held targets.length
        | none => match targets with
            | [] => (false, held)
            | node :: later => match unify first node parent.shown held with
                | (true, next) => match run rest later parent uncles next with
                    | (true, last) => (true, last)
                    | (false, _) => (false, held)
                | (false, _) => (false, held)

end

end Unifying

end Unifier

end Mainboard.Analysis.Nodes
