import Mainboard.FindingShapes
import Mainboard.PlanTaking

/-! Planning one pass: the repairs taken beside one another, the files their plan leaves unparsable and the imports of
other repositories it breaks, and the loop that withholds files and refuses repairs until a plan breaks nothing. What
the parsers and the consumers' index say of a file's bytes stands here as a parameter. -/

namespace Mainboard.Analysis.Planning

/-- A project path as it is written. -/
def spelled (path : Place) : String := "/".intercalate path

/-- The folders a path lies in, the project's own first. -/
def parents (path : Place) : List String :=
  (List.range path.length).map fun depth => if depth = 0 then "." else spelled (path.take depth)

/-- Whether a path is one of `roots` or lies in one of them. -/
def isUnder (path : Place) (roots : List String) : Bool :=
  decide (spelled path ∈ roots) || (parents path).any fun parent => decide (parent ∈ roots)

/-- `line.partition(":")[0]`. -/
def named (line : String) : String := String.ofList (line.toList.takeWhile (· != ':'))

/-- What the parsers say of a text: why Python or TOML would not parse, which suffixes tree-sitter reads and how many
errors it finds under one. -/
structure Parsers where
  python : Bytes → Option String
  toml : Bytes → Option String
  language : Text → Bool
  errors : Text → Bytes → ℕ

/-- What a module offers its importers, nothing where it does not parse, and which consumer imports a name of a module
or a module itself. -/
structure Consumers where
  surface : Bytes → Option (List Text)
  positional : Bytes → Option (List ((Text × Text) × ℕ))
  user : String → Text → Option String
  userOfModule : String → Option String

namespace Parsers

variable (parsers : Parsers)

def isPython (path : Place) : Bool :=
  Findings.suffix (spelled path) == ".py".toList || Findings.suffix (spelled path) == ".pyi".toList

def isToml (path : Place) : Bool := Findings.suffix (spelled path) == ".toml".toList

/-- Why a Python or TOML file would not parse. -/
def unparsed (path : Place) (data : Bytes) : Option String :=
  let why := if isPython path then parsers.python data else if isToml path then parsers.toml data else none
  why.map fun why => spelled path ++ ": " ++ why

/-- A file's complaint when its new text has more tree-sitter errors than its old. -/
def grown (path : Place) (old new : Bytes) : Option String :=
  let errors := parsers.errors (Findings.suffix (spelled path))
  if errors new ≤ errors old then none
  else some (spelled path ++ ": " ++
    ("tree-sitter finds " ++ toString (errors new - errors old) ++ " more syntax errors"))

/-- Each file of another language that tree-sitter reads, with its bytes before and after. -/
def trees (project : Project) (plan : Plan) : List (Place × Bytes) → Option (List (Place × Bytes × Bytes))
  | [] => some []
  | (path, data) :: written => do
      let rest ← trees project plan written
      if isPython path || isToml path || !parsers.language (Findings.suffix (spelled path)) then return rest
      else
        let source ← plan.source project path
        return (path, source.data, data) :: rest

/-- Each edited file that would no longer parse, with why. -/
def broken (project : Project) (grammar : Grammar) (plan : Plan) : Option (List String) := do
  let written ← plan.written project grammar
  let trees ← trees parsers project plan written
  return (written.filterMap fun entry => parsers.unparsed entry.1 entry.2) ++
    trees.filterMap fun entry => parsers.grown entry.1 entry.2.1 entry.2.2

end Parsers

namespace Consumers

variable (consumers : Consumers)

/-- The names of a list, each once and in their order. -/
def sorted (names : List Text) : List Text := names.eraseDups.insertionSort fun one other => Plan.precedes one other

/-- The names a module's edit takes from it, and those it takes positions from. -/
def lessened (before after : Bytes) : Option (List Text × List Text) := do
  let offered ← consumers.surface before
  let offers ← consumers.surface after
  let was ← consumers.positional before
  let now ← consumers.positional after
  let fewer := was.filter fun entry => decide ((OrderedMap.get now entry.1).getD entry.2 < entry.2)
  return (sorted (offered.filter fun name => decide (name ∉ offers)), sorted (fewer.map (·.1.1)))

/-- What an edit takes from a module's consumers: names they import and positions they may pass. -/
def narrowed (path : Place) (before after : Bytes) : List String := match consumers.lessened before after with
  | none => []
  | some (lost, fewer) =>
      (lost.filterMap fun name => (consumers.user (spelled path) name).map fun consumer =>
        spelled path ++ ": " ++ ("the fix removes \x60" ++ String.ofList name ++ "\x60, which " ++ consumer ++ " imports")) ++
      fewer.filterMap fun name => (consumers.user (spelled path) name).map fun consumer =>
        spelled path ++ ": " ++ ("the fix makes parameters of \x60" ++ String.ofList name ++ "\x60 keyword-only, and " ++
          consumer ++ " imports it, so its callers may pass them by position")

def isModule (path : Place) : Bool := decide (".py".toList <:+ (spelled path).toList)

/-- What the edited modules lose. -/
def lostBy (project : Project) (plan : Plan) : List (Place × Bytes) → Option (List String)
  | [] => some []
  | (path, data) :: edited => do
      let source ← plan.source project path
      let rest ← lostBy project plan edited
      return consumers.narrowed path source.data data ++ rest

/-- The complaint about a module a plan takes away. -/
def gone (path : Place) : Option String :=
  if isModule path then (consumers.userOfModule (spelled path)).map fun consumer =>
    spelled path ++ ": " ++ ("the fix removes the module, which " ++ consumer ++ " imports")
  else none

/-- `path: reason` for each file whose fixes would break a consumer's import. -/
def broken (project : Project) (grammar : Grammar) (plan : Plan) : Option (List String) := do
  let written ← plan.written project grammar
  let lost ← lostBy consumers project plan (written.filter fun entry => isModule entry.1)
  return lost ++ (plan.removed ++ plan.renamed.map (·.1)).filterMap consumers.gone

end Consumers

/-- A repair on offer: which one it is, its rule and its edits. -/
structure Candidate where
  id : ℕ
  rule : Text
  edits : List Edit
  deriving DecidableEq, Repr

/-- What a run of the loop carries from round to round: the withheld files, the refused repairs, what was broken and
why repairs were refused. -/
structure State where
  held : List String
  refused : List ℕ := []
  broken : List String := []
  refusals : List String := []
  deriving DecidableEq, Repr

/-- What one round of planning comes to. -/
inductive Round where
  | raised
  | planned (plan : Plan) (groups : List Candidate) (broken : List String)
  | again (state : State)
  deriving DecidableEq, Repr

/-- One planner: the project, its parsers and consumers, and the repairs on offer in rule order. -/
structure Planner where
  project : Project
  grammar : Grammar
  parsers : Parsers
  consumers : Consumers
  repairs : List Candidate

/-- Whether a repair touches a withheld file, up to its first edit that does or that raises. -/
def isHeld (held : List String) : List Edit → Option Bool
  | [] => some false
  | edit :: edits => do
      let path ← edit.file
      if isUnder path held then return true else isHeld held edits

/-- The repairs a plan takes: each unless refused, touching a withheld file, or overlapping one taken before. -/
def takenFrom (project : Project) (state : State) : Plan → List Candidate → Option (Plan × List Candidate)
  | plan, [] => some (plan, [])
  | plan, group :: candidates => do
      let held ← isHeld state.held group.edits
      if group.id ∈ state.refused ∨ held then takenFrom project state plan candidates
      else
        let answer ← plan.add project group.edits
        let rest ← takenFrom project state answer.1 candidates
        return (rest.1, if answer.2 then group :: rest.2 else rest.2)

namespace Planner

variable (planner : Planner) (state : State)

def taken : Option (Plan × List Candidate) := takenFrom planner.project state {} planner.repairs

/-- The repairs of which one edits a file that is named. -/
def near (names : List String) (groups : List Candidate) : List Candidate :=
  groups.filter fun group => (group.edits.filterMap Edit.file).any fun path => decide (spelled path ∈ names)

/-- The repairs that break a consumer's import without the others. -/
def alone : List Candidate → Option (List Candidate)
  | [] => some []
  | group :: groups => do
      let trial ← ({} : Plan).add planner.project group.edits
      let lost ← planner.consumers.broken planner.project planner.grammar trial.1
      let rest ← alone groups
      return if lost = [] then rest else group :: rest

/-- The repairs among `groups` that cause the lost names: each one alone, else every one in the files they name. -/
def refuse (groups : List Candidate) (lost : List String) : Option (List ℕ) := do
  let near := near (lost.map named) groups
  let alone ← planner.alone near
  return (if alone = [] then near else alone).map Candidate.id

/-- A plan that breaks nothing is the pass. A file it leaves unparsable is withheld and the pass planned again, as is,
where it breaks consumers' imports, a repair that breaks them. -/
def judged (plan : Plan) (groups : List Candidate) : Option Round := do
  let newly ← planner.parsers.broken planner.project planner.grammar plan
  if newly ≠ [] then
    return .again { state with broken := state.broken ++ newly, held := state.held ++ newly.map named }
  else
    let lost ← planner.consumers.broken planner.project planner.grammar plan
    if lost ≠ [] then
      let refused ← planner.refuse groups lost
      return .again { state with refused := state.refused ++ refused, refusals := (state.refusals ++ lost).eraseDups }
    else return .planned plan groups state.broken

/-- One round of the loop. -/
def round : Round := match (planner.taken state).bind fun taken => planner.judged state taken.1 taken.2 with
  | none => .raised
  | some round => round

/-- `plan`, for so many rounds: nothing where the loop has not left by then. -/
def plan : ℕ → State → Option Round
  | 0, _ => none
  | rounds + 1, state => match planner.round state with
    | .again next => plan rounds next
    | left => some left

end Planner

end Mainboard.Analysis.Planning
