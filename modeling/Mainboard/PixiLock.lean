import Mathlib.Order.Lex
import Mathlib.Data.List.Lex
import Mathlib.Data.Char
import Mainboard.BlockLines
import Mainboard.Grouping
import Mainboard.OrderedMap
import Mainboard.StableSort

/-! The canonical lock. Pixi's lock names a platform by a label of its own choice and lists the labelled
blocks, the roster's and those of every environment's packages mapping, in the labels' order. The canonical
text names every platform by the subdirectory it solves for, with a rank among the platforms that share one,
and lists the blocks in the order of these names; the rest of the text stays. The YAML parse is taken as it
is read here: the fields of the roster's entries and the keys of the mappings, with the lines and the columns
they are spelled at and the line each run of labelled blocks ends at. -/

namespace Mainboard.Pixi

/-- A line of a lock, or what a scalar of it spells. -/
abbrev Line := List Char

/-- A scalar of the parse: its value, the line it is on and the columns it is spelled between. -/
structure Scalar where
  value : Line
  line : ℕ
  start : ℕ
  stop : ℕ
  deriving DecidableEq

/-- An entry of the `platforms` sequence, by the fields read from it. -/
structure Entry where
  name : Option Scalar
  subdir : Option Line
  deriving DecidableEq

/-- A `packages` mapping: its keys with the fields of each entry listed under them, and the line it ends at. -/
structure Mapping where
  keys : List (Scalar × List (List (Line × Line)))
  stop : ℕ
  deriving DecidableEq

/-- A parsed lock: the roster, the line it ends at, and each environment's `packages` mapping by its name. -/
structure Tree where
  entries : List Entry
  rosterStop : ℕ
  environments : List (Line × Option Mapping)
  deriving DecidableEq

/-- The scalars spelling a run of labels, and the line the run ends at. -/
structure Run where
  labels : List Scalar
  stop : ℕ
  deriving DecidableEq

/-- Each platform of the roster: the scalar spelling its label, and its subdirectory, which is the label
where none is written. -/
def platforms (tree : Tree) : List (Scalar × Line) :=
  tree.entries.filterMap fun entry => entry.name.map fun name => (name, entry.subdir.getD name.value)

/-- The lines of each label's block: from the line spelling it to the line spelling the next. -/
def blocks (run : Run) (lines : List Line) : List (List Line) :=
  BlockLines.between lines (run.labels.map (·.line) ++ [run.stop])

/-- The name of the platform of a rank among so many that share a subdirectory. -/
def nameOf (subdir : Line) (sharing rank : ℕ) : Line :=
  if sharing = 1 then subdir else subdir ++ '#' :: Nat.toDigits 10 rank

/-- The names of labelled bodies: the bodies of one subdirectory are ranked by their texts. -/
def assigned (bodies : List (Line × Line × Line)) : List (Line × Line) :=
  OrderedMap.ofPairs ((Grouping.groupBy (·.2.1) (StableSort.sortOn (·.2.1) bodies)).flatMap fun group =>
    let ranked := StableSort.sortOn (·.2.2) group.2
    ranked.zipIdx.map fun entry => (entry.1.1, nameOf group.1 ranked.length entry.2))

/-- Every platform label with its replacement. A platform's body is its block without the line of its label. -/
def naming (platforms : List (Scalar × Line)) (blocks : List (List Line)) : List (Line × Line) :=
  assigned ((platforms.zip blocks).map fun entry =>
    (entry.1.1.value, entry.1.2, ['\n'].intercalate (entry.2.drop 1)))

/-- An environment's packages mapping as a run: its keys that name a platform, where it has any. -/
def mappingRun (naming : List (Line × Line)) : Line × Option Mapping → List Run
  | (_, none) => []
  | (_, some mapping) =>
      let keys := (mapping.keys.map (·.1)).filter fun key => (OrderedMap.get naming key.value).isSome
      if keys = [] then [] else [⟨keys, mapping.stop⟩]

/-- The packages mappings of the environments. -/
def mappings (tree : Tree) (naming : List (Line × Line)) : List Run := tree.environments.flatMap (mappingRun naming)

/-- A block with its label's spelling replaced. -/
def respelled (label : Scalar) (name : Line) : List Line → List Line
  | [] => []
  | first :: rest => (first.take label.start ++ name ++ first.drop label.stop) :: rest

/-- The run's blocks, each under its new name, in the order of the names. -/
def ordered (run : Run) (lines : List Line) (naming : List (Line × Line)) : List Line :=
  let named := (run.labels.zip (blocks run lines)).map fun entry =>
    -- every label of a run has a name
    let name := (OrderedMap.get naming entry.1.value).getD entry.1.value
    (name, respelled entry.1 name entry.2)
  (StableSort.sortOn (·.1) named).flatMap (·.2)

/-- Copy the lines up to a run, and then the run in its new order. -/
def rewrite (lines : List Line) (naming : List (Line × Line)) (done : List Line × ℕ) (run : Run) : List Line × ℕ :=
  match run.labels with
  | [] => done
  | label :: _ => (done.1 ++ (lines.drop done.2).take (label.line - done.2) ++ ordered run lines naming, run.stop)

/-- The lock's lines with every platform label replaced by its platform's name, and every run of labelled
blocks in the order of the names. -/
def canonical (lines : List Line) (tree : Tree) : List Line :=
  if platforms tree = [] then lines else
  let roster : Run := ⟨(platforms tree).map (·.1), tree.rosterStop⟩
  let names := naming (platforms tree) (blocks roster lines)
  let done := (StableSort.sortOn (·.stop) (roster :: mappings tree names)).foldl (rewrite lines names) ([], 0)
  done.1 ++ lines.drop done.2

/-- Every package location the lock installs, by subdirectory; of one environment where it is named. -/
def packages (tree : Tree) (environment : Line) : List (Line × List Line) :=
  let subdirs := OrderedMap.ofPairs ((platforms tree).map fun platform => (platform.1.value, platform.2))
  let wanted := tree.environments.filter fun named => environment = [] ∨ environment = named.1
  (wanted.flatMap fun named => (named.2.map (·.keys)).getD []).foldl (fun found entry =>
    let subdir := (OrderedMap.get subdirs entry.1.value).getD entry.1.value
    OrderedMap.put found subdir
      ((OrderedMap.get found subdir).getD [] ++ entry.2.flatMap fun fields => fields.map (·.2))) []

end Mainboard.Pixi
