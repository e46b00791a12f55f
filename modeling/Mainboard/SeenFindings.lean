import Mathlib.Data.List.Dedup
import Mathlib.Data.Prod.Lex
import Mathlib.Data.String.Basic
import Mainboard.FindingShapes
import Mainboard.OrderedMap
import Mainboard.StableSort
import Mainboard.Tallies

/-! What each file's findings were when last checked. A finding counts by a fingerprint that holds no path, and a
check compares, for each fingerprint, how many findings the paths it covers hold now and held then. The findings of
recorded files no longer on disk join a pool, from which growth is drawn first; what is left is new, and is picked
path by path. Counters of positive counts are multisets of fingerprints. -/

namespace Mainboard.Findings

/-- A rule of the catalog; its name holds no tab. -/
structure Rule where
  name : String
  plain : '\t' ∉ name.toList
  deriving DecidableEq

/-- Findings by rule. -/
structure Report where
  found : List (Rule × List Row)
  nodup : (found.map (·.1)).Nodup

/-- A finding with its fingerprint and its rule. -/
structure Keyed where
  key : String
  rule : Rule
  row : Row
  deriving DecidableEq

/-- What is kept between checks: each file's findings by fingerprint, and the pool. -/
structure Record where
  files : List (String × Multiset String) := []
  pool : Multiset String := 0
  nodup : (files.map (·.1)).Nodup := by simp

/-- One check: the report, the files it is asked for, the paths git calls changed or untracked, what is on disk, and
the lines of the files that can be read. -/
structure Check where
  report : Report
  files : List String
  changed : List String
  lexists : String → Bool
  lines : String → Option (List String)

variable (classes : Classes)

/-- The rule of a fingerprint. -/
def ruleOf (key : String) : String := String.ofList (key.toList.takeWhile (· != '\t'))

namespace Check

/-- The rules the check ran. -/
def ran (check : Check) : List Rule := check.report.found.map (·.1)

/-- Whether a fingerprint is of a rule the check ran. -/
def runs (check : Check) (key : String) : Bool := check.ran.any fun rule => rule.name == ruleOf key

/-- A finding's fingerprint: its rule, its message's shape and its anchor. -/
def fingerprint (check : Check) (rule : Rule) (row : Row) : String :=
  "\t".intercalate [rule.name, shape classes row.message, anchor classes check.lines row]

/-- Every finding of a report, with its fingerprint. -/
def keyedOf (check : Check) (report : Report) : List Keyed :=
  report.found.flatMap fun entry => entry.2.map fun row => ⟨check.fingerprint classes entry.1 row, entry.1, row⟩

/-- The findings in a path. -/
def keyed (check : Check) (path : String) : List Keyed :=
  (check.keyedOf classes check.report).filter fun found => found.row.path = path

/-- How often each fingerprint is found in a path. -/
def now (check : Check) (path : String) : Multiset String := Tallies.tally Keyed.key (check.keyed classes path)

/-- The recorded paths no longer on disk. -/
def gone (check : Check) (record : Record) : List String :=
  (record.files.map (·.1)).filter fun path => !check.lexists path

/-- The paths the record or the report counts findings in. -/
def counted (check : Check) (record : Record) : List String :=
  record.files.map (·.1) ++ check.report.found.flatMap fun entry => entry.2.map (·.path)

/-- The paths whose findings are compared: the files asked for and the changed ones that count, on disk. -/
def covered (check : Check) (record : Record) : List String :=
  (check.files ++ check.changed.filter fun path => (check.counted record).any (· == path)).dedup.filter fun path =>
    !(check.gone record).any (· == path)

end Check

namespace Record

/-- What a path held when last recorded. -/
def counts (record : Record) (path : String) : Multiset String := (OrderedMap.get record.files path).getD 0

/-- What a path held when last recorded, of the rules a check ran. -/
def held (record : Record) (check : Check) (path : String) : Multiset String :=
  (record.counts path).filter fun key => check.runs key

/-- The pool with the findings of the vanished paths. -/
def pooled (record : Record) (check : Check) : Multiset String :=
  record.pool + ((check.gone record).map record.counts).sum

/-- How far each fingerprint grew over the covered paths. -/
def grown (record : Record) (check : Check) : Multiset String :=
  ((check.covered record).map (check.now classes)).sum - ((check.covered record).map (record.held check)).sum

/-- What grew beyond what the pool held. -/
def unmatched (record : Record) (check : Check) : Multiset String :=
  record.grown classes check - record.grown classes check ∩ record.pooled check

/-- A path's counts recorded: those of the rules run replaced, the others kept. -/
def recordedAt (record : Record) (check : Check) (path : String) : Multiset String :=
  let kept := (record.counts path).filter fun key => !check.runs key
  (kept.filter fun key => (check.now classes path).count key = 0) + check.now classes path

/-- The record after a check. -/
def after (record : Record) (check : Check) : Record where
  files := OrderedMap.putAll (record.files.filter fun entry => check.lexists entry.1)
    ((check.covered record).map fun path => (path, record.recordedAt classes check path))
  pool := record.pooled check - record.grown classes check ∩ record.pooled check
  nodup := OrderedMap.nodup_keys_putAll (record.nodup.sublist (List.filter_sublist.map _)) _

end Record

/-- Rows in order. -/
def inOrder (found : Keyed) : String ×ₗ ℕ ×ₗ ℕ ×ₗ String :=
  toLex (found.row.path, toLex (found.row.line, toLex (found.row.column, found.row.message)))

/-- The findings picked of the given paths: as many of each fingerprint as are new, of the paths it grew in, paths
and rows in order. -/
def picked (check : Check) (record : Record) (paths : List String) : List Keyed :=
  (Tallies.Picking.pickAll Keyed.key (fun path => StableSort.sortOn inOrder (check.keyed classes path))
    (fun path => check.now classes path - record.held check path) ⟨0, record.unmatched classes check, []⟩
    (StableSort.sortOn id paths)).picked

/-- The picked findings by rule. -/
def Check.reportOf (check : Check) (picked : List Keyed) : Report where
  found := check.ran.map fun rule => (rule, (picked.filter fun found => found.rule = rule).map (·.row))
  nodup := by
    rw [List.map_map]
    exact (List.map_id check.ran).symm ▸ check.report.nodup

/-- The findings of the files beyond what was recorded, and the record of this check. The first check of a project
reports nothing. -/
def fresh (record : Record) (check : Check) : Report × Record :=
  let first := record.files.isEmpty && decide (record.pool = 0)
  let paths := if first then [] else check.files.dedup.filter fun path => !(check.gone record).any (· == path)
  (check.reportOf (picked classes check record paths), record.after classes check)

end Mainboard.Findings
