import Mathlib.Algebra.GroupWithZero.Nat
import Mathlib.Data.List.Dedup
import Mathlib.Data.List.Perm.Basic
import Mathlib.Data.List.Sort
import Mathlib.Data.Prod.Lex
import Mathlib.Data.String.Basic
import Mathlib.Order.WithBot
import Mainboard.OrderedMap

/-! What a store of trial receipts says about one lane: the runs in the order they opened, the samples each key
of the lane's grid has, and what it still owes. The answer is one of the receipts as a collection; the fragments
they are read from and their order do not enter it. -/

namespace Mainboard.Trials
open OrderedMap

/-- One trial's row, as far as a coverage question reads it. -/
structure Receipt where
  run : String
  lane : String
  key : String
  outcome : String
  admissibility : String := "unrecorded"
  opened : Option ℤ := none
  columns : List (String × String) := []
  deriving DecidableEq, Repr

/-- A row's value in a column, empty where its run predates it. -/
def Receipt.column (receipt : Receipt) (name : String) : String := (get receipt.columns name).getD ""

/-- Why an axis of a cell reads what it reads. -/
inductive Probed where
  | found
  | absent
  | failed
  | unasked
  deriving DecidableEq, Repr

def Probed.value : Probed → String
  | found => "found"
  | absent => "absent"
  | failed => "failed"
  | unasked => "unasked"

/-- One coordinate a coverage question is asked at, each axis's value beside its outcome. -/
structure Cell where
  values : List (String × String) := []
  probing : List (String × Probed) := []
  deriving DecidableEq, Repr

/-- Every column the cell pins. -/
def Cell.filters (cell : Cell) : List (String × String) :=
  ofPairs (cell.values ++ cell.probing.map fun axis => (axis.1 ++ "_probed", axis.2.value))

/-- Whether one lane's data exists at one cell, read across runs. -/
structure LaneStatus where
  lane : String
  want : ℕ
  «have» : ℕ
  missing : List String
  run : String := ""
  cell : Cell := {}
  node : String := ""
  deriving DecidableEq, Repr

/-- A store: the node it stores, the samples a cell owes, and the second a run's name spells. -/
structure Dataset where
  node : String := ""
  samples : ℕ := 1
  stamped : String → Option ℤ

/-- A row a claim may lean on: passed, with an identifiable tree. -/
def admissible (receipt : Receipt) : Bool :=
  decide (receipt.outcome = "passed") && decide (receipt.admissibility = "admissible")

abbrev Coordinate := ℕ ×ₗ ℤ ×ₗ String

/-- When a run opened, as something sortable: its recorded nanosecond, the second its name spells, or its name
before anything dated. -/
def openedAt (dataset : Dataset) (run : String) (recorded : WithBot ℤ) : Coordinate :=
  match recorded, dataset.stamped run with
  | some nanosecond, _ => toLex (1, toLex (nanosecond, ""))
  | none, some second => toLex (1, toLex (second * 1000000000, ""))
  | none, none => toLex (0, toLex (0, run))

/-- The newest creation coordinate a run's rows carry. -/
def recorded (receipts : List Receipt) (run : String) : WithBot ℤ :=
  ((receipts.filter fun receipt => receipt.run = run).map fun receipt => (receipt.opened : WithBot ℤ)).foldl max ⊥

/-- The coordinate that orders a run. -/
def opened (dataset : Dataset) (receipts : List Receipt) (run : String) : Coordinate :=
  openedAt dataset run (recorded receipts run)

/-- Every run held, oldest first; nothing where two of them opened at the same instant. -/
def runs (dataset : Dataset) (receipts : List Receipt) : Option (List String) :=
  let found := (receipts.map Receipt.run).dedup
  if (found.map (opened dataset receipts)).Nodup then
    some (found.insertionSort fun one other => opened dataset receipts one ≤ opened dataset receipts other)
  else none

/-- The rows that answer for a lane at a cell. -/
def wanted (lane : String) (cell : Cell) (receipt : Receipt) : Bool :=
  decide (receipt.lane = lane) && admissible receipt &&
    cell.filters.all fun column => decide (receipt.column column.1 = column.2)

/-- How many of the rows found are of a key. -/
def count (found : List Receipt) (key : String) : ℕ := (found.filter fun receipt => receipt.key = key).length

/-- The place among the runs of the newest one with a row found of a key, `-1` where there is none. -/
def newestOf (names : List String) (found : List Receipt) (key : String) : ℤ :=
  ((found.filter fun receipt => receipt.key = key).map fun receipt => (names.idxOf receipt.run : ℤ)).foldl max (-1)

/-- One lane's completeness at one cell, against the keys its grid would run and the samples each key owes. -/
def status (dataset : Dataset) (receipts : List Receipt) (lane : String) (expected : List String) (cell : Cell) :
    Option LaneStatus :=
  (runs dataset receipts).map fun names =>
    let found := receipts.filter (wanted lane cell)
    let keys := expected.dedup
    let latest := (keys.map (newestOf names found)).foldl max (-1)
    { lane, cell, node := dataset.node
      want := keys.length * dataset.samples
      «have» := (keys.map fun key => min (count found key) dataset.samples).sum
      missing := (keys.filter fun key => count found key < dataset.samples).insertionSort (· ≤ ·)
      run := if 0 ≤ latest then (names[latest.toNat]?).getD "" else "" }

/-! ### The answer is of the collection -/

section Collection

variable {receipts others : List Receipt} (h : receipts.Perm others)

include h

theorem recorded_perm (run : String) : recorded receipts run = recorded others run :=
  ((h.filter _).map _).foldl_eq _

theorem opened_perm (dataset : Dataset) : opened dataset receipts = opened dataset others := by
  funext run
  unfold opened
  rw [recorded_perm h]

/-- Runs whose coordinates differ have one order. -/
theorem runs_perm (dataset : Dataset) : runs dataset receipts = runs dataset others := by
  have hfound : (receipts.map Receipt.run).dedup.Perm (others.map Receipt.run).dedup := (h.map _).dedup
  unfold runs
  dsimp only
  rw [opened_perm h dataset]
  by_cases hdistinct : ((others.map Receipt.run).dedup.map (opened dataset others)).Nodup
  · have hdistinct' := ((hfound.map (opened dataset others)).nodup_iff).mpr hdistinct
    rw [if_pos hdistinct, if_pos hdistinct']
    congr 1
    let le : String → String → Prop := fun one other => opened dataset others one ≤ opened dataset others other
    have htotal : Std.Total le := ⟨fun one other => le_total _ _⟩
    have htrans : IsTrans String le := ⟨fun _ _ _ hone hother => le_trans hone hother⟩
    have hsorted : ∀ names : List String, (names.insertionSort le).Pairwise le :=
      fun names => List.pairwise_insertionSort le names
    refine List.Perm.eq_of_pairwise (fun one other hone hother hle hge => ?_) (hsorted _) (hsorted _)
      ((List.perm_insertionSort _ _).trans (hfound.trans (List.perm_insertionSort _ _).symm))
    have hin : one ∈ (others.map Receipt.run).dedup := hfound.mem_iff.mp ((List.mem_insertionSort le).mp hone)
    exact List.inj_on_of_nodup_map hdistinct hin ((List.mem_insertionSort le).mp hother) (le_antisymm hle hge)
  · have hdistinct' := fun hnodup => hdistinct (((hfound.map (opened dataset others)).nodup_iff).mp hnodup)
    rw [if_neg hdistinct, if_neg hdistinct']

theorem count_perm : count receipts = count others := by
  funext key
  exact (h.filter _).length_eq

theorem newestOf_perm (names : List String) : newestOf names receipts = newestOf names others := by
  funext key
  exact ((h.filter _).map _).foldl_eq _

/-- Receipts that are the same collection have the same status. -/
theorem status_perm (dataset : Dataset) (lane : String) (expected : List String) (cell : Cell) :
    status dataset receipts lane expected cell = status dataset others lane expected cell := by
  have hfound := h.filter (wanted lane cell)
  unfold status
  rw [runs_perm h dataset]
  refine congrArg (fun answer => (runs dataset others).map answer) (funext fun names => ?_)
  dsimp only
  rw [count_perm hfound, newestOf_perm hfound]

end Collection

end Mainboard.Trials
