import Mainboard.KeyedLog
import Mainboard.Vocabulary
import Mathlib.Data.List.Sort
import Mathlib.Data.List.Dedup

/-! The run registry's records and the reads of its append-only log: the record an identity stands
at, the listings, and the lookup of a run by the spelling an operator types. Instants are integers
(microseconds), which is how the registry's UTC stamps order. -/

namespace Mainboard

/-- The release deadline of an accepted rental quote; the rest of the quote decides nothing here. -/
structure Lease where
  releaseBy : Int
  deriving DecidableEq, Repr

/-- The original request of a held dispatch. -/
structure Request where
  target : String
  command : String
  name : String
  node : String
  fetch : Option String
  deriving DecidableEq, Repr

/-- What identifies a run: a scheduler handle alone does not, since handles are reissued. -/
structure Identity where
  target : String
  handle : String
  submittedAt : Int
  deriving DecidableEq, Repr

/-- One dispatched job's record, the fields its later life reads or writes. -/
structure RunRecord where
  handle : String
  target : String
  kind : String := ""
  script : String := ""
  submittedAt : Int
  fetchPath : Option String := none
  name : String := ""
  node : String := ""
  digest : String := ""
  state : Option String := none
  exitCode : Option Int := none
  verdict : Option String := none
  reported : Option String := none
  evidence : String := ""
  creation : String := ""
  request : Option Request := none
  lease : Option Lease := none
  reason : String := ""
  project : String := ""
  deriving DecidableEq, Repr

namespace RunRecord

def identity (run : RunRecord) : Identity := ⟨run.target, run.handle, run.submittedAt⟩

/-- The name a listing prints for a run: its label, else the script it was submitted as. -/
def label (run : RunRecord) : String := if run.name = "" then run.script else run.name

@[simp] theorem identity_target (run : RunRecord) : run.identity.target = run.target := rfl

@[simp] theorem identity_handle (run : RunRecord) : run.identity.handle = run.handle := rfl

@[simp] theorem identity_submittedAt (run : RunRecord) :
    run.identity.submittedAt = run.submittedAt := rfl

theorem identity_eq_iff {left right : RunRecord} : left.identity = right.identity ↔
    left.target = right.target ∧ left.handle = right.handle ∧ left.submittedAt = right.submittedAt := by
  simp [identity]

/-- Nobody has a terminal verdict for the run yet. -/
def unsettled (run : RunRecord) : Bool := !terminal run.verdict

/-- A durable sweep still owes the run its outcome: unsettled, or settled and not reported so. -/
def tracked (run : RunRecord) : Bool := run.unsettled || run.reported != run.verdict

end RunRecord

/-- What an operation of the registry raises, with the values its message names. -/
inductive Refusal
  | unregistered (handle target : String)
  | noRecordedRun (handle target : String)
  | severalRuns (handle : String) (candidates : List String)
  | noSubmittingCreation (creation target : String)
  | noCreation (label target : String)
  | invalidPrepared (verdict : String)
  | notPrepared (creation : String)
  | notSubmitting (creation : String)
  | unresolvedCreation (label target : String)
  deriving DecidableEq, Repr

/-- The log of whole records; a removal appends the record it removes, marked as dropped. -/
abbrev Registry := List (KeyedLog.Entry RunRecord)

namespace Registry

variable (log : Registry)

/-- The current record of an identity, `none` when it was never recorded or was dropped. -/
def at? (identity : Identity) : Option RunRecord := KeyedLog.current RunRecord.identity log identity

/-- Every current run, the newest dispatch first. -/
def newest : List RunRecord :=
  (KeyedLog.live RunRecord.identity log).insertionSort fun left right =>
    right.submittedAt ≤ left.submittedAt

/-- Every current run on `target`, every run when `target` is empty. -/
def on (target : String) : List RunRecord :=
  if target = "" then log.newest else log.newest.filter fun run => run.target = target

/-- The run an operator's spelling names: the newest with that handle, else the newest so labelled. -/
def run (handle target : String) : Except Refusal RunRecord :=
  let every := log.on target
  let dispatched := every.filter fun run => run.handle = handle
  let named := (every.filter fun run => run.label = handle).insertionSort fun left right =>
    left.submittedAt ≤ right.submittedAt
  let runs := if dispatched = [] then named.getLast?.toList else dispatched
  let candidates := (runs.map fun run => run.target ++ " " ++ run.handle).dedup
  match runs with
  | [] => .error (.noRecordedRun handle target)
  | first :: _ =>
      if 1 < candidates.length
      then .error (.severalRuns handle (candidates.insertionSort (· ≤ ·)))
      else .ok first

/-- The row recording a run. -/
def put (run : RunRecord) : Registry := log ++ [⟨run, false⟩]

/-- The row removing a run. -/
def drop (run : RunRecord) : Registry := log ++ [⟨run, true⟩]

variable {log}

@[simp] theorem at?_nil (identity : Identity) : at? [] identity = none := rfl

@[simp] theorem at?_put (run : RunRecord) (identity : Identity) :
    (log.put run).at? identity = if run.identity = identity then some run else log.at? identity :=
  KeyedLog.current_put _ _ _ _

@[simp] theorem at?_drop (run : RunRecord) (identity : Identity) :
    (log.drop run).at? identity = if run.identity = identity then none else log.at? identity :=
  KeyedLog.current_drop _ _ _ _

theorem identity_of_at? {identity : Identity} {run : RunRecord} (h : log.at? identity = some run) :
    run.identity = identity := KeyedLog.key_of_current _ h

theorem mem_newest {run : RunRecord} : run ∈ log.newest ↔ log.at? run.identity = some run := by
  rw [newest, List.mem_insertionSort, KeyedLog.mem_live]
  rfl

theorem mem_on {run : RunRecord} {target : String} :
    run ∈ log.on target ↔ log.at? run.identity = some run ∧ (target = "" ∨ run.target = target) := by
  by_cases hempty : target = ""
  · simp [on, hempty, mem_newest]
  · simp [on, hempty, mem_newest]

end Registry

end Mainboard
