import Mainboard.Vocabulary
import Mathlib.Data.List.Sort
import Mathlib.Logic.Function.Basic

/-! The spool a kept line shares between the center and its compute node: the files, the one way each is
written, and what the center judges from them. A claim is a link that fails when the name exists, so it is
never replaced; nothing removes a claim, an inbox entry or an exit artifact. -/

namespace Mainboard

/-- One queued job, immutable once published. -/
structure Submission where
  handle : String
  walltime : Int
  deriving DecidableEq, Repr

/-- Who owns a submission, written by the exclusive creation that makes the claim. -/
structure Claim where
  alloc : String := ""
  node : String := ""
  cancelled : Bool := false
  deriving DecidableEq, Repr

/-- What a line was opened for: the instant after which nothing is claimed or run. -/
structure LineSpec where
  deadline : Int
  deriving DecidableEq, Repr

/-- What a job needs beyond its walltime inside an allocation. -/
def LineSpec.grace : Int := 120

/-- What fencing an entry answers. -/
inductive Fence
  | exited
  | fenced
  | claimed
  deriving DecidableEq, Repr

structure Spool where
  inbox : List Submission
  claims : String → Option Claim
  cancel : String → Bool
  exits : String → Option Int
  line : Option LineSpec
  stop : Bool

namespace Spool

variable (spool : Spool)

/-- Publish an entry unless its name exists. -/
def put (entry : Submission) : Spool :=
  if entry.handle ∈ spool.inbox.map (·.handle) then spool else { spool with inbox := spool.inbox ++ [entry] }

/-- Take an entry; `none` when someone else already did. -/
def claim (handle : String) (claim : Claim) : Option Spool :=
  match spool.claims handle with
  | none => some { spool with claims := Function.update spool.claims handle (some claim) }
  | some _ => none

def tombstone (handle : String) : Spool := { spool with cancel := Function.update spool.cancel handle true }

/-- Replace a job's exit artifact. -/
def exit (handle : String) (status : Int) : Spool :=
  { spool with exits := Function.update spool.exits handle (some status) }

/-- Leave an exit artifact when the runner left none. -/
def record (handle : String) (status : Int) : Spool :=
  match spool.exits handle with
  | none => spool.exit handle status
  | some _ => spool

/-- The entries of the inbox as a server lists them, oldest first. -/
def listed : List Submission :=
  (spool.inbox.filter fun entry => "h".toList <+: entry.handle.toList).insertionSort
    fun left right => left.handle ≤ right.handle

end Spool

/-- Whether a job and its grace fit in the time remaining. -/
def Submission.fits (entry : Submission) (remaining : Int) : Bool := entry.walltime + LineSpec.grace ≤ remaining

/-- What the spool said about some handles, read in one command. -/
structure Facts where
  now : Int
  line : Option LineSpec
  stopped : Bool
  exits : String → Option Int
  claims : String → Option Claim
  queued : String → Bool

/-- One handle's state as a pass answers it. -/
structure JobState where
  handle : String
  state : Option String := none
  exitCode : Option Int := none
  verdict : Word
  stage : Option Word := none
  note : String := ""
  deriving DecidableEq, Repr

namespace Facts

variable (facts : Facts)

/-- The line is over in the center's terms. -/
def lineOver : Bool :=
  match facts.line with
  | none => true
  | some line => facts.stopped ∨ line.deadline + LineSpec.grace < facts.now

/-- A claimed job's state: cancelled, lost with its allocation, or running there. -/
def claimed (name : String) (claim : Claim) (ended : List String) : JobState :=
  if claim.cancelled then
    { handle := name, state := some Word.cancelled.value, verdict := .cancelled }
  else if claim.alloc ∈ ended then
    { handle := name
      verdict := .vanished
      note := "allocation " ++ claim.alloc ++ " ended while it ran, with no exit recorded" }
  else
    { handle := name
      state := some "running"
      verdict := .running
      stage := some .running
      note := if claim.node = "" then "" else "on " ++ claim.node }

/-- One handle's state from what the spool holds for it. -/
def judge (name : String) (ended : List String) : JobState :=
  match facts.exits name with
  | some code =>
      { handle := name
        state := some "artifact"
        exitCode := some code
        verdict := if code = 0 then .ok else .failed }
  | none =>
      match facts.claims name with
      | some claim => claimed name claim ended
      | none =>
          if facts.lineOver && facts.queued name then
            { handle := name
              state := some Word.cancelled.value
              verdict := .cancelled
              note := "its line ended before any allocation took it" }
          else if !facts.queued name then
            { handle := name, verdict := .vanished, note := "no spool record" }
          else
            { handle := name
              state := some "queued"
              verdict := .running
              stage := some .queued
              note := "waiting for the held allocation" }

/-- The allocations a pass asks about: the owners of the claims without an exit. -/
def owners (handles : List String) : List String :=
  ((handles.filter fun name => facts.exits name = none).filterMap fun name =>
    (facts.claims name).map (·.alloc)).filter (· ≠ "")

variable {facts} {name : String} {ended : List String}

/-- A verdict is about the handle it was asked for. -/
theorem judge_handle : (facts.judge name ended).handle = name := by
  unfold judge claimed
  split
  · rfl
  · split
    · split_ifs <;> rfl
    · split_ifs <;> rfl

/-- A pass gives CANCELLED on a cancelled claim, or on an entry still queued when the line is over. -/
theorem judge_cancelled : (facts.judge name ended).verdict = .cancelled ↔ facts.exits name = none ∧
    ((∃ claim, facts.claims name = some claim ∧ claim.cancelled = true) ∨
      facts.claims name = none ∧ facts.lineOver = true ∧ facts.queued name = true) := by
  unfold judge
  cases hexit : facts.exits name with
  | some code =>
      simp only [reduceCtorEq, false_and, iff_false]
      split_ifs <;> nofun
  | none =>
      cases hclaim : facts.claims name with
      | some claim =>
          simp only [claimed]
          split_ifs with hcancelled hended
          · simp [hcancelled]
          · simp [hcancelled]
          · simp [hcancelled]
      | none =>
          cases facts.lineOver <;> cases facts.queued name <;> simp

/-- A pass gives VANISHED on a claim whose allocation ended, or on a handle the spool holds nothing of. -/
theorem judge_vanished : (facts.judge name ended).verdict = .vanished ↔ facts.exits name = none ∧
    ((∃ claim, facts.claims name = some claim ∧ claim.cancelled = false ∧ claim.alloc ∈ ended) ∨
      facts.claims name = none ∧ facts.queued name = false) := by
  unfold judge
  cases hexit : facts.exits name with
  | some code =>
      simp only [reduceCtorEq, false_and, iff_false]
      split_ifs <;> nofun
  | none =>
      cases hclaim : facts.claims name with
      | some claim =>
          simp only [claimed]
          split_ifs with hcancelled hended
          · simp [hcancelled]
          · simp [hcancelled, hended]
          · simp [hcancelled, hended]
      | none =>
          cases facts.lineOver <;> cases facts.queued name <;> simp

end Facts

end Mainboard
