import Mathlib.Data.Finset.Card
import Mainboard.Receipts

/-! The settled rows of one stream and its exit code. A job's row is folded from its newest answer and its
newest line per topic; the newest delivery status under the row's target and handle then withholds it unless
that status is benign. -/

namespace Mainboard.Verdicts
open OrderedMap StandingLines Receipts

/-- The exit code of every verdict a row may read. -/
def exits : List (String × ℕ) :=
  [(Word.ok.value, 0), ("passed", 0), (Word.failed.value, 1), ("refused", 1), (Word.timeout.value, 1),
    (Word.cancelled.value, 1), (Word.running.value, 2), (Word.held.value, 2), (Word.skipped.value, 0),
    ("blocked", 2), ("", 2), (Word.queued.value, 2), (Word.prepared.value, 2), (Word.submitting.value, 2)]

def incomplete : String := "evidence settlement is incomplete"

def unverified : String := "unverified"

/-- One job as its receipts left it. -/
structure TrialVerdict where
  job : String
  run : String := ""
  handle : String := ""
  target : String := ""
  node : String := ""
  state : String := ""
  verdict : String := ""
  exitCode : Option Int := none
  detail : String := ""
  contended : String := ""
  deriving DecidableEq, Repr

/-- The exit code of a verdict, 3 for a word outside the table. -/
def exitOf (verdict : String) : ℕ := (get exits verdict).getD 3

def TrialVerdict.code (trial : TrialVerdict) : ℕ := exitOf trial.verdict

/-- A field that says something. -/
def said (field : Option String) : Bool := field.any fun text => text ≠ ""

section Rows

variable {τ : Type} [LinearOrder τ]

/-- The identity and the time of the event belong to the submission. -/
def belongs (submission event : Event τ) : Bool :=
  submission.published ≤ event.published && submission.data.handle == event.data.handle &&
    (!(said submission.data.target && said event.data.target) || submission.data.target == event.data.target) &&
    (!(said submission.data.submittedAt && said event.data.submittedAt) ||
      submission.data.submittedAt == event.data.submittedAt)

/-- Keep a state only when its identity and time belong to this submission. -/
def matching (event : Option (Event τ)) (submission : Event τ) : Option (Event τ) :=
  event.filter (belongs submission)

/-- What a job's attestation says it started under. -/
def contention (attestation : Option (Event τ)) : String :=
  match attestation with
  | none => ""
  | some line => if line.data.idle then "" else "gpu " ++ line.data.gpuPct ++ "% busy at start"

/-- One job a wave was told to leave out, as a row that is already over. -/
def unselected (job : String) (skip : Event τ) : TrialVerdict :=
  { job, target := skip.data.target.getD "", state := Word.skipped.value, verdict := Word.skipped.value,
    detail := skip.data.reason }

/-- One job's row, from the newest answer about it and its latest line per topic. -/
def joined (job : String) (answer : Event τ) (state ended attestation : Option (Event τ)) : TrialVerdict :=
  let target := answer.data.target.getD ""
  if answer.topic = .held ∨ answer.topic = .refused then
    let held := answer.topic = .held
    { job, target, state := if held then Word.held.value else "",
      verdict := if held then Word.held.value else "refused", detail := answer.data.reason }
  else
    let state := matching state answer
    let ended := matching ended answer
    let flying := (state.map (·.data.verdict)).getD ""
    let row : TrialVerdict :=
      { job, handle := answer.data.handle.getD "", target, node := answer.data.node,
        state := (state.map (·.data.state)).getD "",
        verdict := if flying = "" then Word.running.value else flying, contended := contention attestation }
    match ended with
    | none => row
    | some line =>
        { row with verdict := line.data.verdict, exitCode := line.data.exitCode, detail := line.data.detail }

/-- The targets the submissions under a handle named. -/
def targets (events : List (Event τ)) (handle : String) : Finset String :=
  ((events.filter fun event => event.topic = .submitted ∧ event.data.handle.getD "" = handle).map
    fun event => event.data.target.getD "").toFinset

/-- The events that name a target, or whose handle was taken on one target at most. -/
def identified (events : List (Event τ)) : List (Event τ) :=
  events.filter fun event =>
    said event.data.target || ((targets events (event.data.handle.getD "")).erase "").card ≤ 1

/-- The row of one job: from its answers, or from its skip where nothing was ever offered. -/
def rowFor (events : List (Event τ)) (job : String) : Option TrialVerdict :=
  match get (offered events) job with
  | some answer => some (joined job answer (get (latest (identified events) [.state]) job)
      (get (latest (identified events) [.settled]) job) (get (latest events [.attested]) job))
  | none => (get (latest events [.skipped]) job).map (unselected job)

/-- The jobs answered for or left out, in first-seen order. -/
def jobs (events : List (Event τ)) : List String :=
  (ofPairs ((offered events ++ latest events [.skipped]).map fun entry => (entry.1, ()))).map (·.1)

/-- Every job's settled row out of one stream's events. -/
def eventful (events : List (Event τ)) : List TrialVerdict := (jobs events).filterMap (rowFor events)

/-- The (run, case) pairs an evidence line names, any entry of another shape skipped. -/
def cases (event : Event τ) : List (String × String) :=
  event.data.trials.filterMap fun entry =>
    match entry with
    | [run, case] => some (run, case)
    | _ => none

/-- What an evidence line's status is kept under. -/
def identity (event : Event τ) : String × String × String :=
  (event.data.handle.getD "", event.data.target.getD "", event.data.submittedAt.getD "")

/-- The events by time, those of one time as they came. -/
def sorted (events : List (Event τ)) : List (Event τ) :=
  events.mergeSort fun one other => decide (one.published ≤ other.published)

/-- The newest evidence line of every identity, in the order the identities were met. -/
def statuses (events : List (Event τ)) : List (Event τ) :=
  (heads identity ((sorted events).filter fun event => event.topic = .evidence)).map (·.2)

/-- The delivery status a row is read under. -/
def status (events : List (Event τ)) (trial : TrialVerdict) : Option (Event τ) :=
  let handles := ofPairs ((statuses events).map fun event =>
    ((event.data.target.getD "", event.data.handle.getD ""), event))
  let cases := ofPairs ((statuses events).flatMap fun event => (cases event).map fun case => (case, event))
  ((get handles (trial.target, trial.handle)).or (get handles ("", trial.handle))).or
    (get cases (trial.run, trial.job))

/-- The row under its delivery status, withheld unless that status is benign. -/
def corrected (trial : TrialVerdict) (status : Option (Event τ)) : TrialVerdict :=
  match status with
  | none => trial
  | some event =>
      if event.data.status = "verified" ∨ event.data.status = "not_started" then trial
      else { trial with
        verdict := if event.data.status = unverified then unverified else "blocked"
        detail := if event.data.detail = "" then incomplete else event.data.detail }

/-- Overlay delivery corrections; the computation's own lines stay as they are. -/
def qualified (trials : List TrialVerdict) (events : List (Event τ)) : List TrialVerdict :=
  trials.map fun trial => corrected trial (status events trial)

/-- The rows a stream of events reads as. -/
def verdicts (events : List (Event τ)) : List TrialVerdict := qualified (eventful events) events

/-- The row of one job in what a stream reads as. -/
def row (events : List (Event τ)) (job : String) : Option TrialVerdict :=
  (verdicts events).find? fun trial => trial.job = job

end Rows

end Mainboard.Verdicts
