import Mainboard.RegistryOperations
import Mainboard.Runs

/-! The settlement machine: the registry, at most one settlement pass (it holds the settlement lock) and
any number of deadline passes (they take no lock), each moving one registry operation or one outside
effect at a time. Creation intents are taken up by neither; the placeholders a settlement pass asks for again
have no job to settle and are followed apart, among the held requests. -/

namespace Mainboard

/-- What a pass did for one submission beside the registry's fields: an evidence status recorded, or what
the run held released. -/
inductive Deed
  | recorded (identity : Identity) (status : String)
  | released (identity : Identity)
  deriving DecidableEq

/-- The words a backend answers a probe with: the live ones and the settled ones. -/
abbrev Polled := { word : Word // word = .queued ∨ word = .running ∨ word.settled = true }

/-- One tracked record a pass listed, with the state its target answered. -/
structure Probe where
  record : RunRecord
  state : Option String
  exitCode : Option Int
  verdict : Polled

/-- What a target answers of a run that completed. -/
def Probe.completed (run : RunRecord) : Probe := ⟨run, some "done", some 0, ⟨.ok, .inr (.inr rfl)⟩⟩

/-- How the collection and the check of a finished run's evidence ended. -/
inductive Harvest
  | fault
  | verified
  | unverifiable
  deriving DecidableEq, Repr

/-- Where a settlement pass stands with the run in its hand; `seen` is the row as it last read or wrote it. -/
inductive SettleStage
  | ready
  | unlaunched (probe : Probe) (discarded : Bool) (seen : RunRecord)
  | unlaunchedReleased (probe : Probe) (seen : RunRecord)
  | recorded (probe : Probe) (seen : RunRecord)
  | harvesting (probe : Probe) (seen : RunRecord)
  | copied (probe : Probe) (why : Bool) (seen : RunRecord)
  | released (probe : Probe) (why : Bool) (seen : RunRecord)
  | delivered (probe : Probe) (seen : RunRecord)

/-- Where a deadline pass stands with the rental in its hand. -/
inductive DeadlineStage
  | ready
  | taken (current : RunRecord) (copied : Bool)
  | written (current : RunRecord) (copied : Bool) (seen : RunRecord)
  | cancelled (current : RunRecord) (copied : Bool) (seen : RunRecord)
  | resolved (current : RunRecord) (copied : Bool)
  | closed (current : RunRecord) (seen : RunRecord)

structure SettlePass where
  todo : List Probe
  stage : SettleStage

structure DeadlinePass where
  todo : List RunRecord
  stage : DeadlineStage

/-- The registry, the pass that holds the settlement lock, the deadline passes, and what was done. -/
structure Settling where
  log : Registry
  pass : Option SettlePass
  deadlines : List DeadlinePass
  deeds : List Deed

inductive SettleMove
  | take
  | release (ok : Bool)
  | harvest (outcome : Harvest)
  | advance
  deriving DecidableEq, Repr

/-- A fault ends the rental in hand: its row is a failed one of the report and is retried. -/
inductive DeadlineMove
  | take (now : Int)
  | write (recorded : Bool)
  | cancel
  | advance
  | fault
  deriving DecidableEq, Repr

inductive SettlingStep
  | submit (run : RunRecord)
  | begin (listed : List Probe)
  | settle (move : SettleMove)
  | die
  | expire (listed : List RunRecord)
  | deadline (index : Nat) (move : DeadlineMove)

/-- The delivery statuses that say a run's evidence already arrived. -/
def copiedStatus (status : String) : Bool := status = "copied" ∨ status = "verified"

/-- Why a provider creation with no confirmed handle is only reported. -/
def uncreated (run : RunRecord) : Bool :=
  run.verdict = some Word.prepared.value ∨ run.verdict = some Word.submitting.value

/-- A submission as a dispatch records it: a fresh identity, unsettled, unreported, nothing collected. -/
def Submittable (log : Registry) (run : RunRecord) : Prop :=
  log.at? run.identity = none ∧ run.reported = none ∧
    (run.verdict = none ∨ run.verdict = some Word.queued.value ∨ run.verdict = some Word.running.value) ∧
    (run.evidence = "" ∨ run.evidence = "pending" ∨ run.evidence = "not_started")

/-- A record a pass may hold with that state: tracked, handed to some target, and asked of it unless its
own verdict already is terminal. -/
def Probed (log : Registry) (probe : Probe) : Prop :=
  log.at? probe.record.identity = some probe.record ∧ probe.record.tracked = true ∧
    probe.record.verdict ≠ some Word.held.value ∧ uncreated probe.record = false ∧
    (terminal probe.record.verdict = true → probe.record.verdict = some probe.verdict.1.value ∧
      probe.state = probe.record.state ∧ probe.exitCode = probe.record.exitCode)

/-- A rental a deadline pass lists: tracked and leased, its creation confirmed. -/
def Expiring (log : Registry) (run : RunRecord) : Prop :=
  log.at? run.identity = some run ∧ run.tracked = true ∧ run.lease.isSome = true ∧ uncreated run = false

instance (log : Registry) (run : RunRecord) : Decidable (Submittable log run) :=
  inferInstanceAs (Decidable (_ ∧ _))

instance (log : Registry) (probe : Probe) : Decidable (Probed log probe) :=
  inferInstanceAs (Decidable (_ ∧ _))

instance (log : Registry) (run : RunRecord) : Decidable (Expiring log run) :=
  inferInstanceAs (Decidable (_ ∧ _))

/-- Whether the lease's release must take precedence at an instant. -/
def leaseExpired (run : RunRecord) (now : Int) : Bool := run.lease.any fun lease => lease.releaseBy ≤ now

/-- What a settled run is carried to: unlaunched when nothing is there to collect, else harvested. -/
def Probe.taken (probe : Probe) (current : RunRecord) : SettleStage :=
  if probe.verdict.1.settled then
    let discarded : Bool := probe.state = some Word.cancelled.value ∧ current.evidence = "unverified"
    if current.evidence = "not_started" ∨ discarded then .unlaunched probe discarded current
    else .harvesting probe current
  else .ready

/-- The verdict a deadline reports: the row's own, a timeout when it has none. -/
def reportedVerdict (current : RunRecord) : String :=
  match current.verdict with
  | some verdict => if verdict = "" then Word.timeout.value else verdict
  | none => Word.timeout.value

namespace Settling

variable (lifecycle : Lifecycle) (s : Settling)

def resolve (run : RunRecord) (state : Option String) (exitCode : Option Int) (verdict : String) :
    Option (Settling × RunRecord) :=
  match s.log.resolve lifecycle run state exitCode verdict with
  | .ok (log, row) => some ({ s with log }, row)
  | .error _ => none

/-- `Settlement.evidence`: the delivery status in the registry, its event beside it. -/
def evidence (run : RunRecord) (status : String) : Option (Settling × RunRecord) :=
  match s.log.delivery run status with
  | .ok (log, row) => some ({ s with log, deeds := s.deeds ++ [.recorded run.identity status] }, row)
  | .error _ => none

def report (run : RunRecord) (verdict : String) : Option Settling :=
  match s.log.report run verdict with
  | .ok (log, _) => some { s with log }
  | .error _ => none

def release (run : RunRecord) : Settling := { s with deeds := s.deeds ++ [.released run.identity] }

/-- The pass goes on with the run in its hand at another stage. -/
def stand (todo : List Probe) (stage : SettleStage) : Settling := { s with pass := some ⟨todo, stage⟩ }

/-- The pass is over and its lock free. -/
def closed : Settling := { s with pass := none }

/-- One move of the pass that holds the lock. A registry that does not know the run ends the pass. -/
def settle (pass : SettlePass) (move : SettleMove) : Settling :=
  match move, pass.stage with
  | .take, .ready =>
      match pass.todo with
      | [] => s
      | probe :: todo =>
          match s.resolve lifecycle probe.record probe.state probe.exitCode probe.verdict.1.value with
          | some (next, current) => next.stand todo (probe.taken current)
          | none => s.closed
  | .release ok, .unlaunched probe discarded seen =>
      if ok then
        (s.release probe.record).stand pass.todo
          (if discarded then .recorded probe seen else .unlaunchedReleased probe seen)
      else s.stand pass.todo .ready
  | .advance, .unlaunchedReleased probe _ =>
      match s.evidence probe.record "not_started" with
      | some (next, seen) => next.stand pass.todo (.recorded probe seen)
      | none => s.closed
  | .advance, .recorded probe _ =>
      match s.report probe.record probe.verdict.1.value with
      | some next => next.stand pass.todo .ready
      | none => s.closed
  | .harvest .fault, .harvesting probe _ =>
      match s.evidence probe.record "pending" with
      | some (next, _) => next.stand pass.todo .ready
      | none => s.closed
  | .harvest outcome, .harvesting probe _ =>
      match s.evidence probe.record "copied" with
      | some (next, seen) => next.stand pass.todo (.copied probe (outcome = .unverifiable) seen)
      | none => s.closed
  | .release true, .copied probe why seen =>
      (s.release probe.record).stand pass.todo (.released probe why seen)
  | .release false, .copied probe _ _ =>
      match s.evidence probe.record "copied" with
      | some (next, _) => next.stand pass.todo .ready
      | none => s.closed
  | .advance, .released probe why _ =>
      match s.evidence probe.record (if why then "unverified" else "verified") with
      | some (next, seen) => next.stand pass.todo (.delivered probe seen)
      | none => s.closed
  | .advance, .delivered probe _ =>
      -- the newest submission with the handle is reported, not the one just concluded
      match s.log.run probe.record.handle probe.record.target with
      | .ok newest =>
          match s.report newest probe.verdict.1.value with
          | some next => next.stand pass.todo .ready
          | none => s.closed
      | .error _ => s.closed
  | _, _ => s

/-- A deadline pass goes on at another stage. -/
def expireTo (index : Nat) (todo : List RunRecord) (stage : DeadlineStage) : Settling :=
  { s with deadlines := s.deadlines.set index ⟨todo, stage⟩ }

/-- One move of the deadline pass at `index`. -/
def expire (index : Nat) (pass : DeadlinePass) (move : DeadlineMove) : Settling :=
  match move, pass.stage with
  | .take now, .ready =>
      match pass.todo with
      | [] => s
      | record :: todo =>
          match s.log.run record.handle record.target with
          | .ok current =>
              if current.submittedAt = record.submittedAt ∧ leaseExpired current now
              then s.expireTo index todo (.taken current (copiedStatus current.evidence))
              else s.expireTo index todo .ready
          | .error _ => s.expireTo index todo .ready
  | .write true, .taken current copied =>
      match s.evidence current (if copied then "copied" else "unverified") with
      | some (next, seen) => next.expireTo index pass.todo (.written current copied seen)
      | none => s.expireTo index [] .ready
  | .write false, .taken current copied => s.expireTo index pass.todo (.written current copied current)
  | .cancel, .written current copied seen =>
      (s.release current).expireTo index pass.todo (.cancelled current copied seen)
  | .advance, .cancelled current copied _ =>
      match s.resolve lifecycle current (some Word.timeout.value) none Word.timeout.value with
      | some (next, row) => next.expireTo index pass.todo (.resolved row copied)
      | none => s.expireTo index [] .ready
  | .advance, .resolved current copied =>
      match s.evidence current (if copied then "verified" else "unverified") with
      | some (next, seen) => next.expireTo index pass.todo (.closed current seen)
      | none => s.expireTo index [] .ready
  | .advance, .closed current _ =>
      match s.report current (reportedVerdict current) with
      | some next => next.expireTo index pass.todo .ready
      | none => s.expireTo index [] .ready
  | .fault, _ => s.expireTo index pass.todo .ready
  | _, _ => s

/-- One step of the system; a step that is not enabled changes nothing. -/
def step (s : Settling) : SettlingStep → Settling
  | .submit run => if Submittable s.log run then { s with log := s.log.record run } else s
  | .begin listed =>
      if s.pass.isNone ∧ ∀ probe ∈ listed, Probed s.log probe then s.stand listed .ready else s
  | .settle move =>
      match s.pass with
      | some pass => s.settle lifecycle pass move
      | none => s
  | .die => s.closed
  | .expire listed =>
      if ∀ run ∈ listed, Expiring s.log run then { s with deadlines := s.deadlines ++ [⟨listed, .ready⟩] }
      else s
  | .deadline index move =>
      match s.deadlines[index]? with
      | some pass => s.expire lifecycle index pass move
      | none => s

/-- An empty registry, no pass under way. -/
def start : Settling := ⟨[], none, [], []⟩

/-- What a move of the settlement pass comes to, one case for each way a stage goes on. -/
inductive Settles : SettlePass → SettleMove → Settling → Prop
  | idle (pass : SettlePass) (move : SettleMove) : Settles pass move s
  | closed (pass : SettlePass) (move : SettleMove) : Settles pass move s.closed
  | take {probe : Probe} {todo : List Probe} {next : Settling} {current : RunRecord}
      (hresolve : s.resolve lifecycle probe.record probe.state probe.exitCode probe.verdict.1.value =
        some (next, current)) :
      Settles ⟨probe :: todo, .ready⟩ .take (next.stand todo (probe.taken current))
  | unlaunched (todo : List Probe) (probe : Probe) (discarded : Bool) (seen : RunRecord) :
      Settles ⟨todo, .unlaunched probe discarded seen⟩ (.release true)
        ((s.release probe.record).stand todo
          (if discarded then .recorded probe seen else .unlaunchedReleased probe seen))
  | kept (todo : List Probe) (probe : Probe) (discarded : Bool) (seen : RunRecord) :
      Settles ⟨todo, .unlaunched probe discarded seen⟩ (.release false) (s.stand todo .ready)
  | notStarted {todo : List Probe} {probe : Probe} {seen row : RunRecord} {next : Settling}
      (hevidence : s.evidence probe.record "not_started" = some (next, row)) :
      Settles ⟨todo, .unlaunchedReleased probe seen⟩ .advance (next.stand todo (.recorded probe row))
  | reported {todo : List Probe} {probe : Probe} {seen : RunRecord} {next : Settling}
      (hreport : s.report probe.record probe.verdict.1.value = some next) :
      Settles ⟨todo, .recorded probe seen⟩ .advance (next.stand todo .ready)
  | pending {todo : List Probe} {probe : Probe} {seen row : RunRecord} {next : Settling}
      (hevidence : s.evidence probe.record "pending" = some (next, row)) :
      Settles ⟨todo, .harvesting probe seen⟩ (.harvest .fault) (next.stand todo .ready)
  | copied {todo : List Probe} {probe : Probe} {outcome : Harvest} {seen row : RunRecord} {next : Settling}
      (houtcome : outcome ≠ .fault) (hevidence : s.evidence probe.record "copied" = some (next, row)) :
      Settles ⟨todo, .harvesting probe seen⟩ (.harvest outcome)
        (next.stand todo (.copied probe (outcome = .unverifiable) row))
  | released (todo : List Probe) (probe : Probe) (why : Bool) (seen : RunRecord) :
      Settles ⟨todo, .copied probe why seen⟩ (.release true)
        ((s.release probe.record).stand todo (.released probe why seen))
  | retried {todo : List Probe} {probe : Probe} {why : Bool} {seen row : RunRecord} {next : Settling}
      (hevidence : s.evidence probe.record "copied" = some (next, row)) :
      Settles ⟨todo, .copied probe why seen⟩ (.release false) (next.stand todo .ready)
  | delivered {todo : List Probe} {probe : Probe} {why : Bool} {seen row : RunRecord} {next : Settling}
      (hevidence : s.evidence probe.record (if why then "unverified" else "verified") = some (next, row)) :
      Settles ⟨todo, .released probe why seen⟩ .advance (next.stand todo (.delivered probe row))
  | concluded {todo : List Probe} {probe : Probe} {seen newest : RunRecord} {next : Settling}
      (hrun : s.log.run probe.record.handle probe.record.target = .ok newest)
      (hreport : s.report newest probe.verdict.1.value = some next) :
      Settles ⟨todo, .delivered probe seen⟩ .advance (next.stand todo .ready)

variable {lifecycle s}

theorem resolve_some {run row : RunRecord} {state : Option String} {exitCode : Option Int}
    {verdict : String} {next : Settling} (h : s.resolve lifecycle run state exitCode verdict = some (next, row)) :
    ∃ current, s.log.at? run.identity = some current ∧
      (reaches lifecycle current.verdict verdict = false ∧ row = current ∧ next = s ∨
        reaches lifecycle current.verdict verdict = true ∧ row = current.resolved state exitCode verdict ∧
          next = { s with log := s.log.put row }) := by
  simp only [resolve] at h
  split at h
  next log written hwritten =>
      cases h
      obtain ⟨current, hcurrent, ⟨hstays, hrow, rfl⟩ | ⟨hmoves, hrow, rfl⟩⟩ := Registry.resolve_ok hwritten
      · exact ⟨current, hcurrent, .inl ⟨hstays, hrow, rfl⟩⟩
      · exact ⟨current, hcurrent, .inr ⟨hmoves, hrow, rfl⟩⟩
  next => cases h

theorem evidence_some {run row : RunRecord} {status : String} {next : Settling}
    (h : s.evidence run status = some (next, row)) :
    ∃ current, s.log.at? run.identity = some current ∧ row = current.withEvidence status ∧
      next = { s with log := s.log.put row, deeds := s.deeds ++ [.recorded run.identity status] } := by
  simp only [evidence] at h
  split at h
  next log written hwritten =>
      cases h
      obtain ⟨current, hcurrent, hrow, rfl⟩ := Registry.delivery_ok hwritten
      exact ⟨current, hcurrent, hrow, rfl⟩
  next => cases h

theorem report_some {run : RunRecord} {verdict : String} {next : Settling}
    (h : s.report run verdict = some next) :
    ∃ current, s.log.at? run.identity = some current ∧
      next = { s with log := s.log.put (current.withReported verdict) } := by
  simp only [report] at h
  split at h
  next log written hwritten =>
      cases h
      obtain ⟨current, hcurrent, rfl, rfl⟩ := Registry.report_ok hwritten
      exact ⟨current, hcurrent, rfl⟩
  next => cases h

end Settling

end Mainboard
