import Mainboard.HeldPlaceholder
import Mainboard.Runs

/-! Quota-held requests under the settlement sweeps that ask for them again. A sweep and a cancel hold the
settlement claim; a dispatch that keeps a request held takes only the registry lock, for its write. A held
request leaves HELD once taken, cancelled, or refused by its target, as long as every failure a sweep
catches is the target's own refusal and nothing interrupts a release its target has taken. -/

namespace Mainboard

/-- The texts of a refusal for the count of jobs already queued. -/
def quotaMarkers : List String :=
  ["limit on resource njobs", "max_queued", "maximum number of jobs", "qosmaxjobsperuserlimit",
    "qosmaxsubmitjobperuserlimit", "assocmaxjobslimit", "assocmaxsubmitjoblimit"]

/-- Whether a refusal is about how many jobs are queued, not this one. -/
def isQuotaRefusal (reason : String) : Bool :=
  quotaMarkers.any fun marker => marker.toList <:+: reason.toList.map Char.toLower

/-- What a release attempt was caught failing with, and whether the target itself refused the job. -/
structure Fault where
  text : String
  byTarget : Bool
  deriving DecidableEq, Repr

/-- Where a sweep stands with the request in its hand: asked of its target (taken yet, and recorded as
which submission yet), or settled as failed and still to be reported. -/
inductive ReleaseStage
  | ready
  | asking (record : RunRecord) (taken : Bool) (submitted : Option RunRecord)
  | refused (row : RunRecord)

/-- Who holds the settlement claim. -/
inductive Claimant
  | sweep (todo : List RunRecord) (stage : ReleaseStage)
  | cancel (row : RunRecord)

/-- The request a sweep has asked its target for. -/
def Claimant.asking : Claimant → Option RunRecord
  | .sweep _ (.asking record _ _) => some record
  | _ => none

/-- The placeholder of a request its target has taken, while a sweep has it in its hand. -/
def Claimant.taking : Claimant → Option Identity
  | .sweep _ (.asking record true _) => some record.identity
  | _ => none

/-- The registry, the holds that have read it and not yet written, the settlement claim, and the
placeholders whose requests a target took since they were last held. -/
structure Releasing where
  log : Registry
  holding : List Holding
  claim : Option Claimant
  accepted : List Identity

inductive ReleaseStep
  | hold (asked : Request) (reason project : String) (now : Int)
  | held (index : Nat)
  | begin (scope : RunRecord → Bool)
  | ask
  | take
  | record (run : RunRecord)
  | resume
  | fail (fault : Fault)
  | report
  | cancel (identity : Identity)
  | die

namespace Registry

variable (log : Registry)

/-- Whether an identity stands HELD. -/
def held? (identity : Identity) : Bool :=
  (log.at? identity).any fun row => row.verdict = some Word.held.value

/-- The held requests a sweep asks for again, in the order they were held. -/
def waiting : List RunRecord :=
  ((log.newest.filter (·.unsettled)).reverse).filter fun run => run.verdict = some Word.held.value

/-- A submission is recorded under a fresh identity, and not as held. -/
def Dispatchable (run : RunRecord) : Prop :=
  log.at? run.identity = none ∧ run.verdict ≠ some Word.held.value

instance (run : RunRecord) : Decidable (log.Dispatchable run) := inferInstanceAs (Decidable (_ ∧ _))

variable {log}

@[simp] theorem held?_put (run : RunRecord) (identity : Identity) : (log.put run).held? identity =
    if run.identity = identity then decide (run.verdict = some Word.held.value) else log.held? identity := by
  rw [held?, at?_put]
  split_ifs <;> rfl

@[simp] theorem held?_drop (run : RunRecord) (identity : Identity) : (log.drop run).held? identity =
    if run.identity = identity then false else log.held? identity := by
  rw [held?, at?_drop]
  split_ifs <;> rfl

theorem held?_iff {identity : Identity} : log.held? identity = true ↔
    ∃ row, log.at? identity = some row ∧ row.verdict = some Word.held.value := by
  simp [held?, Option.any_eq_true]

theorem mem_waiting {run : RunRecord} (h : run ∈ log.waiting) :
    log.at? run.identity = some run ∧ run.verdict = some Word.held.value := by
  simp only [waiting, List.mem_filter, List.mem_reverse, decide_eq_true_eq, mem_newest] at h
  exact ⟨h.1.1, h.2⟩

/-- No held request waits twice. -/
theorem waiting_nodup : (log.waiting.map RunRecord.identity).Nodup := by
  have hnewest : (log.newest.map RunRecord.identity).Nodup :=
    ((List.perm_insertionSort _ _).map _).nodup_iff.mpr (KeyedLog.live_nodup _ log)
  have hlive : ((log.newest.filter (·.unsettled)).map RunRecord.identity).Nodup :=
    (List.filter_sublist.map _).nodup hnewest
  have hreversed : ((log.newest.filter (·.unsettled)).reverse.map RunRecord.identity).Nodup := by
    rw [List.map_reverse, List.nodup_reverse]
    exact hlive
  exact (List.filter_sublist.map _).nodup hreversed

end Registry

namespace Releasing

variable (lifecycle : Lifecycle) (digest : String → String) (s : Releasing)

def asking : Option RunRecord := s.claim.bind Claimant.asking

def taking : Option Identity := s.claim.bind Claimant.taking

/-- Resolve a held row to a settled word; an unregistered one raises out of the claim. -/
def resolve (record : RunRecord) (word : Word) (next : RunRecord → Claimant) : Releasing :=
  match s.log.resolve lifecycle record (some word.value) none word.value with
  | .ok (log, row) => { s with log, claim := some (next row) }
  | .error _ => { s with claim := none }

/-- Report a row at the word it was settled at. -/
def report (row : RunRecord) (word : Word) (next : Option Claimant) : Releasing :=
  match s.log.report row word.value with
  | .ok (log, _) => { s with log, claim := next }
  | .error _ => { s with claim := none }

/-- One step of the system; a step that is not enabled changes nothing. -/
def step (s : Releasing) : ReleaseStep → Releasing
  | .hold asked reason project now =>
      { s with holding := s.holding ++ [s.log.hold digest asked reason project now] }
  | .held index =>
      match s.holding[index]? with
      | some holding =>
          let identity := (holding.placeholder digest).identity
          { s with
            log := s.log.held digest holding
            holding := s.holding.eraseIdx index
            accepted :=
              if s.log.held? identity then s.accepted else s.accepted.filter fun other => other ≠ identity }
      | none => s
  | .begin scope =>
      if s.claim.isNone then { s with claim := some (.sweep (s.log.waiting.filter scope) .ready) } else s
  | .ask =>
      match s.claim with
      | some (.sweep (record :: todo) .ready) =>
          { s with
            claim := some (.sweep todo (if record.request.isNone then .ready else .asking record false none)) }
      | _ => s
  | .take =>
      match s.claim with
      | some (.sweep todo (.asking record false submitted)) =>
          { s with
            claim := some (.sweep todo (.asking record true submitted))
            accepted := record.identity :: s.accepted }
      | _ => s
  | .record run =>
      match s.claim with
      | some (.sweep todo (.asking record taken none)) =>
          if s.log.Dispatchable run
          then { s with log := s.log.record run, claim := some (.sweep todo (.asking record taken (some run))) }
          else s
      | _ => s
  | .resume =>
      match s.claim with
      | some (.sweep todo (.asking record true (some _))) =>
          { s with log := s.log.forget record, claim := some (.sweep todo .ready) }
      | _ => s
  | .fail fault =>
      match s.claim with
      | some (.sweep todo (.asking record _ _)) =>
          -- whatever is no quota refusal settles the request as failed
          if isQuotaRefusal fault.text then { s with claim := some (.sweep todo .ready) }
          else s.resolve lifecycle record .failed fun row => .sweep todo (.refused row)
      | _ => s
  | .report =>
      match s.claim with
      | some (.sweep todo (.refused row)) => s.report row .failed (some (.sweep todo .ready))
      | some (.cancel row) => s.report row .cancelled none
      | _ => s
  | .cancel identity =>
      match s.claim, s.log.at? identity with
      | none, some record =>
          if record.verdict = some Word.held.value then s.resolve lifecycle record .cancelled .cancel else s
      | _, _ => s
  | .die => { s with claim := none }

/-- An empty registry, nobody at work. -/
def start : Releasing := ⟨[], [], none, []⟩

/-- A caught failure that names no quota is the target's own refusal, and nothing interrupts a release
between its target taking the job and the placeholder being dropped. -/
def Answered (s : Releasing) : ReleaseStep → Prop
  | .fail fault => s.asking ≠ none → s.taking = none ∧ (isQuotaRefusal fault.text = true ∨ fault.byTarget = true)
  | .die => s.taking = none
  | _ => True

instance (s : Releasing) : (label : ReleaseStep) → Decidable (s.Answered label)
  | .fail _ => inferInstanceAs (Decidable (_ → _))
  | .die => inferInstanceAs (Decidable (_ = _))
  | .hold .. | .held _ | .begin _ | .ask | .take | .record _ | .resume | .report | .cancel _ => .isTrue trivial

/-- The ways a request may leave HELD. -/
inductive Leaves (s after : Releasing) (identity : Identity) : ReleaseStep → Prop
  /-- Its target took it once, the submission is recorded, and the placeholder is dropped. -/
  | resumed {todo : List RunRecord} {record run : RunRecord}
      (hclaim : s.claim = some (.sweep todo (.asking record true (some run))))
      (hidentity : record.identity = identity) (honce : s.accepted.count identity = 1)
      (hrecorded : s.log.at? run.identity ≠ none) (hdropped : after.log.at? identity = none) :
      Leaves s after identity .resume
  | cancelled {row : RunRecord} (huntaken : identity ∉ s.accepted) (hrow : after.log.at? identity = some row)
      (hverdict : row.verdict = some Word.cancelled.value) : Leaves s after identity (.cancel identity)
  | refused {fault : Fault} {row : RunRecord} (huntaken : identity ∉ s.accepted)
      (hbyTarget : fault.byTarget = true) (hrow : after.log.at? identity = some row)
      (hverdict : row.verdict = some Word.failed.value) : Leaves s after identity (.fail fault)

/-- No held request is lost in a step, and a failure the target did not give changes no record. -/
structure Keeps (lifecycle : Lifecycle) (digest : String → String) (s : Releasing) (label : ReleaseStep) :
    Prop where
  leaves : ∀ identity, s.log.held? identity = true →
    (s.step lifecycle digest label).log.held? identity = false →
      Leaves s (s.step lifecycle digest label) identity label
  retried : ∀ fault, label = .fail fault → fault.byTarget = false →
    (s.step lifecycle digest label).log = s.log

end Releasing

end Mainboard
