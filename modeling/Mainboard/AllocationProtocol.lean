import Mainboard.RegistryOperations
import Mainboard.Runs
import Mathlib.Logic.Function.Basic

/-! The provider creation protocol: the submitter of each request, the provider that receives its
create requests, a canceller and the reaper, all moving one registry row through compare-and-set
steps. A step of the machine is one locked registry operation, one message, or one local move; the
replies of the provider may come late or never, and what a submitter takes for a refusal need not be one. -/

namespace Mainboard

/-- Where the process that submits one request stands between two steps; one that is leaving has its
handle or gave up, and may still interrupt its request. -/
inductive Submitter
  | reserved
  | begun
  | sent
  | declined
  | refusing (current : RunRecord)
  | answered (handle : String)
  | leaving
  | interrupting (current : RunRecord)
  | ended
  deriving DecidableEq

/-- What became of one create request the provider was sent. -/
inductive Call
  | inFlight
  | accepted
  | declined
  deriving DecidableEq, Repr

/-- The registry, and each party's state. The last three fields are histories: which claims of the
prepared row won since it was last prepared, which machines a label was bound to, and the verdict the row
stood at whenever a create request left. -/
structure Provisioning where
  log : Registry
  /-- The record an `Allocation` was reserved with, by its label. -/
  intent : String → Option RunRecord
  submitter : String → Submitter
  calls : String → List Call
  /-- Every machine the provider made, with the label of the request it made it for. -/
  machines : List (String × String)
  /-- The records the reaper has looked up for a machine it is to bind. -/
  named : List (RunRecord × String)
  won : String → List Word
  binds : String → List String
  sends : List (String × Option String)

/-- One step, with what the environment chose. -/
inductive Provision
  | reserve (record : RunRecord)
  | begin (label : String) (lease : Option Lease)
  | send (label : String)
  | accept (label : String) (call : Nat) (handle : String)
  | decline (label : String) (call : Nat)
  | replyRefused (label : String)
  | replyCreated (label handle : String)
  | refused (label : String)
  | reopen (label : String)
  | created (label : String)
  | raise (label : String)
  | interrupted (label : String)
  | close (label : String)
  | die (label : String)
  | cancel (run : RunRecord)
  | reapNamed (label target handle : String)
  | reapCreated (index : Nat)

namespace Provisioning

variable (lifecycle : Lifecycle)

/-- A fresh label: no label, current row or machine goes by it. -/
def Fresh (s : Provisioning) (label : String) : Prop :=
  label ≠ "" ∧ s.intent label = none ∧
    (∀ row ∈ s.log.newest, row.handle ≠ label ∧ row.creation ≠ label) ∧
    ∀ machine ∈ s.machines, machine.2 ≠ label

instance (s : Provisioning) (label : String) : Decidable (s.Fresh label) :=
  inferInstanceAs (Decidable (_ ∧ _))

def moveTo (s : Provisioning) (label : String) (next : Submitter) : Provisioning :=
  { s with submitter := Function.update s.submitter label next }

/-- `Creations.prepared` on the row at `run`'s identity, recording the claim that won. -/
def claim (s : Provisioning) (run : RunRecord) (word : Word) (lease : Option Lease) : Option Provisioning :=
  match s.log.prepared lifecycle run word.value lease with
  | .ok (log, row) =>
      some { s with log, won := Function.update s.won row.creation (s.won row.creation ++ [word]) }
  | .error _ => none

/-- `Allocation.created`: a reply that names no handle raises, and so does a row that is not submitting. -/
def attach (s : Provisioning) (run : RunRecord) (handle : String) : Option Provisioning :=
  if handle = "" ∨ handle = "None" then none
  else
    match s.log.bind run handle with
    | .ok (log, row) =>
        some { s with log, binds := Function.update s.binds row.creation (s.binds row.creation ++ [handle]) }
    | .error _ => none

/-- The act half of `Allocation.interrupted`, on the record its lookup answered. -/
def interrupt (s : Provisioning) (current : RunRecord) : Provisioning :=
  if current.verdict = some Word.prepared.value then (s.claim lifecycle current .failed none).getD s
  else if current.verdict = some Word.submitting.value then s
  else if current.unsettled ∧ current.evidence = "not_started" then
    { s with
      log := s.log.after
        (s.log.resolve lifecycle current (some Word.failed.value) none Word.failed.value) }
  else s

/-- One step of one party; a step that is not enabled changes nothing. -/
def step (s : Provisioning) : Provision → Provisioning
  | .reserve record =>
      if s.Fresh record.creation ∧ record.handle = record.creation ∧
          record.verdict = some Word.prepared.value then
        match s.log.reserve record with
        | .ok (log, _) =>
            { s with
              log
              intent := Function.update s.intent record.creation (some record)
              submitter := Function.update s.submitter record.creation .reserved }
        | .error _ => s
      else s
  | .begin label lease =>
      match s.intent label, s.submitter label with
      | some record, .reserved =>
          match s.claim lifecycle record .submitting lease with
          | some begun => begun.moveTo label .begun
          | none => s.moveTo label .leaving
      | _, _ => s
  | .send label =>
      match s.intent label, s.submitter label with
      | some record, .begun =>
          { s with
            submitter := Function.update s.submitter label .sent
            calls := Function.update s.calls label (s.calls label ++ [.inFlight])
            sends := s.sends ++ [(label, (s.log.at? record.identity).bind (·.verdict))] }
      | _, _ => s
  | .accept label call handle =>
      if ((s.calls label)[call]? = some .inFlight ∨ (s.calls label)[call]? = some .accepted) ∧
          s.intent handle = none then
        { s with
          calls := Function.update s.calls label ((s.calls label).set call .accepted)
          machines := s.machines ++ [(label, handle)] }
      else s
  | .decline label call =>
      if (s.calls label)[call]? = some .inFlight then
        { s with calls := Function.update s.calls label ((s.calls label).set call .declined) }
      else s
  -- an error taken for a refusal, whatever has become of the request: a status or a word that stands for no capacity
  -- is one, and so is whatever a held scheduler raised
  | .replyRefused label => if s.submitter label = .sent then s.moveTo label .declined else s
  | .replyCreated label handle =>
      if s.submitter label = .sent ∧ ((label, handle) ∈ s.machines ∨ handle = "" ∨ handle = "None")
      then s.moveTo label (.answered handle) else s
  | .refused label =>
      match s.intent label, s.submitter label with
      | some record, .declined =>
          match s.log.named label record.target with
          | .ok current =>
              if current.verdict = some Word.submitting.value then s.moveTo label (.refusing current)
              else s.moveTo label .reserved
          | .error _ => s.moveTo label .leaving
      | _, _ => s
  | .reopen label =>
      match s.intent label, s.submitter label with
      | some _, .refusing current =>
          match s.log.reopen current with
          | .ok (log, row) =>
              { s with
                log
                submitter := Function.update s.submitter label .reserved
                won := Function.update s.won row.creation [] }
          | .error _ => s.moveTo label .leaving
      | _, _ => s
  | .created label =>
      match s.intent label, s.submitter label with
      | some record, .answered handle =>
          match s.attach record handle with
          | some bound => bound.moveTo label .leaving
          | none => s.moveTo label .leaving
      | _, _ => s
  | .raise label =>
      if (s.intent label).isSome ∧ s.submitter label ≠ .ended then s.moveTo label .leaving else s
  | .interrupted label =>
      match s.intent label, s.submitter label with
      | some record, .leaving =>
          match s.log.named label record.target with
          | .ok current => s.moveTo label (.interrupting current)
          | .error _ => s.moveTo label .ended
      | _, _ => s
  | .close label =>
      match s.intent label, s.submitter label with
      | some _, .interrupting current => (s.interrupt lifecycle current).moveTo label .ended
      | _, _ => s
  | .die label => s.moveTo label .ended
  | .cancel run => (s.claim lifecycle run .cancelled none).getD s
  | .reapNamed label target handle =>
      if (label, handle) ∈ s.machines then
        match s.log.named label target with
        | .ok run => { s with named := s.named ++ [(run, handle)] }
        | .error _ => s
      else s
  | .reapCreated index =>
      match s.named[index]? with
      | some (run, handle) => (s.attach run handle).getD s
      | none => s

/-- What a submitter takes for a refusal is one: the provider declined the request sent last. -/
def Founded (s : Provisioning) : Provision → Prop
  | .replyRefused label => s.submitter label = .sent → (s.calls label).getLast? = some .declined
  | _ => True

/-- A create request for the label was sent, was not declined, and no machine was bound to the label. -/
def Outstanding (s : Provisioning) (label : String) : Prop :=
  (∃ call ∈ s.calls label, call ≠ .declined) ∧ s.binds label = []

/-- A request not resolved yet: prepared, or submitting. -/
def Pending (row : RunRecord) : Prop :=
  row.verdict = some Word.prepared.value ∨ row.verdict = some Word.submitting.value

/-- The creation protocol's promises about one state. -/
structure Safe (s : Provisioning) : Prop where
  /-- At most one claim wins a prepared row before it is prepared again. -/
  oneWinner : ∀ label, (s.won label).length ≤ 1
  /-- Every create request left while its row stood at SUBMITTING. -/
  sentSubmitting : ∀ sent ∈ s.sends, sent.2 = some Word.submitting.value
  boundOnce : ∀ label, (s.binds label).length ≤ 1
  /-- Two unresolved requests of one script and tree never coexist on a target. -/
  pendingOnce : ∀ left right leftRow rightRow, s.log.at? left = some leftRow →
    s.log.at? right = some rightRow → Pending leftRow → Pending rightRow →
      leftRow.target = rightRow.target → leftRow.script = rightRow.script →
        leftRow.digest = rightRow.digest → left = right
  failedClosed : ∀ identity row, s.log.at? identity = some row →
    row.verdict = some Word.failed.value → ¬ s.Outstanding row.creation
  /-- A request whose create is outstanding stands where the reaper can still bind it. -/
  recoverable : ∀ label, s.Outstanding label → ∃ record row, s.intent label = some record ∧
    s.log.at? record.identity = some row ∧ row.creation = label ∧
      row.verdict = some Word.submitting.value

/-- The protocol before any request of its own, over a registry with no request unresolved. -/
structure Initial (s : Provisioning) : Prop where
  intent : ∀ label, s.intent label = none
  calls : ∀ label, s.calls label = []
  machines : s.machines = []
  named : s.named = []
  won : ∀ label, s.won label = []
  binds : ∀ label, s.binds label = []
  sends : s.sends = []
  resolved : ∀ identity row, s.log.at? identity = some row → ¬ Pending row

end Provisioning

end Mainboard
