import Mainboard.Receipts
import Mainboard.Runs

/-! The watch over a dispatched batch: a pass replays the batch's lines, makes one row per job from the
newest answer to offering it, and publishes what changed about each row, the cost of a settled one before its
settlement. Passes follow one another, any of them may die between two publishes, and the answers to further
waves are published by other hands at any time. -/

namespace Mainboard.Watch
open OrderedMap StandingLines Receipts

/-- What a handle the run registry has forgotten reads as. -/
def unknown : String := "unknown"

/-- One batch job as the last sweep left it. -/
structure JobStatus where
  job : String
  target : String
  handle : String := ""
  state : String := ""
  verdict : String := ""
  detail : String := ""
  deriving DecidableEq, Repr

/-- What a pass is told from outside: the registry's state and verdict of a run, and what the sweep said about
a handle. -/
structure Swept where
  registry : String → String → Option (String × String)
  said : String → String

/-- What a row publishes, before it is stamped. -/
structure Note where
  topic : Topic
  job : String := ""
  data : Data := {}
  deriving DecidableEq, Repr

/-- The three answers a target gives about one offered job. -/
def offers : List Topic := [.submitted, .refused, .held]

section Rows

variable {τ : Type} [LinearOrder τ]

/-- One dispatched job's row, from the run registry and this pass's own sweep. -/
def status (job : String) (submitted : Event τ) (swept : Swept) : JobStatus :=
  let handle := submitted.data.handle.getD ""
  let target := submitted.data.target.getD ""
  match swept.registry handle target with
  | none => { job, target, handle, verdict := unknown,
              detail := "the run registry has no record of this handle" }
  | some record => { job, target, handle, state := record.1,
                     verdict := if record.2 = "" then Word.running.value else record.2,
                     detail := swept.said handle }

/-- One job's row from the newest of its answers. -/
def answered (job : String) (answer : Event τ) (swept : Swept) : JobStatus :=
  let target := answer.data.target.getD ""
  if answer.topic = .refused then
    { job, target, verdict := Word.vanished.value, detail := answer.data.reason }
  else if answer.topic = .held then
    { job, target, state := Word.held.value, verdict := Word.held.value,
      detail := "waiting on the target's quota: " ++ answer.data.reason }
  else status job answer swept

/-- The row's settlement is not in the lines yet: its verdict is settled, and the job's newest settlement is
another handle's. -/
def landed (row : JobStatus) (events : List (Event τ)) : Bool :=
  terminal (some row.verdict) &&
    !((get (latest events [.settled]) row.job).any fun settled => settled.data.handle = some row.handle)

/-- What changed about the row since the last pass, in the order it is published: the state it moved to, then
what it cost and that it settled. -/
def record (row : JobStatus) (events : List (Event τ)) : List Note :=
  let seen := get (latest events [.state]) row.job
  let moved := !(seen.any fun event => event.data.handle = some row.handle ∧ event.data.verdict = row.verdict)
  (if moved then [{ topic := .state, job := row.job,
                    data := { handle := some row.handle, state := row.state, verdict := row.verdict } }] else []) ++
    if landed row events then
      [{ topic := .cost, job := row.job },
        { topic := .settled, job := row.job,
          data := { handle := some row.handle, verdict := row.verdict, detail := row.detail } }]
    else []

/-- The rows of a pass: one per job offered, from its newest answer. -/
def rows (events : List (Event τ)) (swept : Swept) : List JobStatus :=
  (offered events).map fun entry => answered entry.1 entry.2 swept

/-- The batch's end, announced by a pass that settled something and left nothing running. -/
def close (rows : List JobStatus) (events : List (Event τ)) : List Note :=
  if rows.all (fun row => terminal (some row.verdict)) && rows.any (fun row => landed row events)
  then [{ topic := .closed }] else []

end Rows

section Machine

variable {τ : Type} [LinearOrder τ]

/-- A line of the journal, with the answer it is about: an answer is about itself, named by its place, and a
line a pass publishes is about the answer its row was made from. -/
structure Entry (τ : Type) where
  line : Event τ
  about : ℕ
  deriving DecidableEq, Repr

/-- A note of a pass with the answer its row was made from. -/
structure Owed where
  note : Note
  about : ℕ
  deriving DecidableEq, Repr

/-- A pass in the middle of its publishes: what is left of them, and the answers it read as settled. -/
structure Pass where
  plan : List Owed
  reads : List ℕ

/-- The journal, the pass under way, and the answers a pass that ran to its end read as settled. -/
structure Watching (τ : Type) where
  journal : List (Entry τ) := []
  pass : Option Pass := none
  seen : List ℕ := []

/-- One step: a line arrives from another publisher, a pass begins, publishes its next line, ends or dies. -/
inductive WatchStep (τ : Type)
  | arrive (line : Event τ)
  | begin (swept : Swept)
  | publish (stamp : τ)
  | finish
  | crash

/-- The topics only a watch publishes. -/
def watched : List Topic := [.state, .cost, .settled, .closed]

def Watching.lines (s : Watching τ) : List (Event τ) := s.journal.map Entry.line

/-- The answer a line of the journal is about: the last entry that is the line. -/
def aboutOf (journal : List (Entry τ)) (line : Event τ) : ℕ :=
  ((journal.reverse.find? fun entry => entry.line = line).map Entry.about).getD journal.length

/-- The rows of a pass over the journal, each with the answer it was made from. -/
def rowsOf (journal : List (Entry τ)) (swept : Swept) : List (JobStatus × ℕ) :=
  (offered (journal.map Entry.line)).map fun entry => (answered entry.1 entry.2 swept, aboutOf journal entry.2)

/-- Everything a pass over the journal has to publish. -/
def planOf (journal : List (Entry τ)) (swept : Swept) : List Owed :=
  let events := journal.map Entry.line
  ((rowsOf journal swept).flatMap fun row => (record row.1 events).map fun note => ⟨note, row.2⟩) ++
    (close (rows events swept) events).map fun note => ⟨note, journal.length⟩

/-- The answers a pass over the journal reads as settled. -/
def readsOf (journal : List (Entry τ)) (swept : Swept) : List ℕ :=
  ((rowsOf journal swept).filter fun row => terminal (some row.1.verdict)).map (·.2)

/-- An unstamped note as the line it becomes. -/
def Owed.entry (owed : Owed) (stamp : τ) : Entry τ :=
  ⟨{ published := stamp, topic := owed.note.topic, job := owed.note.job, data := owed.note.data }, owed.about⟩

def watchStep (s : Watching τ) : WatchStep τ → Watching τ
  | .arrive line =>
      if line.topic ∈ watched then s else { s with journal := s.journal ++ [⟨line, s.journal.length⟩] }
  | .begin swept =>
      match s.pass with
      | some _ => s
      | none => { s with pass := some ⟨planOf s.journal swept, readsOf s.journal swept⟩ }
  | .publish stamp =>
      match s.pass with
      | some ⟨owed :: plan, reads⟩ => { s with journal := s.journal ++ [owed.entry stamp], pass := some ⟨plan, reads⟩ }
      | _ => s
  | .finish =>
      match s.pass with
      | some ⟨[], reads⟩ => { s with pass := none, seen := s.seen ++ reads }
      | _ => s
  | .crash => { s with pass := none }

/-- The costs and settlements published about an answer, in order. -/
def told (journal : List (Entry τ)) (about : ℕ) : List Topic :=
  (journal.filter fun entry => entry.line.topic ∈ [Topic.cost, .settled] ∧ entry.about = about).map (·.line.topic)

/-- About no answer is more than one cost and then one settlement published, and about every answer a finished
pass read as settled exactly these. -/
structure PublishedOnce (s : Watching τ) : Prop where
  once : ∀ about, told s.journal about <+: [.cost, .settled]
  settled : ∀ about ∈ s.seen, told s.journal about = [.cost, .settled]

/-- A settlement that silences a row: the job's newest, under the row's handle, about another answer. -/
def Silenced (journal : List (Entry τ)) (row : JobStatus × ℕ) : Prop :=
  ∃ line, get (latest (journal.map Entry.line) [.settled]) row.1.job = some line ∧
    line.data.handle = some row.1.handle ∧ aboutOf journal line ≠ row.2

/-- The step stays clear of what loses or repeats a settlement: no settled row of a beginning pass is silenced by
the settlement of another answer under its handle, no settlement is stamped before one of the same job already
there, and no pass dies between the cost of an answer and its settlement. -/
def Clear (s : Watching τ) : WatchStep τ → Prop
  | .arrive _ => True
  | .begin swept => ∀ row ∈ rowsOf s.journal swept, terminal (some row.1.verdict) → ¬ Silenced s.journal row
  | .publish stamp => ∀ pass ∈ s.pass, ∀ owed ∈ pass.plan.head?, owed.note.topic = .settled →
      ∀ entry ∈ s.journal, entry.line.topic = .settled → entry.line.job = owed.note.job →
        entry.line.published ≤ stamp
  | .finish => True
  | .crash => ∀ entry ∈ s.journal, told s.journal entry.about ≠ [.cost]

end Machine

end Mainboard.Watch
