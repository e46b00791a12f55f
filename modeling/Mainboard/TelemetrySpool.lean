import Mathlib.Logic.Function.Basic
import Mainboard.SpoolPages

/-! The spool of a workspace's events and the pass that delivers it. Any number of writers open a file by its path,
lock it, cut what a dead writer left unfinished and append; a pass, one at a time, reads each file from the offset kept
for it, posts what the lake does not show, and deletes a file delivered whole that no writer holds. Each may stop
between two of its steps, and a pass that stops keeps its offsets, unless it is killed. -/

namespace Mainboard.Telemetry

open LineText Events
open Analysis (Bytes)

/-- What the spool asks of an event: its id, its line, and the reading of a line. -/
structure Wire (ι ε : Type) where
  id : ε → ι
  line : ε → Bytes
  parse : Bytes → Option ε
  /-- A line is JSON, which holds no raw newline and is not empty. -/
  plain : ∀ event, 10 ∉ line event
  said : ∀ event, line event ≠ []

/-- The event's line reads back as it. -/
def Wire.Reads {ι ε : Type} (wire : Wire ι ε) (event : ε) : Prop := wire.parse (wire.line event) = some event

/-- Where a writer stands between two of its steps, with the file its handle is on. -/
inductive Writer (ε : Type) where
  | idle
  | opened (name : String) (file : ℕ)
  | locked (name : String) (file : ℕ)
  /-- It read how much of the file at the path is complete, and will cut its own to that. -/
  | cutting (file length : ℕ)
  | ready (file : ℕ)
  | writing (file : ℕ) (event : ε) (pending : Bytes)

/-- The file whose lock the writer holds. -/
def Writer.lock {ε : Type} : Writer ε → Option ℕ
  | idle | opened _ _ => none
  | locked _ file | cutting file _ | ready file | writing file _ _ => some file

/-- What a pass still has to post of a file, and the offset it read the file up to. -/
structure Batch (ε : Type) where
  name : String
  events : List ε
  offset : ℕ

/-- Where the pass stands, with the offsets in its hand. -/
inductive Pass (ε : Type) where
  | idle
  | reading (names : List String) (batches : List (Batch ε)) (offsets : String → ℕ)
  | sending (batches : List (Batch ε)) (offsets : String → ℕ)
  /-- The file was as long as the pass had read it. -/
  | retiring (name : String) (batches : List (Batch ε)) (offsets : String → ℕ)
  /-- It holds the file's lock, and will delete it. -/
  | unlinking (name : String) (file : ℕ) (batches : List (Batch ε)) (offsets : String → ℕ)
  | keeping (offsets : String → ℕ)

/-- The offsets in the pass's hand. -/
def Pass.offsets {ε : Type} : Pass ε → Option (String → ℕ)
  | idle => none
  | reading _ _ offsets | sending _ offsets | retiring _ _ offsets | unlinking _ _ _ offsets | keeping offsets =>
      some offsets

/-- The batches a pass has yet to send. -/
def Pass.batches {ε : Type} : Pass ε → List (Batch ε)
  | idle | keeping _ => []
  | reading _ batches _ | sending batches _ | retiring _ batches _ | unlinking _ _ batches _ => batches

/-- The spool: which file each path names, the files set aside, what the files hold, the writers, the pass, the
offsets the ledger keeps, the events the sink accepted and the events whose append returned. -/
structure Spool (ε : Type) where
  named : String → Option ℕ := fun _ => none
  aside : String → Option ℕ := fun _ => none
  text : ℕ → Bytes := fun _ => []
  next : ℕ := 0
  writers : ℕ → Writer ε := fun _ => .idle
  pass : Pass ε := .idle
  ledger : String → ℕ := fun _ => 0
  accepted : List ε := []
  spooled : List ε := []

namespace Spool

variable {ι ε : Type}

/-- The offsets the next reading of the spool goes by. -/
def offsets (s : Spool ε) : String → ℕ := s.pass.offsets.getD s.ledger

def turn (s : Spool ε) (writer : ℕ) (stage : Writer ε) : Spool ε :=
  { s with writers := Function.update s.writers writer stage }

def put (s : Spool ε) (file : ℕ) (text : Bytes) : Spool ε := { s with text := Function.update s.text file text }

/-- No writer holds the file's lock, and the pass does not. -/
def Free (s : Spool ε) (file : ℕ) : Prop :=
  (∀ writer, (s.writers writer).lock ≠ some file) ∧
    ∀ name batches offsets, s.pass ≠ .unlinking name file batches offsets

end Spool

/-- What a pass posts of a page: the events whose ids the lake does not show. -/
def unheld {ι ε : Type} [DecidableEq ι] (wire : Wire ι ε) (held : List ι) (batch : Batch ε) : Batch ε :=
  { batch with events := batch.events.filter fun event => wire.id event ∉ held }

/-- What can happen. -/
inductive Step {ι ε : Type} [DecidableEq ι] (wire : Wire ι ε) (s : Spool ε) : Spool ε → Prop where
  | found (writer : ℕ) (name : String) (file : ℕ) (hidle : s.writers writer = .idle)
      (hnamed : s.named name = some file) : Step wire s (s.turn writer (.opened name file))
  | made (writer : ℕ) (name : String) (hidle : s.writers writer = .idle) (hnamed : s.named name = none) :
      Step wire s { s.turn writer (.opened name s.next) with
        named := Function.update s.named name (some s.next)
        text := Function.update s.text s.next []
        next := s.next + 1 }
  | locks (writer : ℕ) (name : String) (file : ℕ) (hopened : s.writers writer = .opened name file)
      (hfree : s.Free file) : Step wire s (s.turn writer (.locked name file))
  | measures (writer : ℕ) (name : String) (file path : ℕ) (hlocked : s.writers writer = .locked name file)
      (hnamed : s.named name = some path) : Step wire s (s.turn writer (.cutting file (ended 10 (s.text path))))
  | cuts (writer file length : ℕ) (hcutting : s.writers writer = .cutting file length) :
      Step wire s ((s.put file (cut 0 length (s.text file))).turn writer (.ready file))
  | appends (writer file : ℕ) (event : ε) (hready : s.writers writer = .ready file) :
      Step wire s (s.turn writer (.writing file event (wire.line event ++ [10])))
  | writes (writer file : ℕ) (event : ε) (pending : Bytes) (amount : ℕ)
      (hwriting : s.writers writer = .writing file event pending) (hleft : pending.drop amount ≠ []) :
      Step wire s ((s.put file (s.text file ++ pending.take amount)).turn writer
        (.writing file event (pending.drop amount)))
  | written (writer file : ℕ) (event : ε) (pending : Bytes)
      (hwriting : s.writers writer = .writing file event pending) :
      Step wire s { (s.put file (s.text file ++ pending)).turn writer (.ready file) with
        spooled := s.spooled ++ [event] }
  /-- A writer closed its file, raised, or its process died. -/
  | leaves (writer : ℕ) : Step wire s (s.turn writer .idle)
  | begins (names : List String) (hidle : s.pass = .idle) (hnodup : names.Nodup)
      (hnamed : ∀ name ∈ names, s.named name ≠ none) : Step wire s { s with pass := .reading names [] s.ledger }
  | reads (name : String) (names : List String) (batches : List (Batch ε)) (offsets : String → ℕ) (file : ℕ)
      (page : Page ε) (hpass : s.pass = .reading (name :: names) batches offsets) (hnamed : s.named name = some file)
      (hread : read wire.parse (s.text file) (offsets name) = .ok page) :
      Step wire s { s with pass := .reading names (batches ++ [⟨name, page.events, page.offset⟩]) offsets }
  /-- A file with a line that is no event's is set aside. -/
  | refuses (name : String) (names : List String) (batches : List (Batch ε)) (offsets : String → ℕ) (file place : ℕ)
      (hpass : s.pass = .reading (name :: names) batches offsets) (hnamed : s.named name = some file)
      (hread : read wire.parse (s.text file) (offsets name) = .error place) :
      Step wire s { s with
        named := Function.update s.named name none
        aside := Function.update s.aside name (some file)
        pass := .reading names batches (Function.update offsets name 0) }
  /-- The lake shows some of what the sink accepted. -/
  | looks (batches : List (Batch ε)) (offsets : String → ℕ) (held : List ι)
      (hpass : s.pass = .reading [] batches offsets) (hheld : ∀ id ∈ held, id ∈ s.accepted.map wire.id) :
      Step wire s { s with pass := .sending (batches.map (unheld wire held)) offsets }
  | posts (name : String) (event : ε) (events : List ε) (offset : ℕ) (batches : List (Batch ε)) (offsets : String → ℕ)
      (hpass : s.pass = .sending (⟨name, event :: events, offset⟩ :: batches) offsets) :
      Step wire s { s with
        accepted := s.accepted ++ [event]
        pass := .sending (⟨name, events, offset⟩ :: batches) offsets }
  | sent (name : String) (offset file : ℕ) (batches : List (Batch ε)) (offsets : String → ℕ)
      (hpass : s.pass = .sending (⟨name, [], offset⟩ :: batches) offsets) (hnamed : s.named name = some file) :
      Step wire s { s with
        pass := if offset = (s.text file).length then .retiring name batches (Function.update offsets name offset)
          else .sending batches (Function.update offsets name offset) }
  /-- A writer holds the file, and it stays. -/
  | spares (name : String) (batches : List (Batch ε)) (offsets : String → ℕ)
      (hpass : s.pass = .retiring name batches offsets) : Step wire s { s with pass := .sending batches offsets }
  | holds (name : String) (file : ℕ) (batches : List (Batch ε)) (offsets : String → ℕ)
      (hpass : s.pass = .retiring name batches offsets) (hnamed : s.named name = some file) (hfree : s.Free file) :
      Step wire s { s with pass := .unlinking name file batches offsets }
  | unlinks (name : String) (file : ℕ) (batches : List (Batch ε)) (offsets : String → ℕ)
      (hpass : s.pass = .unlinking name file batches offsets) :
      Step wire s { s with
        named := Function.update s.named name none
        pass := .sending batches (Function.update offsets name 0) }
  /-- A pass ends or raises, maybe after the sink accepted what it was posting. -/
  | ends (offsets : String → ℕ) (late : List ε) (hoffsets : s.pass.offsets = some offsets)
      (hlate : late = [] ∨ ∃ batch ∈ s.pass.batches, ∃ event ∈ batch.events, late = [event]) :
      Step wire s { s with accepted := s.accepted ++ late, pass := .keeping offsets }
  | keeps (offsets : String → ℕ) (hpass : s.pass = .keeping offsets) :
      Step wire s { s with ledger := offsets, pass := .idle }
  /-- A pass is killed. -/
  | killed : Step wire s { s with pass := .idle }

/-- What a step stays clear of: an event whose line does not read back, a writer whose path names another file than it
opened, a file grown between the pass's look at its size and the lock, and a pass killed between deleting a file and
keeping the ledger that had an offset for it. -/
structure Clear {ι ε : Type} (wire : Wire ι ε) (s s' : Spool ε) : Prop where
  reads : ∀ writer file event pending, s.writers writer = .ready file →
    s'.writers writer = .writing file event pending → wire.Reads event
  same : ∀ writer name file length, s.writers writer = .locked name file →
    s'.writers writer = .cutting file length → s.named name = some file
  whole : ∀ name file batches offsets, s'.pass = .unlinking name file batches offsets →
    offsets name = (s'.text file).length
  kept : ∀ offsets, s.pass.offsets = some offsets → s'.pass = .idle → s'.ledger = s.ledger →
    ∀ name, s.ledger name ≤ offsets name

/-- Runs of clear steps from an empty spool. -/
inductive Reachable {ι ε : Type} [DecidableEq ι] (wire : Wire ι ε) : Spool ε → Prop where
  | start : Reachable wire {}
  | step {s s' : Spool ε} (h : Reachable wire s) (hstep : Step wire s s') (hclear : Clear wire s s') :
    Reachable wire s'

end Mainboard.Telemetry
