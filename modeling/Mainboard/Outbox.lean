import Mathlib.Logic.Function.Basic
import Mainboard.LineText

/-! The outbox of a workspace's keeps. An append looks for a receipt, opens the key's line file and locks it, cuts
what a dead writer left unfinished, and writes the keep's line where the file is empty; a pass, one at a time, reads
the lines, delivers each keep, and replaces the line by a receipt or sets it aside as refused. Any number of appends
and the pass take their steps in any order, and each may stop between two of them. The line file is reached by its
path, a writer's handle by the file it opened: the two part when a pass takes the file from its path. -/

namespace Mainboard.Memory
open LineText

/-- What the outbox asks of a keep: its key, whether it is a file, the spool line of its event, and the reading
of a line as an event's id and keep. -/
structure Wire (κ ι : Type) where
  key : ι → κ
  file : ι → Bool
  line : ι → ℕ → List Char
  parse : List Char → Option (κ × ι)
  /-- A line is JSON, which holds no raw newline. -/
  plain : ∀ keep moment, '\n' ∉ line keep moment
  /-- A line reads back as the event it was written from. -/
  parse_line : ∀ keep moment, parse (line keep moment) = some (key keep, keep)

/-- One key's places: the files its line path has named, by number, with their texts and locks, which of them the
line path and the refused path name now, and whether its copy and its receipt stand. -/
structure Slot where
  files : ℕ → List Char := fun _ => []
  locks : ℕ → Option ℕ := fun _ => none
  next : ℕ := 0
  line : Option ℕ := none
  refused : Option ℕ := none
  blob : Bool := false
  receipt : Bool := false

/-- Where an append stands between two of its steps, with the file its handle is on. -/
inductive Stage where
  /-- It found no receipt. -/
  | checked
  | opened (file : ℕ)
  | locked (file : ℕ)
  /-- It read how much of the file at the path is complete, and will cut its own to that. -/
  | cutting (file length : ℕ)
  /-- It will look how long the file at the path is. -/
  | ready (file : ℕ)
  | copying (file : ℕ)
  | copied (file : ℕ)
  | writing (file : ℕ) (pending : List Char)
  deriving DecidableEq, Repr

/-- The file the append's handle is on. -/
def Stage.handle : Stage → Option ℕ
  | checked => none
  | opened file | locked file | cutting file _ | ready file | copying file | copied file | writing file _ => some file

/-- The file whose lock the append holds. -/
def Stage.lock : Stage → Option ℕ
  | checked | opened _ => none
  | locked file | cutting file _ | ready file | copying file | copied file | writing file _ => some file

/-- An append under way. -/
structure Append (ι : Type) where
  keep : ι
  stage : Stage

/-- Where the pass stands with one key. -/
inductive Task (ι : Type) where
  | todo
  /-- Its line is to be set aside: it is no keep's, could not be read, or its keep was refused. -/
  | aside
  | waiting (keep : ι)
  | delivered (keep : ι)
  | receipted
  | unlinked
  | done

/-- The outbox, the appends under way, the pass under way, and the keys of the keeps whose append returned. -/
structure Outbox (κ ι : Type) where
  slots : κ → Slot := fun _ => {}
  appends : ℕ → Option (Append ι) := fun _ => none
  pass : Option (κ → Task ι) := none
  kept : List κ := []

/-- What the upstream answers a keep. -/
inductive Answer where
  | accepted
  | refused
  | unreachable
  deriving DecidableEq, Repr

/-- What happens next. The next step of an append is given what it may meet: whether the copy is the file
digested, the moment it is stamped, how much of its line the disk takes. -/
inductive Label (κ ι : Type) where
  | append (id : ℕ) (keep : ι)
  | advance (id : ℕ) (same : Bool) (moment amount : ℕ)
  /-- The append raised, or its process died. -/
  | stop (id : ℕ)
  | drain
  | deal (key : κ) (readable : Bool) (answer : Answer)
  /-- The pass ended, raised, or its process died. -/
  | leave

section Machine

variable {κ ι : Type} [DecidableEq κ]

def Outbox.put (s : Outbox κ ι) (key : κ) (slot : Slot) : Outbox κ ι :=
  { s with slots := Function.update s.slots key slot }

def Outbox.enter (s : Outbox κ ι) (id : ℕ) (append : Append ι) (stage : Stage) : Outbox κ ι :=
  { s with appends := Function.update s.appends id (some { append with stage }) }

/-- The slot once the append's handle is closed. -/
def Slot.unlocked (slot : Slot) (stage : Stage) : Slot :=
  match stage.lock with
  | some file => { slot with locks := Function.update slot.locks file none }
  | none => slot

def Slot.write (slot : Slot) (file : ℕ) (text : List Char) : Slot :=
  { slot with files := Function.update slot.files file text }

/-- The append is over, its handle closed and its lock released. -/
def Outbox.close (wire : Wire κ ι) (s : Outbox κ ι) (id : ℕ) (append : Append ι) : Outbox κ ι :=
  let key := wire.key append.keep
  { s.put key ((s.slots key).unlocked append.stage) with appends := Function.update s.appends id none }

/-- The append returned. -/
def Outbox.keeps (wire : Wire κ ι) (s : Outbox κ ι) (id : ℕ) (append : Append ι) : Outbox κ ι :=
  { s.close wire id append with kept := s.kept ++ [wire.key append.keep] }

/-- The file the line path names, created where it names none. -/
def Slot.opened (slot : Slot) : Slot × ℕ :=
  match slot.line with
  | some file => (slot, file)
  | none => ({ slot.write slot.next [] with line := some slot.next, next := slot.next + 1 }, slot.next)

/-- The next step of an append. -/
def advance (wire : Wire κ ι) (s : Outbox κ ι) (id : ℕ) (append : Append ι) (same : Bool) (moment amount : ℕ) :
    Outbox κ ι :=
  let key := wire.key append.keep
  let slot := s.slots key
  match append.stage with
  | .checked => (s.put key slot.opened.1).enter id append (.opened slot.opened.2)
  | .opened file =>
      match slot.locks file with
      | none => (s.put key { slot with locks := Function.update slot.locks file (some id) }).enter id append (.locked file)
      | some _ => s.close wire id append
  | .locked file =>
      match slot.line with
      | none => s.close wire id append
      | some path => s.enter id append (.cutting file (ended '\n' (slot.files path)))
  | .cutting file length =>
      (s.put key (slot.write file (cut '\x00' length (slot.files file)))).enter id append (.ready file)
  | .ready file =>
      match slot.line with
      | none => s.close wire id append
      | some path =>
          if slot.files path ≠ [] then s.keeps wire id append
          else if wire.file append.keep then s.enter id append (.copying file)
          else s.enter id append (.writing file (wire.line append.keep moment ++ ['\n']))
  | .copying file => (s.put key { slot with blob := true }).enter id append (.copied file)
  | .copied file =>
      if same then s.enter id append (.writing file (wire.line append.keep moment ++ ['\n']))
      else (s.put key { slot with blob := false }).close wire id append
  | .writing file pending =>
      let written := s.put key (slot.write file (slot.files file ++ pending.take amount))
      if pending.drop amount = [] then written.keeps wire id append
      else written.enter id append (.writing file (pending.drop amount))

/-- What the pass makes of a key's line: nothing where none is complete, the keep it holds, or a line to be set
aside. -/
def Slot.read (wire : Wire κ ι) (key : κ) (slot : Slot) (readable : Bool) : Task ι :=
  match slot.line with
  | none => .done
  | some file =>
      if readable then
        match (linesOf '\n' (slot.files file)).mapM wire.parse with
        | none => .aside
        | some [] => .done
        | some (first :: rest) =>
            if rest = [] ∧ key = first.1 ∧ first.1 = wire.key first.2 ∧ (wire.file first.2 → slot.blob)
            then .waiting first.2 else .aside
      else .aside

/-- The pass goes on with one key. -/
def Outbox.task (s : Outbox κ ι) (tasks : κ → Task ι) (key : κ) (task : Task ι) : Outbox κ ι :=
  { s with pass := some (Function.update tasks key task) }

/-- The pass's next step on a key. -/
def deal (wire : Wire κ ι) (s : Outbox κ ι) (tasks : κ → Task ι) (key : κ) (readable : Bool) (answer : Answer) :
    Outbox κ ι :=
  let slot := s.slots key
  match tasks key with
  | .todo => s.task tasks key (slot.read wire key readable)
  | .aside =>
      match slot.line with
      | none => { s with pass := none }
      | some file => (s.put key { slot with line := none, refused := some file }).task tasks key .done
  | .waiting keep =>
      match answer with
      | .accepted => s.task tasks key (.delivered keep)
      | .refused => s.task tasks key .aside
      | .unreachable => { s with pass := none }
  | .delivered _ => (s.put key { slot with receipt := true }).task tasks key .receipted
  | .receipted => (s.put key { slot with line := none }).task tasks key .unlinked
  | .unlinked => (s.put key { slot with blob := false }).task tasks key .done
  | .done => s

/-- One step of the outbox. -/
def step (wire : Wire κ ι) (s : Outbox κ ι) : Label κ ι → Outbox κ ι
  | .append id keep =>
      if (s.appends id).isSome then s
      else if (s.slots (wire.key keep)).receipt then { s with kept := s.kept ++ [wire.key keep] }
      else s.enter id ⟨keep, .checked⟩ .checked
  | .advance id same moment amount =>
      ((s.appends id).map fun append => advance wire s id append same moment amount).getD s
  | .stop id => ((s.appends id).map fun append => s.close wire id append).getD s
  | .drain => if s.pass.isSome then s else { s with pass := some fun _ => .todo }
  | .deal key readable answer => (s.pass.map fun tasks => deal wire s tasks key readable answer).getD s
  | .leave => { s with pass := none }

end Machine

end Mainboard.Memory
