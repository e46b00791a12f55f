import Mathlib.Data.List.Sort
import Mainboard.Runs
import Mainboard.Seals
import Mainboard.SegmentedStream

/-! One job's stream of frames on disk: archives rolled out of a live file, the live file, and a published heartbeat.
The writer appends, rolls and crashes between any two of its writes, and a follower reads beside it, one look at the
disk at a time. -/

namespace Mainboard.Observe

open Analysis (Text Bytes utf8 decode)
open Analysis.Sealed (isSpace)
open Segmented

/-- One frame of a job's stream, stamped with the position it starts at. -/
structure Frame (Payload : Type) where
  offset : ℕ
  payload : Payload
  deriving DecidableEq, Repr

/-- A frame as one line of text, read back from it, and whether it says that the job ended. -/
structure Wire (Payload : Type) where
  encode : Frame Payload → Text
  decode : Text → Option (Frame Payload)
  ended : Payload → Bool

/-- A line that `str.strip` leaves something of. -/
def isSolid (line : Text) : Bool := line.any fun char => !isSpace char

/-- A line is read back as its frame, has no line feed in it and is not blank. -/
structure Wire.Lawful {Payload : Type} (wire : Wire Payload) : Prop where
  reads : ∀ frame, wire.decode (wire.encode frame) = some frame
  oneLine : ∀ frame, '\n' ∉ wire.encode frame
  solid : ∀ frame, isSolid (wire.encode frame)

/-- What `status.json` says: whether the job ended, the write position, and the live file's. -/
structure Heartbeat where
  ended : Bool
  offset : ℕ
  base : ℕ
  deriving DecidableEq, Repr

/-- A job's directory. An archive's name spells where it starts and stops. -/
structure Disk where
  archives : List (Segment UInt8) := []
  live : Option Bytes := none
  status : Option Heartbeat := none
  deriving DecidableEq, Repr

/-- Where a writer stands between its writes: at rest, with some of a frame still to write, with a segment to roll,
with its archive in place and the live file still there, and with the live file gone. -/
inductive Phase (Payload : Type) where
  | idle
  | writing (frame : Frame Payload) (rest : Bytes)
  | full
  | archived (stop : ℕ)
  | unlinked
  deriving DecidableEq

structure Writer (Payload : Type) where
  start : ℕ
  offset : ℕ
  phase : Phase Payload
  deriving DecidableEq

/-- Where a follower stands between its looks at the disk: resting, with the archives listed, with the live file found
beside them, with its size over what is wanted, done with a reading that found nothing or something, returned, or raised.
A reading also carries how many frames were committed when it was made, where it was of the whole stream. -/
inductive Reading where
  | resting
  | listed (archives : List (Segment UInt8))
  | found (archives : List (Segment UInt8))
  | measured (archives : List (Segment UInt8))
  | asking (empty : Bool) (caught : Option ℕ)
  | returned
  | raised
  deriving DecidableEq

structure Follower (Payload : Type) where
  origin : ℕ
  cursor : ℕ
  yielded : List (Frame Payload)
  reading : Reading
  deriving DecidableEq

/-- A spool with its writer and a follower, every frame committed, what is written of the next, and how many frames were
committed when the first `ended` heartbeat was published. -/
structure State (Payload : Type) where
  disk : Disk := {}
  writer : Option (Writer Payload) := none
  follower : Option (Follower Payload) := none
  committed : List (Frame Payload) := []
  part : Bytes := []
  settled : Option ℕ := none
  deriving DecidableEq

inductive Label (Payload : Type) where
  | append (payload : Payload)
  | write (count : ℕ)
  | archive
  | unlink
  | reopenLive
  | heartbeat (ended : Bool)
  | crash
  | reopen
  | attach (offset : ℕ)
  | poll
  deriving DecidableEq

namespace Disk

/-- The archives in the order of their names. -/
def sorted (disk : Disk) : List (Segment UInt8) := disk.archives.insertionSort fun one other =>
  one.start < other.start ∨ one.start = other.start ∧ one.stop ≤ other.stop

/-- An archive put under its name. -/
def putArchive (disk : Disk) (archive : Segment UInt8) : Disk :=
  { disk with archives := (disk.archives.filter fun other =>
      !(other.start == archive.start && other.stop == archive.stop)) ++ [archive] }

/-- The live segment's start and the write position, recovered from disk. -/
def resume (disk : Disk) : ℕ × ℕ :=
  let base := endOf disk.sorted
  match disk.live with
  | some data => (base, base + data.length)
  | none => (base, base)

/-- What the live file holds from an offset on. -/
def liveFrom (disk : Disk) (offset : ℕ) : Bytes :=
  let base := endOf disk.sorted
  match disk.live with
  | some data => if offset < base + data.length then data.drop (offset - base) else []
  | none => []

/-- Opening the live file for append creates it. -/
def opened (disk : Disk) : Disk := { disk with live := some (disk.live.getD []) }

end Disk

/-- The text before the last line feed. -/
def beforeLast (text : Text) : Text := ((text.reverse.dropWhile (· ≠ '\n')).drop 1).reverse

section Frames

variable {Payload : Type} (wire : Wire Payload)

/-- A frame's line on the wire. -/
def line (frame : Frame Payload) : Bytes := utf8 (wire.encode frame ++ ['\n'])

/-- Every complete frame of a text, a last line cut short left out. -/
def parseTail (text : Text) : Option (List (Frame Payload)) :=
  let complete := if text.getLast? = some '\n' then text else beforeLast text
  ((complete.splitOn '\n').filter isSolid).mapM wire.decode

/-- The frames of the chunks read. -/
def framesOf (chunks : Bytes) : Option (List (Frame Payload)) := (decode chunks).bind (parseTail wire)

/-- Every frame at or after an offset, spanning the archives and the live file. -/
def framesFrom (disk : Disk) (offset : ℕ) : Option (List (Frame Payload)) :=
  framesOf wire (readFrom disk.sorted offset ++ disk.liveFrom offset)

/-- The position to resume from after some frames. -/
def nextOffset (frames : List (Frame Payload)) (cursor : ℕ) : ℕ := match frames.getLast? with
  | some frame => frame.offset + (line wire frame).length
  | none => cursor

/-- What a follower makes of the chunks it read. -/
def Follower.take (follower : Follower Payload) (chunks : Bytes) (caught : Option ℕ) : Follower Payload :=
  match framesOf wire chunks with
  | none => { follower with reading := .raised }
  | some frames =>
      { follower with
        cursor := nextOffset wire frames follower.cursor
        yielded := follower.yielded ++ frames
        reading := if frames.any fun frame => wire.ended frame.payload then .returned
          else .asking frames.isEmpty caught }

namespace State

variable (s : State Payload)

/-- Where the live file's first byte truly lies in the stream. -/
def liveStart : ℕ := match s.writer with
  | some ⟨start, _, .archived _⟩ => start
  | _ => endOf s.disk.sorted

/-- The frames committed now, for a reading that took the live file for what it is. -/
def caught (archives : List (Segment UInt8)) : Option ℕ :=
  if endOf archives = s.liveStart then some s.committed.length else none

/-- A follower's next look. -/
def look (follower : Follower Payload) : Follower Payload := match follower.reading with
  | .resting => { follower with reading := .listed s.disk.sorted }
  | .listed archives => match s.disk.live with
      | some _ => { follower with reading := .found archives }
      | none => follower.take wire (readFrom archives follower.cursor) (s.caught archives)
  | .found archives => match s.disk.live with
      | some data =>
          if follower.cursor < endOf archives + data.length then { follower with reading := .measured archives }
          else follower.take wire (readFrom archives follower.cursor) (s.caught archives)
      | none => { follower with reading := .raised }
  | .measured archives => match s.disk.live with
      | some data => follower.take wire
          (readFrom archives follower.cursor ++ data.drop (follower.cursor - endOf archives)) (s.caught archives)
      | none => { follower with reading := .raised }
  | .asking empty _ =>
      if empty && s.disk.status.any Heartbeat.ended then { follower with reading := .returned }
      else { follower with reading := .resting }
  | .returned | .raised => follower

/-- Some more of a frame written; the last of it commits the frame, and fills the segment at the threshold. -/
def wrote (rollBytes : ℕ) (writer : Writer Payload) (frame : Frame Payload) (rest : Bytes) (count : ℕ) : State Payload :=
  let disk := { s.disk with live := s.disk.live.map (· ++ rest.take count) }
  if rest.drop count = [] then
    let offset := writer.offset + (line wire frame).length
    { s with
      disk
      writer := some { writer with offset, phase := if rollBytes ≤ offset - writer.start then .full else .idle }
      committed := s.committed ++ [frame]
      part := [] }
  else
    { s with
      disk
      writer := some { writer with phase := .writing frame (rest.drop count) }
      part := s.part ++ rest.take count }

/-- One write of the writer's, one of its crashes and reopenings, or one look of the follower's. What is not possible
where the writer stands leaves the state as it is. -/
def step (rollBytes : ℕ) (s : State Payload) : Label Payload → State Payload
  | .append payload => match s.writer with
      | some ⟨start, offset, .idle⟩ =>
          { s with writer := some ⟨start, offset, .writing ⟨offset, payload⟩ (line wire ⟨offset, payload⟩)⟩ }
      | _ => s
  | .write count => match s.writer with
      | some ⟨start, offset, .writing frame rest⟩ => s.wrote wire rollBytes ⟨start, offset, .idle⟩ frame rest count
      | _ => s
  | .archive => match s.writer, s.disk.live with
      | some ⟨start, offset, .full⟩, some data =>
          { s with
            disk := s.disk.putArchive ⟨start, data⟩
            writer := some ⟨start, offset, .archived (start + data.length)⟩ }
      | _, _ => s
  | .unlink => match s.writer with
      | some ⟨_, offset, .archived stop⟩ =>
          { s with disk := { s.disk with live := none }, writer := some ⟨stop, offset, .unlinked⟩ }
      | _ => s
  | .reopenLive => match s.writer with
      | some ⟨start, offset, .unlinked⟩ => { s with disk := s.disk.opened, writer := some ⟨start, offset, .idle⟩ }
      | _ => s
  | .heartbeat ended => match s.writer with
      | some ⟨start, offset, .idle⟩ =>
          { s with
            disk := { s.disk with status := some ⟨ended, offset, start⟩ }
            settled := if ended then s.settled.or (some s.committed.length) else s.settled }
      | _ => s
  | .crash => { s with writer := none }
  | .reopen => match s.writer with
      | none =>
          { s with disk := s.disk.opened, writer := some ⟨s.disk.resume.1, s.disk.resume.2, .idle⟩ }
      | some _ => s
  | .attach offset => { s with disk := s.disk.opened, follower := some ⟨offset, offset, [], .resting⟩ }
  | .poll => match s.follower with
      | some follower => { s with follower := some (s.look wire follower) }
      | none => s

end State

end Frames

end Mainboard.Observe
