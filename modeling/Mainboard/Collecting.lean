import Mathlib.Data.List.Basic
import Mainboard.OrderedMap

/-! Collecting a host's evidence. A pass tells the host what the center holds, and the host packs what is left up to the
center's allowance; the center takes the archive apart in staging, moves aside what differs from a copy of its own, and
keeps the rest in its lake. An eviction removes from the host what the lake holds whole at the same path. -/

namespace Mainboard.Collection

open OrderedMap (get put putAll)

/-- A workspace-relative path by its components. -/
abbrev Path := List String

abbrev Bytes := List UInt8

/-- What is read of a file without opening it. -/
structure Stat where
  ino : ℕ
  size : ℕ
  mtime : ℕ
  regular : Bool
  deriving DecidableEq, Repr

/-- A file of the host as a walk meets it. -/
structure Entry where
  path : Path
  stat : Stat
  bytes : Bytes
  deriving DecidableEq, Repr

def starts (head name : String) : Bool := head.toList.isPrefixOf name.toList

def ends (tail name : String) : Bool := tail.toList.isSuffixOf name.toList

/-- What stands outside: the digest of bytes, its first eight digits, and the byte range of a journal's records, none
where they are not contiguous. -/
structure World (Digest : Type) where
  hash : Bytes → Digest
  short : Digest → String
  ranged : Bytes → Option (ℕ × ℕ)
  /-- Digits are not a name of the tool's own. -/
  digits : ∀ digest, starts ".mb-" (short digest) = false

variable {Digest : Type} [DecidableEq Digest]

/-! ### The host's side -/

/-- The digests a host remembers, each with the size and modification time the file had. -/
abbrev Digests (Digest : Type) := List (Path × (ℕ × ℕ × Digest))

/-- The digest of a file, reused while it keeps its size and modification time. -/
def Digests.of (world : World Digest) (held : Digests Digest) (entry : Entry) : Digest × Digests Digest :=
  let record := (world.hash entry.bytes,
    put held entry.path (entry.stat.size, entry.stat.mtime, world.hash entry.bytes))
  match get held entry.path with
  | none => record
  | some (size, mtime, digest) => if size = entry.stat.size ∧ mtime = entry.stat.mtime then (digest, held) else record

/-- Incomplete files and mutable status sidecars. -/
def excluded (path : Path) : Bool :=
  let name := path.getLast?.getD ""
  let parent := path.dropLast.getLast?.getD ""
  ends ".tmp" name || name == "latest.jsonl" ||
    (starts "partial-" name && ends ".jsonl" name && decide (14 ≤ name.length)) || starts ".card.lock" name ||
    (parent == "events" && name == "status.json") || (parent == "objects" && starts "tmp" name && name.length == 11)

/-- Whether a path is a journal still written. -/
def live (path : Path) : Bool :=
  path.dropLast.getLast? == some "events" && path.getLast? == some "live.ndjson"

/-- A number in twenty digits. -/
def padded (number : ℕ) : String :=
  let digits := Nat.toDigits 10 number
  String.ofList (List.replicate (20 - digits.length) '0' ++ digits)

/-- The name a journal's records are collected under. -/
def rangeName (start stop : ℕ) : String := "collected-" ++ padded start ++ "-" ++ padded stop ++ ".ndjson"

/-- The complete lines of what a journal holds. -/
def complete (bytes : Bytes) : Bytes := (bytes.reverse.dropWhile (· ≠ 10)).reverse

/-- What the center already holds and how much one pass may bring it. -/
structure Center (Digest : Type) where
  kept : List (Path × Digest)
  known : List (Path × Digest)
  allowance : ℕ

/-- Why a pass is refused. -/
inductive Fault where
  | irregular (path : Path)
  | tooLarge (path : Path)
  | events (path : Path)
  | unexpected (path : Path)
  | duplicate (path : Path)
  | blocked (path : Path)
  | lost (path : Path)
  | more
  deriving DecidableEq, Repr

/-- A pass's archive as it is written: its members, the files named instead of sent, the file bytes sent, and whether
the allowance ended it. -/
structure Writer (Digest : Type) where
  members : List (Path × Bytes) := []
  named : List (Path × Digest) := []
  sent : ℕ := 0
  spent : Bool := false
  digests : Digests Digest

/-- Complete records go under their range, unless that range was collected. -/
def Writer.snapshot (world : World Digest) (known : List (Path × Digest)) (writer : Writer Digest) (entry : Entry) :
    Except Fault (Writer Digest) :=
  let data := complete entry.bytes
  if data = [] then .ok writer
  else
    match world.ranged data with
    | none => .error (.events entry.path)
    | some (start, stop) =>
        let name := entry.path.dropLast ++ [rangeName start stop]
        if (get known name).isSome then .ok writer else .ok { writer with members := writer.members ++ [(name, data)] }

/-- A file goes whole where the allowance still holds it, else it ends the pass. -/
def Writer.send (allowance : ℕ) (writer : Writer Digest) (entry : Entry) : Except Fault (Writer Digest) :=
  if allowance < entry.stat.size then .error (.tooLarge entry.path)
  else if allowance < writer.sent + entry.stat.size then .ok { writer with spent := true }
  else
    .ok { writer with
      members := writer.members ++ [(entry.path, entry.bytes)]
      sent := writer.sent + entry.stat.size }

/-- One file of the walk: sent, or named, unless the center has it at its path. -/
def Writer.add (world : World Digest) (center : Center Digest) (writer : Writer Digest) (entry : Entry) :
    Except Fault (Writer Digest) :=
  if live entry.path then writer.snapshot world (putAll center.kept center.known) entry
  else
    let (digest, digests) := writer.digests.of world entry
    let writer := { writer with digests := digests }
    if get (putAll center.kept center.known) entry.path = some digest then .ok writer
    else if digest ∈ center.kept.map (·.2) then .ok { writer with named := put writer.named entry.path digest }
    else writer.send center.allowance entry

/-- The files of a walk one after the other, until the allowance is spent. -/
def Writer.addAll (world : World Digest) (center : Center Digest) : Writer Digest → List Entry → Except Fault (Writer Digest)
  | writer, [] => .ok writer
  | writer, entry :: entries =>
      if excluded entry.path then addAll world center writer entries
      else if entry.stat.regular = false then .error (.irregular entry.path)
      else
        match writer.add world center entry with
        | .error fault => .error fault
        | .ok writer => if writer.spent then .ok writer else addAll world center writer entries

/-- What a host streams home. -/
def pack (world : World Digest) (center : Center Digest) (digests : Digests Digest) (entries : List Entry) :
    Except Fault (Writer Digest) :=
  Writer.addAll world center { digests := digests } entries

/-! ### The center's side -/

/-- A transfer: its files, what the host named instead, and whether it stopped short. -/
structure Archive (Digest : Type) where
  members : List (Path × Bytes)
  held : List (Path × Digest)
  more : Bool

def Writer.archive (writer : Writer Digest) : Archive Digest := ⟨writer.members, writer.named, writer.spent⟩

/-- The evidence of a lake: the digest indexed at each path, and the objects kept. -/
structure Lake (Digest : Type) where
  index : List (Path × Digest) := []
  objects : List (Digest × Bytes) := []

/-- Whether the lake holds an object whole. -/
def Lake.holds (world : World Digest) (lake : Lake Digest) (digest : Digest) : Bool :=
  (get lake.objects digest).any fun bytes => world.hash bytes == digest

/-- The digest indexed at each path under a scope. -/
def Lake.kept (lake : Lake Digest) (scope : Path) : List (Path × Digest) :=
  lake.index.filter fun row => scope.isPrefixOf row.1

/-- What the lake indexes whole under a scope, which is what a host may evict. -/
def Lake.intact (world : World Digest) (lake : Lake Digest) (scope : Path) : List (Path × Digest) :=
  (lake.kept scope).filter fun row => lake.holds world row.2

/-- The digests of the tree's files below a scope that the lake does not index as they are. -/
def locals (world : World Digest) (tree : List (Path × Bytes)) (lake : Lake Digest) (scope : Path) : List (Path × Digest) :=
  ((tree.filter fun file => scope.isPrefixOf file.1 && file.1 != scope).map fun file => (file.1, world.hash file.2)).filter
    fun row => get (lake.kept scope) row.1 ≠ some row.2

/-- What a pass tells the host. -/
def asking (world : World Digest) (tree : List (Path × Bytes)) (lake : Lake Digest) (scope : Path) (allowance : ℕ) :
    Center Digest :=
  ⟨lake.kept scope, locals world tree lake scope, allowance⟩

/-- Whether two paths cannot both be files of one tree. -/
def clash (one other : Path) : Bool := one.isPrefixOf other || other.isPrefixOf one

/-- The transfer taken apart: every path checked before anything is kept. -/
def extract (scope : Path) : List (Path × Bytes) → List (Path × Bytes) → Except Fault (List (Path × Bytes))
  | staged, [] => .ok staged
  | staged, member :: members =>
      if scope.isPrefixOf member.1 = false then .error (.unexpected member.1)
      else if staged.any fun file => clash file.1 member.1 then .error (.duplicate member.1)
      else extract scope (staged ++ [member]) members

/-- The digest the center holds at a path: its tree's file, else what the lake indexes. -/
def expected (world : World Digest) (tree : List (Path × Bytes)) (kept : List (Path × Digest)) (path : Path) : Option Digest :=
  match get tree path with
  | some bytes => some (world.hash bytes)
  | none => get kept path

/-- What the transfer offers at a path: the digest named there, else that of the file staged there. -/
def offered (world : World Digest) (held : List (Path × Digest)) (staged : List (Path × Bytes)) (path : Path) : Option Digest :=
  (get held path).or ((get staged path).map world.hash)

/-- The digest offered at a path where the center holds another. -/
def diverging (world : World Digest) (tree : List (Path × Bytes)) (kept held : List (Path × Digest))
    (staged : List (Path × Bytes)) (path : Path) : Option Digest :=
  match expected world tree kept path with
  | none => none
  | some here => (offered world held staged path).filter (· ≠ here)

/-- Where a divergent file is kept. -/
def aside (world : World Digest) (scope path : Path) (digest : Digest) : Path :=
  scope ++ [".conflicts", world.short digest] ++ path.drop scope.length

/-- One path of the transfer: a divergent file moves aside in staging, and is not adopted at its path. -/
def divertOne (world : World Digest) (tree : List (Path × Bytes)) (kept : List (Path × Digest)) (archive : Archive Digest)
    (scope : Path) (staged : List (Path × Bytes)) (remaining : List (Path × Digest)) (path : Path) :
    Except Fault (List (Path × Bytes) × List (Path × Digest)) :=
  match diverging world tree kept archive.held staged path with
  | none => .ok (staged, remaining)
  | some digest =>
      let left := remaining.filter (·.1 ≠ path)
      if (get archive.members path).isNone then .ok (staged, left)
      else
        let target := aside world scope path digest
        match get staged path with
        | none => .error (.blocked path)
        | some bytes =>
            if staged.any fun file => file.1 ≠ target && clash file.1 target then .error (.blocked path)
            else .ok (put (staged.filter (·.1 ≠ path)) target bytes, left)

/-- Every path of the transfer in turn. -/
def divert (world : World Digest) (tree : List (Path × Bytes)) (kept : List (Path × Digest)) (archive : Archive Digest)
    (scope : Path) : List (Path × Bytes) → List (Path × Digest) → List Path →
    Except Fault (List (Path × Bytes) × List (Path × Digest))
  | staged, remaining, [] => .ok (staged, remaining)
  | staged, remaining, path :: paths =>
      match divertOne world tree kept archive scope staged remaining path with
      | .error fault => .error fault
      | .ok (staged, remaining) => divert world tree kept archive scope staged remaining paths

/-- One staged file kept: its object where the lake does not hold it whole, and its path. -/
def Lake.keep (world : World Digest) (lake : Lake Digest) (file : Path × Bytes) : Lake Digest where
  index := put lake.index file.1 (world.hash file.2)
  objects := if lake.holds world (world.hash file.2) then lake.objects else put lake.objects (world.hash file.2) file.2

/-- Whether a path leads through a name of the tool's own: a file being written, or a candidate set aside. -/
def own (path : Path) : Bool := path.any (starts ".mb-")

/-- Every staged file kept, but those of the tool's own. -/
def Lake.ingest (world : World Digest) (lake : Lake Digest) (staged : List (Path × Bytes)) : Lake Digest :=
  (staged.filter fun file => !own file.1).foldl (fun lake file => lake.keep world file) lake

/-- Paths indexed at objects the lake keeps, refused as a whole when one is not there. -/
def Lake.adopt (world : World Digest) (lake : Lake Digest) (named : List (Path × Digest)) : Except Fault (Lake Digest) :=
  match named.find? fun row => !(decide (row.2 ∈ lake.index.map (·.2)) && lake.holds world row.2) with
  | some row => .error (.lost row.1)
  | none => .ok { lake with index := putAll lake.index named }

/-- A transfer kept. What is staged is kept before the named paths are adopted, and before a transfer that stopped
short is refused. -/
def merge (world : World Digest) (tree : List (Path × Bytes)) (lake : Lake Digest) (scope : Path) (archive : Archive Digest) :
    Lake Digest × Option Fault :=
  match extract scope [] archive.members with
  | .error fault => (lake, some fault)
  | .ok staged =>
      match archive.held.find? fun row => !scope.isPrefixOf row.1 with
      | some row => (lake, some (.unexpected row.1))
      | none =>
          match divert world tree (lake.kept scope) archive scope staged archive.held
              (archive.members.map (·.1) ++ archive.held.map (·.1)) with
          | .error fault => (lake, some fault)
          | .ok (staged, remaining) =>
              let kept := lake.ingest world staged
              match kept.adopt world remaining with
              | .error fault => (kept, some fault)
              | .ok adopted => (adopted, if archive.more then some .more else none)

/-- One pass: the host packs what the center lacks, and the center merges it. The host keeps the digests it took. -/
def pull (world : World Digest) (tree : List (Path × Bytes)) (scope : Path) (allowance : ℕ) (entries : List Entry)
    (lake : Lake Digest) (digests : Digests Digest) : (Lake Digest × Digests Digest) × Option Fault :=
  match pack world (asking world tree lake scope allowance) digests entries with
  | .error fault => ((lake, digests), some fault)
  | .ok writer =>
      let (merged, fault) := merge world tree lake scope writer.archive
      ((merged, writer.digests), fault)

/-! ### Eviction -/

/-- Whether a file is still the one that was seen when it was hashed. -/
def unchanged (seen now : Stat) : Bool := (now.ino, now.size, now.mtime) == (seen.ino, seen.size, seen.mtime)

/-- Why a file of the host stays. -/
inductive Stay where
  | special
  | unkept
  | otherBytes
  | changed
  | gone
  deriving DecidableEq, Repr

/-- Why a file seen in a walk stays: none when the lake holds the digest it was found to have at its path, and it is
still the file that was seen. -/
def why (kept : List (Path × Digest)) (path : Path) (seen : Stat) (digest : Option Digest) (now : Option Stat) :
    Option Stay :=
  if seen.regular = false then some .special
  else
    match get kept path with
    | none => some .unkept
    | some wanted =>
        match digest with
        | none => some .gone
        | some digest =>
            if digest ≠ wanted then some .otherBytes
            else
              match now with
              | none => some .gone
              | some now => if unchanged seen now then none else some .changed

/-- The digest of a file now gone is dropped. -/
def Digests.forget (held : Digests Digest) (path : Path) : Digests Digest := held.filter (·.1 ≠ path)

end Mainboard.Collection
