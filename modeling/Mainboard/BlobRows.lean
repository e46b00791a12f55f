import Mathlib.Data.List.Dedup
import Mainboard.Grouping

/-! An object of the lake is its digest and its bytes in ordered chunks, each chunk a row that may be
stored more than once. One verifier judges the stored copies in ordinal order, whichever of the two
paths brings them, and every reader goes by it. -/

namespace Mainboard.Blobs

abbrev Bytes := List UInt8

/-- One stored chunk. A row from before chunking has no ordinal and is the whole object. -/
structure Row (Digest : Type) where
  sha256 : Digest
  ordinal : Option Int
  bytes : Option Bytes
  deriving DecidableEq, Repr

/-- The MD5 recorded for one chunk. -/
structure Checksum (Digest Sum : Type) where
  sha256 : Digest
  ordinal : Int
  md5 : Sum
  deriving DecidableEq, Repr

/-- The chunks a lake keeps and the checksums recorded for them, none for an object it has no row of. -/
structure Lake (Digest Sum : Type) where
  blobs : List (Row Digest)
  checksums : List (Checksum Digest Sum)
  vouched : ∀ recorded ∈ checksums, ∃ row ∈ blobs, row.sha256 = recorded.sha256

/-- One stored copy of a chunk, the MD5 of its bytes now and every MD5 recorded for the chunk. -/
structure Copy (Digest Sum : Type) where
  sha256 : Digest
  ordinal : Int
  bytes : Option Bytes
  md5 : Option Sum
  recorded : List Sum

/-- What the lake holds of one object. -/
structure Audit where
  chunks : ℕ
  last : Int
  size : ℕ
  intact : Bool
  deriving DecidableEq, Repr

/-- What keeps an object from being intact and of its size, empty when nothing does. -/
def Audit.fault (audit : Audit) (size : ℕ) : String :=
  if (audit.chunks : Int) ≠ audit.last + 1 then
    s!"{audit.last + 1 - audit.chunks} of its {audit.last + 1} chunks are missing"
  else if audit.size ≠ size then s!"the lake holds {audit.size} of its {size} bytes"
  else if audit.intact then "" else "a chunk fails its checksum"

variable {Digest Sum : Type} [DecidableEq Digest] [DecidableEq Sum]

def Row.number (row : Row Digest) : Int := row.ordinal.getD 0

section Verifying

variable (sha256 : Bytes → Digest)

/-- The verifier between two chunks: the bytes hashed and written so far, and what it counted. -/
structure Judging where
  stream : Bytes
  size : ℕ
  chunks : ℕ
  last : Int
  intact : Bool

def Judging.start : Judging := ⟨[], 0, 0, -1, true⟩

/-- Judge the stored copies of one ordinal. -/
def Judging.next (judging : Judging) (group : Int × List (Copy Digest Sum)) : Judging :=
  let payload := (group.2.head?.bind (·.bytes)).getD []
  { stream := judging.stream ++ payload
    size := judging.size + payload.length
    chunks := judging.chunks + 1
    last := group.1
    intact := judging.intact && decide (group.1 = judging.chunks) && group.2.all fun copy =>
      decide (copy.bytes = some payload) && copy.recorded.all fun recorded => decide (some recorded = copy.md5) }

def judge (copies : List (Copy Digest Sum)) : Judging :=
  (Grouping.groupBy (·.ordinal) copies).foldl Judging.next .start

/-- Judge an object from its stored copies in ordinal order, with the bytes written meanwhile. -/
def verify (digest : Digest) (copies : List (Copy Digest Sum)) : Audit × Bytes :=
  let judged := judge copies
  ({ chunks := judged.chunks, last := judged.last, size := judged.size
     intact := judged.intact && decide (0 < judged.chunks) && decide (sha256 judged.stream = digest) },
    judged.stream)

end Verifying

namespace Lake

variable (md5 : Bytes → Sum) (lake : Lake Digest Sum)

def copyOf (row : Row Digest) : Copy Digest Sum where
  sha256 := row.sha256
  ordinal := row.number
  bytes := row.bytes
  md5 := row.bytes.map md5
  recorded := ((lake.checksums.filter fun recorded =>
    recorded.sha256 = row.sha256 ∧ recorded.ordinal = row.number).map (·.md5)).dedup

/-- Every stored copy of the chunks of `digests`, or of their chunk `ordinal` alone. -/
def copies (digests : List Digest) (ordinal : Option Int) : List (Copy Digest Sum) :=
  (lake.blobs.filter fun row =>
    decide (row.sha256 ∈ digests) && ordinal.all fun number => row.number = number).map (lake.copyOf md5)

/-- The ordinals kept of one object, in order. -/
def ordinals (digest : Digest) : List Int :=
  (((lake.blobs.filter fun row => row.sha256 = digest).map (·.number)).dedup).insertionSort (· ≤ ·)

def streamed (digest : Digest) : List (Copy Digest Sum) :=
  (lake.ordinals digest).flatMap fun number => lake.copies md5 [digest] (some number)

/-- Each object among `digests` with any row, with its stored copies in ordinal order: together in one
query, except one of more chunks than `window`, which is read a chunk at a time. -/
def objects (window : ℕ) (digests : List Digest) : List (Digest × List (Copy Digest Sum)) :=
  let counted := digests.dedup.filter fun digest => lake.blobs.any fun row => row.sha256 = digest
  let stored := counted.filter fun digest => (lake.ordinals digest).length ≤ window
  let found := lake.copies md5 stored none
  (stored.map fun digest => (digest, (found.filter fun copy => copy.sha256 = digest).insertionSort
      fun one other => one.ordinal ≤ other.ordinal)) ++
    (counted.filter fun digest => window < (lake.ordinals digest).length).map fun digest =>
      (digest, lake.streamed md5 digest)

variable (sha256 : Bytes → Digest) (window : ℕ)

/-- Verify each object among `digests` the lake holds any row of. -/
def audit (digests : List Digest) : List (Digest × Audit) :=
  (lake.objects md5 window digests).map fun object => (object.1, (verify sha256 object.1 object.2).1)

/-- The digests the lake holds an intact object for. -/
def held (digests : List Digest) : List Digest :=
  ((lake.audit md5 sha256 window digests).filter (·.2.intact)).map (·.1)

/-- Verify one object while writing its bytes; one the lake lacks is no object. -/
def inspect (digest : Digest) : Audit × Bytes :=
  match lake.objects md5 window [digest] with
  | object :: _ => verify sha256 digest object.2
  | [] => (⟨0, -1, 0, false⟩, [])

/-- The intact objects among `digests`, by digest. -/
def read (digests : List Digest) : List (Digest × Bytes) :=
  (lake.objects md5 window digests).filterMap fun object =>
    let verified := verify sha256 object.1 object.2
    if verified.1.intact then some (object.1, verified.2) else none

/-- What writing an object to a target leaves there. -/
inductive Published
  | stands (bytes : Bytes)
  | absent
  | refused
  deriving DecidableEq, Repr

/-- Write an object to a target that holds `standing`, once it is verified whole and of its size. -/
def write (digest : Digest) (standing : Option Bytes) (size : Option ℕ) (replace : Bool) : Published :=
  let inspected := lake.inspect md5 sha256 window digest
  if !inspected.1.intact || size.any (· ≠ inspected.1.size) then .absent
  else if replace then .stands inspected.2
  else match standing with
    | none => .stands inspected.2
    | some bytes => if sha256 bytes = digest then .stands bytes else .refused

end Lake

end Mainboard.Blobs
