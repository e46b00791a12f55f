import Mathlib.Data.Char
import Mathlib.Data.List.Lex
import Mathlib.Data.List.Sort
import Mainboard.Grouping
import Mainboard.ListReading
import Mainboard.OrderedMap
import Mainboard.Seals
import Mainboard.StableSort

/-! The Parquet archive of trial artifacts: exact bytes kept once under their digest, cut into chunks that fill part
files in a folder for each two digits, every path they were packed under on the first chunk. Reading rebuilds them from
the rows of whatever part files its folder still has. -/

namespace Mainboard.Artifacts

open Analysis (Text Bytes utf8)

/-- A path as its names from the root of the file system. -/
abbrev Path := List Text

/-- `path.as_posix()`, of a relative path. -/
def posix (path : Path) : Text := ['/'].intercalate path

/-- `path.relative_to(root)`, nothing where it raises. -/
def relativeTo (path root : Path) : Option Path := if root.isPrefixOf path then some (path.drop root.length) else none

/-- `path.parents`, the nearest first. -/
def parents (path : Path) : List Path := (List.range path.length).reverse.map path.take

def chunkSize : ℕ := 65536

def flushThreshold : ℕ := 524288

def shardBudget : ℕ := 1000000

/-- One ordered piece of an object, with its original paths on the first. -/
structure Chunk where
  sha256 : Text
  ordinal : ℕ
  paths : List Path
  payload : Bytes
  deriving DecidableEq

/-- What a chunk adds to the size of a part. -/
def Chunk.weight (chunk : Chunk) : ℕ := chunk.payload.length + (chunk.paths.flatMap fun path => utf8 (posix path)).length

/-- A bucket of an archive: `root/artifacts.parquet/<two digits>`. -/
structure Folder where
  root : Path
  bucket : Text
  deriving DecidableEq

/-- `part-<number>.parquet` in a bucket. -/
structure PartFile where
  folder : Folder
  part : ℕ
  chunks : List Chunk
  deriving DecidableEq

/-- The archives of a tree: the roots that have an `artifacts.parquet`, the buckets in these, and the part files. -/
structure Store where
  archives : List Path
  folders : List Folder
  files : List PartFile
  deriving DecidableEq

/-- The tree after some of its part files are lost. -/
def Store.without (store : Store) (lost : PartFile → Bool) : Store :=
  { store with files := store.files.filter fun file => !lost file }

/-! Packing -/

section Packing

variable (sha256 : Bytes → Text) (written : List Chunk → ℕ) (disk : Path → Option Bytes)

/-- How many chunks bytes are cut into: one at least. -/
def pieceCount (length : ℕ) : ℕ := (max length 1 + chunkSize - 1) / chunkSize

def chunkAt (digest : Text) (paths : List Path) (data : Bytes) (ordinal : ℕ) : Chunk :=
  ⟨digest, ordinal, if ordinal = 0 then paths else [], (data.drop (ordinal * chunkSize)).take chunkSize⟩

def chunksOf (digest : Text) (paths : List Path) (data : Bytes) : List Chunk :=
  (List.range (pieceCount data.length)).map (chunkAt digest paths data)

/-- The digest and the relative path a file is packed under, nothing where packing raises. -/
def listed (root path : Path) : Option (Text × Path) :=
  (relativeTo path root).bind fun relative => (disk path).bind fun data =>
    if path.dropLast.getLast? = some "objects".toList ∧ path.getLast? ≠ some (sha256 data) then none
    else some (sha256 data, relative)

/-- The chunks of one object, read again from the first of its paths. -/
def objectChunks (root : Path) (objects : List (Text × List Path)) (digest : Text) : Option (List Chunk) :=
  (OrderedMap.get objects digest).bind fun paths => paths.head?.bind fun first =>
    (disk (root ++ first)).map fun data => chunksOf digest paths data

/-- The part files of one bucket, nothing where one would be too large; `written` is what a part takes as Parquet. -/
def packBucket (root : Path) (objects : List (Text × List Path)) (bucket : Text × List Text) : Option (List PartFile) :=
  (bucket.2.mapM (objectChunks disk root objects)).bind fun found =>
    let parts := Grouping.filled Chunk.weight flushThreshold found.flatten
    if parts.all fun part => written part < shardBudget then
      some (parts.zipIdx.map fun part => ⟨⟨root, bucket.1⟩, part.2, part.1⟩)
    else none

/-- The digests of some objects, in order. -/
def digestsOf (objects : List (Text × List Path)) : List Text := (objects.map (·.1)).insertionSort (· ≤ ·)

/-- The buckets of some objects, by the two digits their digests begin with. -/
def bucketsOf (objects : List (Text × List Path)) : List (Text × List Text) :=
  OrderedMap.gather ((digestsOf objects).map fun digest => (digest.take 2, digest))

/-- Write a new archive of some files under a root, nothing where that raises. -/
def pack (root : Path) (paths : List Path) (store : Store) : Option Store :=
  ((paths.insertionSort (· ≤ ·)).mapM (listed sha256 disk root)).bind fun found =>
    let objects := OrderedMap.gather found
    if store.archives.any (· = root) then none
    else ((bucketsOf objects).mapM (packBucket written disk root objects)).map fun files =>
      { archives := store.archives ++ [root]
        folders := store.folders ++ (bucketsOf objects).map fun bucket => ⟨root, bucket.1⟩
        files := store.files ++ files.flatten }

end Packing

/-! Reading -/

section Reading

/-- What reading an archive raises. -/
inductive Fault where
  | unmatched | outside | incomplete | missing
  deriving DecidableEq

variable (finds : Folder → Folder → Bool) (store : Store)

/-- The rows `read_parquet` gives for a digest, in the order of their ordinals; `finds` says whether the pattern of one
folder's part files takes in another folder's. -/
def rowsIn (folder : Folder) (digest : Text) : List Chunk :=
  StableSort.sortOn Chunk.ordinal
    (((store.files.filter fun file => finds folder file.folder).flatMap PartFile.chunks).filter (·.sha256 = digest))

/-- The bytes that the rows of a digest rebuild, when the first of them lists the path. -/
def rebuilt (root path : Path) : List Chunk → Except Fault (Option Bytes)
  | [] => .ok none
  | first :: rows => match relativeTo path root with
    | none => .error .outside
    | some relative =>
        if !first.paths.any (· = relative) then .ok none
        else if (first :: rows).map Chunk.ordinal ≠ List.range (rows.length + 1) then .error .incomplete
        else .ok (some ((first :: rows).flatMap Chunk.payload))

/-- The bytes of a digest when the archive of a root lists a path under it. -/
def lookup (root path : Path) (digest : Text) : Except Fault (Option Bytes) :=
  let folder : Folder := ⟨root, digest.take 2⟩
  if !store.folders.any (· = folder) then .ok none
  else if !store.files.any fun file => finds folder file.folder then .error .unmatched
  else rebuilt root path (rowsIn finds store folder digest)

/-- The first answer of the archives of some folders, up to the boundary. -/
def readUp (boundary path : Path) (digest : Text) : List Path → Except Fault Bytes
  | [] => .error .missing
  | parent :: more =>
      if !boundary.isPrefixOf parent then .error .missing
      else match lookup finds store parent path digest with
        | .error fault => .error fault
        | .ok (some data) => .ok data
        | .ok none => readUp boundary path digest more

/-- Resolve an archived path inside its boundary. -/
def read (boundary path : Path) (digest : Text) : Except Fault Bytes :=
  if !boundary.isPrefixOf path then .error .outside else readUp finds store boundary path digest (parents path)

end Reading

end Mainboard.Artifacts
