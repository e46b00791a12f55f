import Mathlib.Data.Char
import Mathlib.Data.List.Dedup
import Mathlib.Data.List.Lex
import Mathlib.Data.List.Sort
import Mainboard.BlobStaging
import Mainboard.OrderedMap
import Mainboard.TextSources

/-! The listing of one source bundle: a path, a digest and a kind on each line. One writer seals the files, and four
readers take its text apart again, the first three on the center by `str.splitlines` and the last on the target at line
feeds alone. The lake keeps a listing's rows under the first digits of its digest, and each file's bytes under theirs. -/

namespace Mainboard.Provenance

open Analysis (Text textLines utf8)
open Blobs (Bytes)

/-- File kind, the historical version-control labels included. -/
inductive Status where
  | source
  | built
  | clean
  | modified
  | untracked
  | ignored
  | unversioned
  deriving DecidableEq, Repr

def Status.text : Status → Text
  | .source => "source".toList
  | .built => "built".toList
  | .clean => "clean".toList
  | .modified => "modified".toList
  | .untracked => "untracked".toList
  | .ignored => "ignored".toList
  | .unversioned => "unversioned".toList

/-- `Status(text)`. -/
def Status.ofText (text : Text) : Option Status :=
  [Status.source, .built, .clean, .modified, .untracked, .ignored, .unversioned].find? fun status => status.text = text

/-- A relative source path, its raw SHA-256 digest, and its file kind. -/
structure Row where
  path : Text
  blob : Text
  status : Status := .source
  deriving DecidableEq, Repr

/-- The content identity and snapshot key of one source bundle. -/
structure Source where
  identity : Text
  key : Text
  digest : Text
  deriving DecidableEq, Repr

/-- The files below a workspace root: the bytes each path reads as, and whether it lands inside. -/
structure Disk where
  inside : Text → Bool
  read : Text → Option Bytes

def Row.line (row : Row) : Text := row.path ++ '\t' :: row.blob ++ '\t' :: row.status.text

/-- The portable source manifest. -/
def listing (rows : List Row) : Text := rows.flatMap fun row => row.line ++ ['\n']

/-- `PurePosixPath(path).parts`, the root aside. -/
def parts (path : Text) : List Text := (path.splitOn '/').filter fun part => part ≠ [] ∧ part ≠ ['.']

/-- A name of a card's lease, `.card.lock` or `.card.lock.*`. -/
def leased (part : Text) : Bool := part = ".card.lock".toList || ".card.lock.".toList.isPrefixOf part

/-- Why a path is no source: absolute, climbing, broken by a tab or a line's end, private, or outside. -/
def refused (disk : Disk) (path : Text) : Bool :=
  path.head? = some '/' || ((parts path).any fun part => part = "..".toList) ||
    (path.any fun char => char = '\t' || char = '\r' || char = '\n') ||
    ((parts path).any fun part => part = ".git".toList || part = ".env".toList) || !disk.inside path

section Digests

variable (sha256 : Bytes → Text)

def sourceOf (rows : List Row) : Source :=
  let digest := sha256 (utf8 (listing rows))
  ⟨"sha256:".toList ++ digest, "sha256-".toList ++ digest, digest⟩

/-- Identify exactly these files as they stand on disk. -/
def sealFiles (disk : Disk) (files built : List Text) : Option (Source × List Row) :=
  if files.any fun path => (parts path).any leased then none
  else
    ((files.dedup.insertionSort (· ≤ ·)).mapM fun path =>
      if refused disk path then none
      else (disk.read path).map fun bytes => (⟨path, sha256 bytes, if built.any fun marked => marked = path then .built else .source⟩ : Row)).map
        fun rows => (sourceOf sha256 rows, rows)

end Digests

/-- A line's three columns. -/
def rowOf (line : Text) : Option Row := match line.splitOn '\t' with
  | [path, blob, status] => (Status.ofText status).map (Row.mk path blob)
  | _ => none

/-- The rows of a listing, as its keeper reads them. -/
def parsed (manifest : Text) : Option (List Row) := ((textLines manifest).filter (· ≠ [])).mapM rowOf

/-- The shipped files, as a dispatch names them. -/
def files (listing : Text) : List Text := (textLines listing).map fun row => row.takeWhile (· ≠ '\t')

/-- The rows a research shipment is admitted by. -/
def admitted (listing : Text) : Option (List Row) := (textLines listing).mapM rowOf

/-- A text that fails to name a path strictly below a root. -/
def isUnsafe (relative : Text) : Bool := (relative.splitOn '/').any fun part =>
  part = [] || part = ".".toList || part = "..".toList

/-- A pinned tree's own control files, under any of its names. -/
def controls : List Text := ["source", "closure", "jobs"].flatMap fun suffix =>
  ["mb", "mainboard"].map fun name => ("." ++ name ++ "-" ++ suffix).toList

def reserved (relative : Text) : Bool :=
  (controls.any fun control => control = relative) || ".mb-jobs/".toList.isPrefixOf relative || ".mainboard-jobs/".toList.isPrefixOf relative

/-- A line's path and blob, the path checked first. -/
def imageRow (line : Text) : Option (Text × Text) :=
  let fields := line.splitOn '\t'
  let relative := fields.headD []
  if isUnsafe relative || reserved relative then none else fields[1]?.map fun blob => (relative, blob)

/-- Each path and blob the sealed image on the target is made from. -/
def sealedRows (listing : Text) : Option (List (Text × Text)) := ((listing.splitOn '\n').filter (· ≠ [])).mapM imageRow

/-- One kept row of a listing. -/
structure Kept where
  closure : Text
  path : Text
  blob : Text
  status : Status
  deriving DecidableEq, Repr

/-- What the lake keeps: objects by their digests, and listings by the first digits of theirs. -/
structure Lake (Sum : Type) where
  objects : Blobs.Lake Text Sum
  closures : List Kept

section Keeping

variable {Sum : Type} [DecidableEq Sum] (sizes : Blobs.Sizes) (md5 : Bytes → Sum) (sha256 : Bytes → Text)

/-- What a listing is kept under. -/
def closureOf (manifest : Text) : Text := (sha256 (utf8 manifest)).take 12

def Row.kept (closure : Text) (row : Row) : Kept := ⟨closure, row.path, row.blob, row.status⟩

/-- The files of a listing the lake holds no intact bytes of, as they read now. -/
def missing (disk : Disk) (lake : Lake Sum) (rows : List Row) : Option (List (Text × Blobs.Source)) :=
  let held := lake.objects.held md5 sha256 sizes.window (rows.map Row.blob)
  let absent := rows.filter fun row => !held.any fun blob => blob = row.blob
  (OrderedMap.ofPairs (absent.map fun row => (row.blob, row.path))).mapM fun entry =>
    (disk.read entry.2).map fun bytes => (entry.1, Blobs.Source.file bytes)

/-- Keep a listing and its files' bytes in one commit, answering the listing's digest. A file that changed since it was
listed is refused. -/
def archive (disk : Disk) (lake : Lake Sum) (manifest : Text) : Option (Text × Lake Sum) :=
  (parsed manifest).bind fun rows => (missing sizes md5 sha256 disk lake rows).bind fun objects =>
    match lake.objects.stage sizes md5 sha256 objects with
    | .error _ => none
    | .ok staged =>
        let closure := closureOf sha256 manifest
        let listed := lake.closures.any fun kept => kept.closure = closure
        some (sha256 (utf8 manifest),
          ⟨staged.1, if listed then lake.closures else lake.closures ++ rows.map (Row.kept closure)⟩)

/-- Write the tree whose listing has a digest, nothing where the lake holds no such listing or misses a file of it. -/
def restore (lake : Lake Sum) (digest : Text) : Option (List (Text × Bytes)) :=
  let rows := (lake.closures.filter fun kept => kept.closure = digest.take 12).insertionSort fun one other =>
    one.path ≤ other.path
  let payloads := lake.objects.read md5 sha256 sizes.window (rows.map Kept.blob)
  if rows = [] then none else rows.mapM fun row => (OrderedMap.get payloads row.blob).map fun bytes => (row.path, bytes)

end Keeping

end Mainboard.Provenance
