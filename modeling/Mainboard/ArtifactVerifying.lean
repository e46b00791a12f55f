import Mainboard.ArtifactArchive
import Mainboard.ArchivedListing
import Mainboard.BlobVerifying

/-! The artifacts that trial receipts reference, and their check after a fetch. A reference names bytes by their path below
a project, their digest and their size; they are read on disk, else in a Parquet archive above the path, else by digest
in a lake around the project. A check reads what is on disk at once and collects the rest by digest, then by project. -/

namespace Mainboard.Artifacts

open Analysis (Text Bytes)

/-- `SHA256`, a digest in lowercase hexadecimal. -/
def isSha256 (text : Text) : Bool := text.length == 64 && text.all fun char => Provenance.hexDigits.any (· = char)

/-- The fields of one reference as a receipt spells them. -/
structure Fields where
  path : Text
  sha256 : Text
  size : ℤ
  media_type : Text
  schema_name : Text
  source : Text
  deriving DecidableEq

/-- A portable content reference, validated. -/
structure Artifact where
  path : Text
  sha256 : Text
  size : ℕ
  media_type : Text
  schema_name : Text
  source : Text
  hex : isSha256 sha256 = true
  deriving DecidableEq

/-- `Artifact.model_validate`, of a value with every field. -/
def Artifact.validated (fields : Fields) : Option Artifact :=
  if h : isSha256 fields.sha256 = true ∧ 0 ≤ fields.size then
    some ⟨fields.path, fields.sha256, fields.size.toNat, fields.media_type, fields.schema_name, fields.source, h.1⟩
  else none

/-- A value under a receipt's artifacts: no object, an object that is missing a field or has one of another type, or a
reference. -/
inductive Value where
  | other
  | malformed
  | reference (fields : Fields)
  deriving DecidableEq

/-- The artifact a value is read as, nothing where it is refused. -/
def Value.artifact : Value → Option Artifact
  | .reference fields => Artifact.validated fields
  | _ => none

/-- A receipt line, as the values of its artifacts. -/
abbrev Receipt := List Value

/-- What a check raises. -/
inductive Refusal where
  | outside | invalid | path | unrooted | link | refused | archive (fault : Fault) | changed | missing | key
  deriving DecidableEq

/-- `relative_path`: the names of a canonical project-relative path. -/
def relativePath (value : Text) : Except Refusal Path :=
  let names := value.splitOn '/'
  if (names.all fun name => name != [] && name != ['.'] && name != ['.', '.']) && !value.any (· = '\\') then .ok names
  else .error .path

/-- What reading a file gives: its bytes, that it is not there, or another error. -/
inductive Reading where
  | bytes (data : Bytes)
  | absent
  | refused
  deriving DecidableEq

/-- What a check sees: the file tree with its links, the Parquet archives in it, and the lakes around each directory, the
nearest first. -/
structure World (Sum : Type) where
  exist : Path → Bool
  file : Path → Reading
  resolve : Path → Path
  store : Store
  keepers : Path → List (Blobs.Lake Text Sum)

def stagedChunks : ℕ := 32

def windowBytes : ℕ := 1073741824

section Reading

variable {Sum : Type} [DecidableEq Sum] (sha256 : Bytes → Text) (md5 : Bytes → Sum) (finds : Folder → Folder → Bool)
  (world : World Sum)

/-- The bytes themselves, refused unless they are an artifact's size and digest. -/
def Artifact.checked (artifact : Artifact) (data : Bytes) : Except Refusal Bytes :=
  if data.length ≠ artifact.size ∨ sha256 data ≠ artifact.sha256 then .error .changed else .ok data

/-- The bytes under a root itself, on disk else in a Parquet archive, unchecked. -/
def Artifact.held (artifact : Artifact) (root : Path) : Except Refusal Bytes :=
  (relativePath artifact.path).bind fun relative => match world.file (root ++ relative) with
    | .bytes data => .ok data
    | .refused => .error .refused
    | .absent => match read finds world.store root (root ++ relative) artifact.sha256 with
      | .ok data => .ok data
      | .error .missing => .error .missing
      | .error fault => .error (.archive fault)

/-- The intact object of a digest in one lake. -/
def held (lake : Blobs.Lake Text Sum) (digest : Text) : Option Bytes :=
  OrderedMap.get (lake.read md5 sha256 stagedChunks [digest]) digest

/-- The object of a digest from the first lake around a directory that holds it intact. -/
def World.recall (root : Path) (digest : Text) : Option Bytes :=
  (world.keepers root).findSome? fun lake => held sha256 md5 lake digest

/-- The bytes of a reference: under its root, else from a lake. -/
def Artifact.found (artifact : Artifact) (root : Path) : Except Refusal Bytes :=
  match artifact.held finds world root with
  | .error .missing => match world.recall sha256 md5 root artifact.sha256 with
    | some data => .ok data
    | none => .error .missing
  | other => other

/-- Read pinned bytes through the project's logical storage mounts. -/
def Artifact.read (artifact : Artifact) (root : Path) : Except Refusal Bytes :=
  (artifact.found sha256 md5 finds world root).bind (artifact.checked sha256)

/-- Each object among some from the first lake that holds it intact, a window at a time. -/
def recalledFrom : List (Blobs.Lake Text Sum) → List (Text × ℕ) → List (Text × Bytes)
  | [], _ => []
  | lake :: lakes, wanted =>
      let windows := Grouping.constrainedBatches (fun digest => (OrderedMap.get wanted digest).getD 0) windowBytes
        ((wanted.map (·.1)).insertionSort (· ≤ ·))
      let found := windows.flatMap fun window => lake.read md5 sha256 stagedChunks window
      found ++ recalledFrom lakes (wanted.filter fun entry => !found.any fun object => object.1 = entry.1)

end Reading

/-! Checking -/

section Checking

variable {Sum : Type} [DecidableEq Sum] (sha256 : Bytes → Text) (md5 : Bytes → Sum) (finds : Folder → Folder → Bool)
  (world : World Sum)

/-- The directories from a boundary down to a fetch. -/
def rootsOf (directory boundary : Path) : List Path :=
  ((List.range (directory.length + 1)).map directory.take).filter fun root => boundary.isPrefixOf root

/-- Where a relative path stands in a fetch: the outermost root that places it there. -/
def rootFor (directory boundary relative : Path) : Option Path :=
  (rootsOf directory boundary).find? fun root => directory.isPrefixOf (root ++ relative)

/-- Whether a path, its links followed, stands in the fetch. -/
def World.inside (directory path : Path) : Bool := (world.resolve directory).isPrefixOf (world.resolve path)

/-- One reference read where it is present; where it is absent, its root. -/
def examined (directory boundary : Path) (artifact : Artifact) : Except Refusal (Option Path) :=
  (relativePath artifact.path).bind fun relative => match rootFor directory boundary relative with
    | none => .error .unrooted
    | some root =>
        if !world.inside directory (root ++ relative) then .error .link
        else if world.exist (root ++ relative) then (artifact.read sha256 md5 finds world root).map fun _ => none
        else .ok (some root)

/-- The absent references with one more examined, each under its digest. -/
def noted (absent : List (Text × Artifact × Path)) (reference : Artifact) : Option Path → List (Text × Artifact × Path)
  | none => absent
  | some root => OrderedMap.put absent reference.sha256 (reference, root)

/-- The references absent from the fetch, by digest. -/
def absentOf (directory boundary : Path) (references : List Artifact) : Except Refusal (List (Text × Artifact × Path)) :=
  references.foldlM (fun absent reference =>
    (examined sha256 md5 finds world directory boundary reference).map (noted absent reference)) []

/-- One absent reference read under its root, or collected for the lakes around it. -/
def collected (recalled : List (Path × List (Text × Artifact))) (absent : Artifact × Path) :
    Except Refusal (List (Path × List (Text × Artifact))) :=
  match absent.1.held finds world absent.2 with
  | .error .missing => .ok (OrderedMap.put recalled absent.2
      (OrderedMap.put ((OrderedMap.get recalled absent.2).getD []) absent.1.sha256 absent.1))
  | .error refusal => .error refusal
  | .ok data => (absent.1.checked sha256 data).map fun _ => recalled

/-- The objects read back checked one by one, each wanted no more once it is. -/
def popped : List (Text × Artifact) → List (Text × Bytes) → Except Refusal (List (Text × Artifact))
  | wanted, [] => .ok wanted
  | wanted, (digest, data) :: found => match OrderedMap.get wanted digest with
    | none => .error .key
    | some reference => (reference.checked sha256 data).bind fun _ =>
        popped (wanted.filter fun entry => entry.1 ≠ digest) found

/-- Check one root's wanted artifacts against the bytes a lake around it holds. -/
def recallAt (wanted : Path × List (Text × Artifact)) : Except Refusal Unit :=
  let sizes := wanted.2.map fun entry => (entry.1, entry.2.size)
  (popped sha256 wanted.2 (recalledFrom sha256 md5 (world.keepers wanted.1) sizes)).bind fun left =>
    if left = [] then .ok () else .error .missing

/-- The references that receipts name, validated, nothing where one is not. -/
def namedBy (receipts : List Receipt) : Option (List Artifact) :=
  (receipts.flatten.filter (· ≠ .other)).mapM Value.artifact

/-- Verify receipt references within the fetched directory; `arranged` is the order a set of references is gone through
in. -/
def verify (arranged : List Artifact → List Artifact) (directory boundary : Path) (receipts : List Receipt) :
    Except Refusal Unit :=
  if !boundary.isPrefixOf directory then .error .outside
  else match namedBy receipts with
  | none => .error .invalid
  | some named =>
      (absentOf sha256 md5 finds world directory boundary (arranged named)).bind fun absent =>
        ((absent.map (·.2)).foldlM (collected sha256 finds world) []).bind fun recalled =>
          recalled.forM (recallAt sha256 md5 world)

end Checking

end Mainboard.Artifacts
