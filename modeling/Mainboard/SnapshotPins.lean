import Mainboard.FileTree

/-! Pinned source trees: what a job runs from. A tree is built once, from the files a closure listing names, each
sharing its bytes with the mirror's where the file system can, then verified, linked back to the mirror where the
dispatch declared needs and results, and stamped; a tree already stamped is verified and linked again. The control
files of a tree (its listing, its stamp, its wrappers) are the pin's own, under names no listed or live path may
have. Every link of a tree leads to the mirror's own path of that name, but for the one to the environment's prefix,
which no step of a pin follows. -/

namespace Mainboard.Snapshots

abbrev Path := List String

abbrev Text := List Char

/-- What stands in a tree besides folders: a file sharing its bytes with the mirror, a copy of its own, a link. -/
inductive Leaf
  | file (inode : ℕ)
  | copy (content : Text)
  | link
  deriving DecidableEq

abbrev Tree := FileTree.Tree String Leaf

/-- The mirror: which paths exist, links followed; the file a path leads to; the folders, with the names of their
existing entries in order and whether each is a folder. -/
structure Mirror where
  exist : Path → Bool
  file : Path → Option ℕ
  folder : Path → Bool
  names : Path → List (String × Bool)
  exist_prefix : ∀ {path below : Path}, path <+: below → exist below = true → exist path = true

/-- A pinned tree with its control files: its frozen listing, its stamp once it is complete, and its frozen wrappers
by the digests their names carry. -/
structure Pin where
  tree : Tree
  closure : Text
  stamp : Option Text
  wrappers : Text → Option Text

/-- A host: the mirror, the bytes of its files, which files can be shared, and what stands where the pin goes. -/
structure Target where
  mirror : Mirror
  bytes : ℕ → Text
  shares : ℕ → Bool
  standing : Option Pin

/-- Why a pin is refused. -/
inductive Fault
  | system
  | listingDigest
  | invalidPath (relative : Text)
  | reservedPath (relative : Text)
  | missingSource (path : Path)
  | liveOverlap (path : Path)
  | linkedSource (path : Path)
  | linkedParent (path : Path)
  | blobMismatch (path : Path)
  | needMissing (need : Path)
  | needLinked (need : Path)
  | incomplete
  | stampMismatch
  | wrapperDigest
  deriving DecidableEq

/-- What one pin needs: where its tree stands below the root, its stamp, the generated folder, the environment
whose prefix it names, the results path, the staged wrapper with its digest, and the image: the listing, its digest,
the needs and the pins. No live path is the root, and the pins lie in their staging folder. -/
structure Spec where
  place : Path
  stamp : Text
  out : Path
  environment : Option String
  results : Option Path
  script : Option (Path × Text)
  listing : Path
  digest : Text
  needs : List Path
  pins : List Path
  below_root : ∀ path ∈ needs ++ results.toList, path ≠ []
  pins_staged : ∀ pin ∈ pins, out ++ ["pins"] <+: pin

namespace Spec

/-- Every path linked back to the mirror. -/
def live (spec : Spec) : List Path := spec.needs ++ spec.results.toList

/-- Where staged pins sit. -/
def staging (spec : Spec) : Path := spec.out ++ ["pins"]

end Spec

/-! Calls on a tree -/

/-- The leaf at a path. -/
def leafAt (tree : Tree) (path : Path) : Option Leaf := match tree.entry path with
  | some (.file leaf) => some leaf
  | _ => none

/-- The leaf a path meets on its way down, if any. -/
def met (tree : Tree) (path : Path) : Option Leaf := path.inits.findSome? (leafAt tree)

/-- Whether a path goes through a link, or is one. -/
def linked (tree : Tree) (path : Path) : Bool := met tree path == some .link

/-- Whether something stands at a path, links followed. -/
def exist (mirror : Mirror) (tree : Tree) (path : Path) : Bool :=
  if linked tree path then mirror.exist path else (tree.entry path).isSome

/-- Folders made down to a path; behind a link they are the mirror's. -/
def makedirs (tree : Tree) (path : Path) : Except Fault Tree := match met tree path with
  | none => .ok (tree.withFolders path)
  | some .link => .ok tree
  | some _ => .error .system

/-- A call of the file system, any refusal of which ends the pin. -/
def called {α : Type} : Except FileTree.Refusal α → Except Fault α
  | .ok made => .ok made
  | .error _ => .error .system

/-- A link put at a path, its parent made and a link already there replaced. -/
def relink (tree : Tree) (path : Path) : Except Fault Tree :=
  (makedirs tree path.dropLast).bind fun made =>
    if linked made path.dropLast then .error .system
    else match made.entry path with
      | none => called (made.write path .link)
      | some (.file .link) => called (made.write path .link)
      | some _ => .error .system

/-- What a file of the mirror becomes in a tree: shared, or a copy where the file system cannot share it. -/
def leafOf (target : Target) (inode : ℕ) : Leaf :=
  if target.shares inode then .file inode else .copy (target.bytes inode)

/-- A file of the mirror shared at a path, or copied there; a copy is written over a copy. -/
def hardlink (target : Target) (tree : Tree) (path : Path) (inode : ℕ) : Except Fault Tree := match tree.entry path with
  | none => called (tree.write path (leafOf target inode))
  | some (.file (.copy _)) =>
      if target.shares inode then .error .system else called (tree.write path (leafOf target inode))
  | some _ => .error .system

/-! The listing -/

/-- One listed file, and the digest of its bytes. -/
structure Row where
  path : Path
  blob : Text

/-- The lines of a listing, by column. -/
def columns (closure : Text) : List (List Text) :=
  ((closure.splitOn '\n').filter (· ≠ [])).map (·.splitOn '\t')

/-- The names of a pinned tree's control files. -/
def controls : List String :=
  [".mb-source", ".mainboard-source", ".mb-closure", ".mainboard-closure", ".mb-jobs", ".mainboard-jobs"]

/-- Whether a path names a control file. -/
def reserved (path : Path) : Bool := match path with
  | [name] => controls.any (· == name)
  | name :: _ => [".mb-jobs", ".mainboard-jobs"].any (· == name)
  | [] => false

/-- A line of a listing as a row, its path checked. -/
def row : List Text → Except Fault Row
  | relative :: blob :: _ =>
      let path := (relative.splitOn '/').map String.ofList
      if path.any fun name => ["", ".", ".."].any (· == name) then .error (.invalidPath relative)
      else if reserved path then .error (.reservedPath relative)
      else .ok ⟨path, blob⟩
  | _ => .error .system

variable (hash : Text → Text)

/-- The lines of a listing whose own digest is right. -/
def rows (spec : Spec) (closure : Text) : Except Fault (List (List Text)) :=
  if hash closure = spec.digest then .ok (columns closure) else .error .listingDigest

/-- The bytes of a leaf. -/
def content (bytes : ℕ → Text) : Leaf → Option Text
  | .file inode => some (bytes inode)
  | .copy text => some text
  | .link => none

/-- Whether a listed file stands in the tree with its bytes. -/
def stands (spec : Spec) (tree : Tree) (bytes : ℕ → Text) (row : Row) : Except Fault Unit :=
  match spec.live.find? fun live => live.isPrefixOf row.path with
  | some live => .error (.liveOverlap live)
  | none => match tree.entry row.path with
    | some (.file leaf) => match content bytes leaf with
      | none => .error (.linkedSource row.path)
      | some text => if hash text = row.blob then .ok () else .error (.blobMismatch row.path)
    | some .folder => .error (.missingSource row.path)
    | none => if linked tree row.path then .error (.linkedParent row.path) else .error (.missingSource row.path)

/-- The frozen listing and every listed file's place and bytes checked. -/
def verify (spec : Spec) (closure : Text) (tree : Tree) (bytes : ℕ → Text) : Except Fault Unit :=
  (rows hash spec closure).bind fun lines => lines.forM fun line => (row line).bind (stands hash spec tree bytes)

/-! Building -/

/-- A listed file shared into the tree. -/
def shipped (target : Target) (tree : Tree) (line : List Text) : Except Fault Tree :=
  (row line).bind fun row => match target.mirror.file row.path with
    | none => .error (.missingSource row.path)
    | some inode => (makedirs tree row.path.dropLast).bind fun made => hardlink target made row.path inode

/-- The listed files shared into a fresh tree. -/
def copied (target : Target) (spec : Spec) (closure : Text) : Except Fault Tree :=
  (rows hash spec closure).bind fun lines => lines.foldlM (shipped target) FileTree.Tree.root

/-- What the mirror's folder holds linked into the tree, folders as links and files shared, what stands there kept. -/
def shared (target : Target) (tree : Tree) (folder : Path) : Except Fault Tree :=
  if target.mirror.folder folder then
    (target.mirror.names folder).foldlM (fun tree entry =>
      let path := folder ++ [entry.1]
      if (tree.entry path).isSome then .ok tree
      else if entry.2 then called (tree.write path .link)
      else match target.mirror.file path with
        | none => .error .system
        | some inode => hardlink target tree path inode) tree
  else .ok tree

/-- The generated tree rebuilt as the snapshot's own. -/
def generated (target : Target) (spec : Spec) (tree : Tree) : Except Fault Tree :=
  let envs := spec.out ++ ["envs"]
  let names := if target.mirror.folder envs then ((target.mirror.names envs).filter (·.2)).map (·.1) else []
  let folders := names.map fun name => envs ++ [name]
  ((envs :: folders).foldlM makedirs tree).bind fun made => (spec.out :: folders).foldlM (shared target) made

/-- The tree's environment pointed at the prefix it names. -/
def environment (spec : Spec) (tree : Tree) : Except Fault Tree := match spec.environment with
  | none => .ok tree
  | some name =>
      let folder := spec.out ++ ["envs", name]
      (makedirs tree folder).bind fun made => called ((made.without (folder ++ [".pixi"])).write (folder ++ [".pixi"]) .link)

/-! Linking back to the mirror -/

/-- A need linked into the tree, unless its parent is reached through a link. -/
def need (tree : Tree) (path : Path) : Except Fault Tree :=
  (makedirs tree path.dropLast).bind fun made =>
    if linked made path.dropLast then .error (.needLinked path) else relink made path

/-- The staged pins reached through their folder, where the tree does not reach it yet. -/
def staged (mirror : Mirror) (spec : Spec) (tree : Tree) : Except Fault Tree :=
  if spec.pins ≠ [] ∧ exist mirror tree spec.staging = false then relink tree spec.staging else .ok tree

/-- Each pin and need checked on the mirror and linked into the tree. -/
def needed (mirror : Mirror) (spec : Spec) (tree : Tree) : Except Fault Tree :=
  match (spec.pins ++ spec.needs).find? fun path => !mirror.exist path with
  | some path => .error (.needMissing path)
  | none => (staged mirror spec tree).bind fun made => spec.needs.foldlM need made

/-- A tree without what stands at a path, a link left for the one that replaces it. -/
def cleared (tree : Tree) (path : Path) : Tree := match tree.entry path with
  | some (.file .link) => tree
  | none => tree
  | some _ => tree.without path

/-- The results path pointed back at the mirror; where its parent is reached through a link, it already is. -/
def results (path : Path) (tree : Tree) : Except Fault Tree :=
  (makedirs tree path.dropLast).bind fun made =>
    if linked made path.dropLast then .ok made else relink (cleared made path) path

/-- The staged wrapper frozen by its bytes, and the frozen copy checked. -/
def wrapper (target : Target) (spec : Spec) (wrappers : Text → Option Text) : Except Fault (Text → Option Text) :=
  match spec.script with
  | none => .ok wrappers
  | some (path, digest) => match wrappers digest with
    | some text => if hash text = digest then .ok wrappers else .error .wrapperDigest
    | none => match target.mirror.file path with
      | none => .error .system
      | some inode =>
          if hash (target.bytes inode) = digest then
            .ok fun other => if other = digest then some (target.bytes inode) else wrappers other
          else .error .wrapperDigest

/-- The mirror with folders down to a path. -/
def Mirror.withFolders (mirror : Mirror) (path : Path) : Mirror where
  exist := fun other => mirror.exist other || other.isPrefixOf path
  file := mirror.file
  folder := fun other => mirror.folder other || other.isPrefixOf path
  names := mirror.names
  exist_prefix := by
    intro other below hlead h
    rw [Bool.or_eq_true] at h ⊢
    refine h.imp (mirror.exist_prefix hlead) fun hbelow => ?_
    exact List.isPrefixOf_iff_prefix.mpr (hlead.trans (List.isPrefixOf_iff_prefix.mp hbelow))

/-- The results path of the dispatch made on the mirror and pointed at. -/
def pointed (mirror : Mirror) (spec : Spec) (tree : Tree) : Except Fault (Mirror × Tree) := match spec.results with
  | none => .ok (mirror, tree)
  | some path =>
      if path.inits.any fun folder => (mirror.file folder).isSome then .error .system
      else (results path tree).map fun made => (mirror.withFolders path, made)

/-- What belongs to the dispatch linked: the needs, the results path and the wrapper. -/
def lived (target : Target) (spec : Spec) (pin : Pin) : Except Fault (Mirror × Pin) :=
  (needed target.mirror spec pin.tree).bind fun made =>
    (pointed target.mirror spec made).bind fun reached =>
      (wrapper hash target spec pin.wrappers).map fun wrappers =>
        (reached.1, { pin with tree := reached.2, wrappers := wrappers })

/-- The tree built from the mirror, before it is linked back. -/
def made (target : Target) (spec : Spec) : Except Fault Pin := match target.mirror.file spec.listing with
  | none => .error .system
  | some inode =>
      ((copied hash target spec (target.bytes inode)).bind (generated target spec)).bind fun tree =>
        (environment spec tree).map fun tree => ⟨tree, target.bytes inode, none, fun _ => none⟩

/-- The tree to be linked: the one standing, where its stamp is the one asked for, or a new one. -/
def prepared (target : Target) (spec : Spec) : Except Fault Pin := match target.standing with
  | none => made hash target spec
  | some pin => match pin.stamp with
    | none => .error .incomplete
    | some stamp => if stamp = spec.stamp then .ok pin else .error .stampMismatch

/-- The tree built or verified, and linked; where it stands, and the host after. -/
def pinned (target : Target) (spec : Spec) : Except Fault (Path × Target) :=
  (prepared hash target spec).bind fun pin => (verify hash spec pin.closure pin.tree target.bytes).bind fun _ =>
    (lived hash target spec pin).map fun reached =>
      (spec.place, { target with
        mirror := reached.1
        standing := some { reached.2 with stamp := some spec.stamp } })

end Mainboard.Snapshots
