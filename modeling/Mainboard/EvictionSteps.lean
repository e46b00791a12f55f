import Mathlib.Logic.Relation
import Mainboard.BlobVerifying

/-! Evicting tree copies of finalized evidence among processes that use the same names. Each file is moved
aside into a private folder and judged there; the lake is asked about all of them at once; what is not
removed goes back to its name, or stays in its folder when something took the name meanwhile. Any call
may fail and the process may die at any point. -/

namespace Mainboard.Eviction

open Blobs (Bytes Lake Audit Whole)

/-- What a file is told apart by once it is closed. -/
structure Identity where
  device : ℕ
  inode : ℕ
  size : ℕ
  mtime : Int
  deriving DecidableEq, Repr

/-- What stands at a name; `serial` tells apart everything that ever stood at one. -/
structure File where
  serial : ℕ
  identity : Identity
  regular : Bool
  bytes : Bytes
  deriving DecidableEq, Repr

/-- A file to evict: its path, the object the lake indexes there, and the file its producer closed. -/
structure Item (Path Digest : Type) where
  path : Path
  sha256 : Digest
  size : ℕ
  closed : Identity
  deriving DecidableEq

/-- A private folder beside an item's path, with the file moved into it while it is there, and whether
that file was found to be the closed one with the item's digest. -/
structure Custody (Path Digest : Type) where
  item : Item Path Digest
  file : Option File
  held : Bool
  deriving DecidableEq

variable {Path Digest Sum : Type}

/-- How far the eviction of one batch is. -/
inductive Phase (Path Digest : Type)
  /-- The next item is to be moved aside. -/
  | taking (stack : List (Custody Path Digest)) (rest : List (Item Path Digest))
  /-- An item's file was moved aside and is to be judged. -/
  | judging (stack : List (Custody Path Digest)) (item : Item Path Digest) (file : File)
      (rest : List (Item Path Digest))
  /-- The lake answered and the next folder is to be settled, in the order they were made. -/
  | settling (audits : List (Digest × Audit)) (done : List (Custody Path Digest)) (rest : List (Custody Path Digest))
  /-- The folders are left, the last first. -/
  | leaving (stack : List (Custody Path Digest))
  /-- A file was linked back to its name, its private link still to go. -/
  | unlinking (custody : Custody Path Digest) (stack : List (Custody Path Digest))
  | finished

/-- Every private folder there is in a phase. -/
def Phase.folders : Phase Path Digest → List (Custody Path Digest)
  | taking stack _ => stack
  | judging stack item file _ => ⟨item, some file, false⟩ :: stack
  | settling _ done rest => done ++ rest
  | leaving stack => stack
  | unlinking custody stack => custody :: stack
  | finished => []

/-- The folders holding the one link of their file: not the one just linked back. -/
def Phase.waiting : Phase Path Digest → List (Custody Path Digest)
  | unlinking _ stack => stack
  | phase => phase.folders

/-- The tree, the lake and one eviction. `retained` are the folders left behind with a file in them,
`removed` what was unlinked for good, `replaced` what other processes took from a name themselves. -/
structure World (Path Digest Sum : Type) where
  files : Path → Option File
  lake : Lake Digest Sum
  phase : Phase Path Digest
  batches : List (List (Item Path Digest))
  raised : Bool
  retained : List (Custody Path Digest)
  removed : List (Item Path Digest × File)
  replaced : List File
  serial : ℕ

variable [DecidableEq Path]

/-- The tree with one name set. -/
def set (files : Path → Option File) (path : Path) (file : Option File) : Path → Option File :=
  fun other => if other = path then file else files other

theorem set_self (files : Path → Option File) (path : Path) (file : Option File) : set files path file path = file :=
  if_pos rfl

theorem set_ne {files : Path → Option File} {path other : Path} {file : Option File} (hne : other ≠ path) :
    set files path file other = files other := if_neg hne

variable [DecidableEq Digest] [DecidableEq Sum]

/-- Digest a file where it stands, which only a regular one lets happen. -/
def digestAt (sha256 : Bytes → Digest) (file : File) : Option Digest :=
  if file.regular then some (sha256 file.bytes) else none

section Steps

variable (md5 : Bytes → Sum) (sha256 : Bytes → Digest) (window limit : ℕ)

/-- The audit of each object named in `sizes`, a window at a time. -/
def audited (lake : Lake Digest Sum) (sizes : List (Digest × ℕ)) : List (Digest × Audit) :=
  (Grouping.constrainedBatches (·.2) limit sizes).flatMap fun part =>
    lake.audit md5 sha256 window (part.map (·.1))

/-- The size each object of the held folders is expected in. -/
def sizesOf (stack : List (Custody Path Digest)) : List (Digest × ℕ) :=
  ((stack.filter (·.held)).map fun custody => (custody.item.sha256, custody.item.size)).dedup

/-- What the lake's answer leaves against removing an item. -/
def faultOf (audits : List (Digest × Audit)) (item : Item Path Digest) : String :=
  match audits.lookup item.sha256 with
  | none => "no copy"
  | some audit => audit.fault item.size

/-- One step of the eviction. -/
inductive Evicting : World Path Digest Sum → World Path Digest Sum → Prop
  /-- The file at the name is moved into a new private folder, whatever it is by now. -/
  | moved {world : World Path Digest Sum} {stack : List (Custody Path Digest)} {item : Item Path Digest}
      {rest : List (Item Path Digest)} {file : File} (hphase : world.phase = .taking stack (item :: rest))
      (hfile : world.files item.path = some file) :
      Evicting world { world with
        files := set world.files item.path none, phase := .judging stack item file rest }
  /-- Nothing stands at the name any more. -/
  | missing {world : World Path Digest Sum} {stack : List (Custody Path Digest)} {item : Item Path Digest}
      {rest : List (Item Path Digest)} (hphase : world.phase = .taking stack (item :: rest))
      (hfile : world.files item.path = none) : Evicting world { world with phase := .taking stack rest }
  | judged {world : World Path Digest Sum} {stack : List (Custody Path Digest)} {item : Item Path Digest}
      {rest : List (Item Path Digest)} {file : File} (hphase : world.phase = .judging stack item file rest)
      (hreadable : file.identity = item.closed → (digestAt sha256 file).isSome) :
      Evicting world { world with phase := .taking (⟨item, some file,
        decide (file.identity = item.closed) && decide (digestAt sha256 file = some item.sha256)⟩ :: stack) rest }
  /-- All are taken, and the lake is asked about them in one read. -/
  | asked {world : World Path Digest Sum} {stack : List (Custody Path Digest)} (hphase : world.phase = .taking stack []) :
      Evicting world { world with
        phase := .settling (audited md5 sha256 window limit world.lake (sizesOf stack)) [] stack.reverse }
  | kept {world : World Path Digest Sum} {audits : List (Digest × Audit)} {done rest : List (Custody Path Digest)}
      {custody : Custody Path Digest} (hphase : world.phase = .settling audits done (custody :: rest))
      (hkept : custody.held → faultOf audits custody.item = "" →
        custody.file.map (·.identity) ≠ some custody.item.closed) :
      Evicting world { world with phase := .settling audits (custody :: done) rest }
  | unlinked {world : World Path Digest Sum} {audits : List (Digest × Audit)} {done rest : List (Custody Path Digest)}
      {custody : Custody Path Digest} {file : File} (hphase : world.phase = .settling audits done (custody :: rest))
      (hheld : custody.held) (hfault : faultOf audits custody.item = "") (hfile : custody.file = some file)
      (hclosed : file.identity = custody.item.closed) :
      Evicting world { world with
        phase := .settling audits ({ custody with file := none } :: done) rest
        removed := (custody.item, file) :: world.removed }
  | settled {world : World Path Digest Sum} {audits : List (Digest × Audit)} {done : List (Custody Path Digest)}
      (hphase : world.phase = .settling audits done []) : Evicting world { world with phase := .leaving done }
  /-- Any call of the batch may fail: every folder made so far is left. -/
  | failed {world : World Path Digest Sum} (hphase : ∀ stack, world.phase ≠ .leaving stack)
      (hlinked : ∀ custody stack, world.phase ≠ .unlinking custody stack) (hover : world.phase ≠ .finished) :
      Evicting world { world with phase := .leaving world.phase.folders, raised := true }
  /-- The file goes back to its name, which nothing took. -/
  | linked {world : World Path Digest Sum} {stack : List (Custody Path Digest)} {custody : Custody Path Digest}
      {file : File} (hphase : world.phase = .leaving (custody :: stack)) (hfile : custody.file = some file)
      (hfree : world.files custody.item.path = none) :
      Evicting world { world with
        files := set world.files custody.item.path (some file), phase := .unlinking custody stack }
  | returned {world : World Path Digest Sum} {stack : List (Custody Path Digest)} {custody : Custody Path Digest}
      (hphase : world.phase = .unlinking custody stack) : Evicting world { world with phase := .leaving stack }
  /-- Something took the name, or the call failed: the file stays in its folder and the eviction says so. -/
  | stranded {world : World Path Digest Sum} {stack : List (Custody Path Digest)} {custody : Custody Path Digest}
      (hphase : world.phase = .leaving (custody :: stack) ∨ world.phase = .unlinking custody stack) :
      Evicting world { world with
        phase := .leaving stack, raised := true, retained := custody :: world.retained }
  /-- An empty folder is removed. -/
  | emptied {world : World Path Digest Sum} {stack : List (Custody Path Digest)} {custody : Custody Path Digest}
      (hphase : world.phase = .leaving (custody :: stack)) (hfile : custody.file = none) :
      Evicting world { world with phase := .leaving stack }
  | next {world : World Path Digest Sum} {batch : List (Item Path Digest)} {batches : List (List (Item Path Digest))}
      (hphase : world.phase = .leaving []) (hraised : world.raised = false) (hbatches : world.batches = batch :: batches) :
      Evicting world { world with phase := .taking [] batch, batches := batches }
  | ended {world : World Path Digest Sum} (hphase : world.phase = .leaving [])
      (hlast : world.raised ∨ world.batches = []) : Evicting world { world with phase := .finished }
  /-- The process dies, leaving its folders behind. -/
  | died {world : World Path Digest Sum} : Evicting world { world with
      phase := .finished, raised := true, retained := world.phase.folders ++ world.retained }

/-- One step of another process, or of the lake. -/
inductive Foreign : World Path Digest Sum → World Path Digest Sum → Prop
  /-- A file of its own is created at a name, or replaces what stands there. -/
  | placed {world : World Path Digest Sum} (path : Path) (identity : Identity) (regular : Bool) (bytes : Bytes) :
      Foreign world { world with
        files := set world.files path (some ⟨world.serial, identity, regular, bytes⟩)
        replaced := (world.files path).toList ++ world.replaced
        serial := world.serial + 1 }
  | taken {world : World Path Digest Sum} (path : Path) : Foreign world { world with
      files := set world.files path none, replaced := (world.files path).toList ++ world.replaced }
  /-- The lake changes, keeping whole what it holds whole. -/
  | staged {world : World Path Digest Sum} (lake : Lake Digest Sum)
      (hwhole : ∀ digest, Whole md5 sha256 world.lake digest → Whole md5 sha256 lake digest) :
      Foreign world { world with lake }

inductive Step (world next : World Path Digest Sum) : Prop
  | evicting (step : Evicting md5 sha256 window limit world next)
  | foreign (step : Foreign md5 sha256 world next)

/-- Any number of steps of all of them. -/
def Steps : World Path Digest Sum → World Path Digest Sum → Prop :=
  Relation.ReflTransGen (Step md5 sha256 window limit)

end Steps

/-- A tree before the batches of an eviction. -/
def World.before (files : Path → Option File) (lake : Lake Digest Sum) (batches : List (List (Item Path Digest)))
    (serial : ℕ) : World Path Digest Sum :=
  ⟨files, lake, .leaving [], batches, false, [], [], [], serial⟩

end Mainboard.Eviction
