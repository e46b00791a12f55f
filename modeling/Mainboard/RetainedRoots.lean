import Mathlib.Data.List.Sort
import Mainboard.OrderedMap

/-! The roots a host keeps. A launch pins its source tree and the environment it activates before anything is queued;
a sweep joins what it knows is queued with the pins it reads, and removes of what stands only what none of it names,
the newest few kept. Anything unknown keeps every root. -/

namespace Mainboard.Execution

abbrev Path := List String

local instance lawfulPath : LawfulBEq Path := inferInstance

/-- What must outlive a sweep, and every observation that could not be made. -/
structure Retention where
  sources : List Path := []
  prefixes : List Path := []
  proofs : List Path := []
  unknown : List String := []
  deriving DecidableEq, Repr

namespace Retention

/-- Two observations joined. -/
def including (one other : Retention) : Retention where
  sources := one.sources ++ other.sources
  prefixes := one.prefixes ++ other.prefixes
  proofs := one.proofs ++ other.proofs
  unknown := one.unknown ++ other.unknown

/-- The named roots as they are written. -/
def written (retained : Retention) : List Path := retained.sources ++ retained.prefixes ++ retained.proofs

/-- The directories a path lies in. -/
def parents (path : Path) : List Path := path.inits.dropLast

section

variable (real : Path → Path) (retained : Retention) (path : Path)

/-- The named roots as written and as they resolve. -/
def named : List Path := retained.written ++ retained.written.map real

def enclosing : List Path := (named real retained).flatMap parents

/-- A sweep must keep a path that is, holds or lies inside a named root, spelled or resolved. -/
def protects : Bool :=
  !retained.unknown.isEmpty || [path, real path].any fun spelling =>
    decide (spelling ∈ named real retained) || decide (spelling ∈ enclosing real retained) ||
      (parents spelling).any fun parent => decide (parent ∈ named real retained)

end

end Retention

/-- A record of the host's pins: the roots its name stands for, and whether it reads as the record so named. -/
structure Entry where
  roots : Retention
  readable : Bool
  deriving DecidableEq, Repr

/-- `RetentionPins._read`. -/
def readPins (pins : List Entry) : Retention :=
  if pins.all Entry.readable then (pins.map Entry.roots).foldl Retention.including {}
  else { unknown := ["unreadable pins"] }

/-- A record written under the name of its content: an equal one is written over. -/
def publish (roots : Retention) : List Entry → List Entry
  | [] => [⟨roots, true⟩]
  | entry :: pins => if entry.roots = roots then ⟨roots, true⟩ :: pins else entry :: publish roots pins

/-- A pinned source tree: when it was last used, the environments its links name, what its stamp says where it has one,
the listing frozen in it where it was sealed, and the files that stand in it under no link. -/
structure Tree where
  mtime : ℕ
  links : List String
  stamp : Option String
  frozen : Option (List Path)
  files : List Path
  deriving DecidableEq, Repr

/-- An addressed environment, built or not yet. -/
structure Prefix where
  mtime : ℕ
  built : Bool
  deriving DecidableEq, Repr

/-- Where a source tree stands below the workspace's root. -/
def sourceBelow (out key : String) : Path := [out, "dispatch", "sources", key]

/-- Where an environment's addressed prefix stands below it. -/
def prefixBelow (out : String) (address : String × String) : Path := [out, "prefixes", address.1, address.2]

/-- The names of what stands behind the newest few. -/
def behind {ν : Type} (kept : ℕ) (mtime : ν → ℕ) (entries : List (String × ν)) : List (String × ν) :=
  (entries.insertionSort fun one other => mtime other.2 ≤ mtime one.2).drop kept

/-- `Snapshots._sweep`, up to the removal. -/
def doomedSources (real : Path → Path) (root : Path) (out : String) (horizon : ℕ) (retained : Retention)
    (trees : List (String × Tree)) : List String :=
  ((behind 3 Tree.mtime trees).filter fun tree =>
    decide (tree.2.mtime < horizon) && !retained.protects real (root ++ sourceBelow out tree.1)).map (·.1)

/-- The environments the trees' links name. -/
def referenced (trees : List (String × Tree)) : List String := trees.flatMap fun tree => tree.2.links

/-- The prefixes of one environment, by their digests. -/
def prefixesOf (environment : String) (prefixes : List ((String × String) × Prefix)) : List (String × Prefix) :=
  (prefixes.filter fun standing => standing.1.1 = environment).map fun standing => (standing.1.2, standing.2)

/-- `Prefixes._sweep`, up to the removal. -/
def doomedPrefixes (real : Path → Path) (root : Path) (out environment : String) (live linked : List String)
    (retained : Retention) (prefixes : List ((String × String) × Prefix)) : List String :=
  ((behind 2 Prefix.mtime (prefixesOf environment prefixes)).filter fun standing =>
    decide (standing.1 ∉ live ++ linked) &&
      !retained.protects real (root ++ prefixBelow out (environment, standing.1))).map (·.1)

/-! ### What a sweep spares -/

section

variable {real : Path → Path} {retained : Retention} {path : Path} {pins : List Entry} {entry : Entry}

/-- A path that resolves to where a named root does is kept. -/
theorem protects_of_resolved (h : real path ∈ retained.written.map real) : retained.protects real path = true := by
  unfold Retention.protects
  have hnamed : real path ∈ retained.named real := List.mem_append_right _ h
  rw [Bool.or_eq_true]
  refine Or.inr (List.any_eq_true.mpr ⟨real path, List.mem_cons_of_mem _ List.mem_cons_self, ?_⟩)
  rw [decide_eq_true hnamed, Bool.true_or, Bool.true_or]

theorem mem_written_including {one other : Retention} :
    path ∈ (one.including other).written ↔ path ∈ one.written ∨ path ∈ other.written := by
  simp only [Retention.written, Retention.including, List.mem_append]
  constructor <;> rintro h <;> tauto

theorem mem_written_foldl {records : List Retention} {first record : Retention}
    (h : record = first ∨ record ∈ records) (hpath : path ∈ record.written) : path ∈ (records.foldl Retention.including first).written := by
  induction records generalizing first record with
  | nil =>
      rcases h with rfl | h
      · exact hpath
      · exact absurd h List.not_mem_nil
  | cons next records ih =>
      rw [List.foldl_cons]
      rcases h with rfl | h
      · exact ih (Or.inl rfl) (mem_written_including.mpr (Or.inl hpath))
      · rcases List.mem_cons.mp h with rfl | h
        · exact ih (Or.inl rfl) (mem_written_including.mpr (Or.inr hpath))
        · exact ih (Or.inr h) hpath

/-- A host whose pins leave nothing unknown has read every one of them. -/
theorem mem_written_readPins (h : (readPins pins).unknown = []) (hentry : entry ∈ pins)
    (hpath : path ∈ entry.roots.written) : path ∈ (readPins pins).written := by
  unfold readPins at h ⊢
  split at h
  next hall =>
    rw [if_pos hall]
    exact mem_written_foldl (Or.inr (List.mem_map_of_mem hentry)) hpath
  next => exact absurd h (List.cons_ne_nil _ _)

theorem mem_publish {roots : Retention} (h : entry ∈ pins) :
    ∃ later ∈ publish roots pins, later.roots = entry.roots := by
  induction pins with
  | nil => exact absurd h List.not_mem_nil
  | cons first pins ih =>
      rw [publish]
      split
      next hsame =>
        rcases List.mem_cons.mp h with rfl | h
        · exact ⟨_, List.mem_cons_self, hsame.symm⟩
        · exact ⟨entry, List.mem_cons_of_mem _ h, rfl⟩
      next =>
        rcases List.mem_cons.mp h with rfl | h
        · exact ⟨_, List.mem_cons_self, rfl⟩
        · obtain ⟨later, hlater, hroots⟩ := ih h
          exact ⟨later, List.mem_cons_of_mem _ hlater, hroots⟩

theorem self_mem_publish (roots : Retention) (pins : List Entry) : ⟨roots, true⟩ ∈ publish roots pins := by
  induction pins with
  | nil => exact List.mem_cons_self
  | cons first pins ih =>
      rw [publish]
      split
      · exact List.mem_cons_self
      · exact List.mem_cons_of_mem _ ih

end

end Mainboard.Execution
