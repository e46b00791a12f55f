import Mathlib
import Mainboard.IgnoreScopes

/-! A mirror's difference and its application on the target. Both ends describe a tree by its entries;
the delta between the two descriptions is pruned, made, linked and unpacked in that order over the
target's disk, which also holds what no survey states, and whatever lies where a link leads. -/

namespace Mainboard.Mirror

open Ignores (Path spelled ancestors)

inductive Kind
  | file
  | directory
  | link
  deriving DecidableEq, Repr

/-- One path a walk found, and what a transfer compares it by. -/
inductive Entry
  | file (size : Nat) (mtime : Int) (executable : Bool) (detail : String)
  | directory
  | link (target : String)
  deriving DecidableEq, Repr

def Entry.kind : Entry → Kind
  | file .. => .file
  | directory => .directory
  | link _ => .link

/-- A description of a tree: each path it holds once, with its entry. -/
abbrev Tree := AList fun _ : Path => Entry

/-- Whether a rule set claims a path, a directory judged as one. -/
abbrev Claim := Path → Bool → Bool

def Claim.holds (claim : Claim) (path : Path) (entry : Entry) : Bool :=
  claim path (decide (entry.kind = .directory))

/-- The difference between two descriptions of one tree, as the target has to apply it. -/
structure Delta where
  files : List (Path × Entry)
  directories : List Path
  links : List (Path × String)
  delete : List Path
  deriving DecidableEq

namespace Delta

/-- Whether the target's copy of a file is missing or holds other bytes or another mode. -/
def isDiffers (mine : Entry) (theirs : Option Entry) : Bool :=
  match mine, theirs with
  | .file size _ executable detail, some (.file theirSize _ theirExecutable theirDetail) =>
      decide ((size, detail, executable) ≠ (theirSize, theirDetail, theirExecutable))
  | _, _ => true

/-- Whether the target's entry must go: gone here, of another kind, or linked elsewhere. -/
def stale (mine : Option Entry) (theirs : Entry) : Bool :=
  match mine with
  | none => true
  | some mine => decide (mine.kind ≠ theirs.kind) || match mine, theirs with
    | .link target, .link theirTarget => decide (target ≠ theirTarget)
    | _, _ => false

/-- The entries of a description in path order. -/
def ordered (tree : Tree) : List (Path × Entry) :=
  (tree.entries.map fun entry => (entry.1, entry.2)).insertionSort fun one other =>
    spelled one.1 ≤ spelled other.1

/-- What turns `held` into `mine`, leaving what is protected from the pruning alone. -/
def between (mine held : Tree) (protects : Claim) : Delta :=
  let remade := (held.entries.filter fun entry => stale (mine.lookup entry.1) entry.2 &&
    !protects.holds entry.1 entry.2).map (·.1)
  let placed := (ordered mine).filter fun entry =>
    (held.lookup entry.1).isNone || decide (entry.1 ∈ remade)
  { files := (ordered mine).filter fun entry =>
      decide (entry.2.kind = .file) && isDiffers entry.2 (held.lookup entry.1)
    directories := (placed.filter fun entry => entry.2 = .directory).map (·.1)
    links := placed.filterMap fun entry => match entry.2 with
      | .link target => some (entry.1, target)
      | _ => none
    delete := remade }

end Delta

/-- Why the target stops applying a mirror: what stands at a path is in the way of what goes there. -/
inductive Obstacle
  | notDirectory (path : Path)
  | exists (path : Path)
  | isDirectory (path : Path)
  deriving DecidableEq, Repr

/-- What the file system makes of a link's text: the place the link leads to, where a directory stands there. -/
abbrev Follow := Tree → Path → String → Option Path

/-- A path strictly below another. -/
def Below (path folder : Path) : Prop := folder <+: path ∧ folder ≠ path

instance (path folder : Path) : Decidable (Below path folder) :=
  inferInstanceAs (Decidable (folder <+: path ∧ folder ≠ path))

namespace Tree

/-- Remove one path if it can go: a directory only once nothing is left below it. -/
def pruneOne (disk : Tree) (path : Path) : Tree :=
  match disk.lookup path with
  | some .directory => if ∀ other ∈ disk.keys, ¬ Below other path then disk.erase path else disk
  | some _ => disk.erase path
  | none => disk

/-- Remove paths deepest first; a directory still holding what the rules keep stays. -/
def prune (disk : Tree) (paths : List Path) : Tree :=
  (paths.insertionSort fun one other => other.length ≤ one.length).foldl pruneOne disk

/-- Enter a name of the directory one is in: made where nothing stands, and left for where it leads where a link does. -/
def enter (follow : Follow) (stand : Tree × Path) (name : String) : Except Obstacle (Tree × Path) :=
  let (disk, here) := stand
  match disk.lookup (here ++ [name]) with
  | none => .ok (disk.insert (here ++ [name]) .directory, here ++ [name])
  | some .directory => .ok (disk, here ++ [name])
  | some (.link target) =>
      match follow disk (here ++ [name]) target with
      | some place => .ok (disk, place)
      | none => .error (.notDirectory (here ++ [name]))
  | some (.file ..) => .error (.notDirectory (here ++ [name]))

/-- Make a directory and every one above it that is missing, and stand in it. -/
def descend (follow : Follow) (disk : Tree) (path : Path) : Except Obstacle (Tree × Path) :=
  path.foldlM (enter follow) (disk, [])

/-- Write a file beside its place and rename it there, which no directory lets happen. -/
def place (follow : Follow) (disk : Tree) (file : Path × Entry) : Except Obstacle Tree := do
  let (disk, here) ← descend follow disk file.1.dropLast
  let path := here ++ file.1.getLast?.toList
  match disk.lookup path with
  | some .directory => .error (.isDirectory path)
  | _ => return disk.insert path file.2

/-- What a survey states of a disk: the entries its scopes and names cover. -/
def survey (disk : Tree) (states : Path → Kind → Bool) : Tree where
  entries := disk.entries.filter fun entry => states entry.1 entry.2.kind
  nodupKeys := disk.nodupKeys.sublist List.filter_sublist

end Tree

/-! Lookups -/

variable {tree disk mine held : Tree} {path other folder : Path} {entry theirs : Entry}

theorem mem_ancestors : folder ∈ ancestors path ↔ Below path folder ∧ folder ≠ [] := by
  unfold ancestors Below
  simp only [List.mem_map, List.mem_range'_1]
  constructor
  · rintro ⟨length, ⟨hpos, hlength⟩, rfl⟩
    have htaken : (path.take length).length = length := List.length_take_of_le (by omega)
    refine ⟨⟨List.take_prefix _ _, fun hsame => ?_⟩, fun hempty => ?_⟩
    · rw [hsame] at htaken
      omega
    · rw [hempty] at htaken
      simp at htaken
      omega
  · rintro ⟨⟨hstarts, hne⟩, hroot⟩
    have hlength : folder.length < path.length := by
      refine lt_of_le_of_ne hstarts.length_le fun hsame => hne ?_
      exact hstarts.eq_of_length hsame
    have hpos : 0 < folder.length := List.length_pos_iff.mpr hroot
    exact ⟨folder.length, ⟨by omega, by omega⟩, (List.prefix_iff_eq_take.mp hstarts).symm⟩

/-- The folders above a path, from the one it lies in. -/
theorem mem_ancestors_iff : folder ∈ ancestors path ↔ folder <+: path.dropLast ∧ folder ≠ [] := by
  rw [mem_ancestors]
  refine and_congr_left fun hroot => ?_
  unfold Below
  rcases List.eq_nil_or_concat path with rfl | ⟨front, last, rfl⟩
  · exact iff_of_false (fun h => hroot (List.prefix_nil.mp h.1)) fun h => hroot (List.prefix_nil.mp h)
  · rw [List.concat_eq_append, List.dropLast_concat, List.prefix_concat_iff]
    constructor
    · rintro ⟨hself | hfront, hne⟩
      · exact absurd hself hne
      · exact hfront
    · refine fun hfront => ⟨.inr hfront, fun hself => ?_⟩
      have hlength := hfront.length_le
      rw [hself, List.length_append, List.length_singleton] at hlength
      omega

theorem dropLast_append_last (path : Path) : path.dropLast ++ path.getLast?.toList = path := by
  rcases List.eq_nil_or_concat path with rfl | ⟨front, last, rfl⟩
  · rfl
  · rw [List.concat_eq_append, List.dropLast_concat, List.getLast?_concat]
    rfl

theorem Below.length_lt (h : Below path folder) : folder.length < path.length :=
  lt_of_le_of_ne h.1.length_le fun hsame => h.2 (h.1.eq_of_length hsame)

theorem Below.trans (h : Below path folder) (h' : Below other path) : Below other folder :=
  ⟨h.1.trans h'.1, fun hsame => by
    have := h.length_lt
    have := h'.length_lt
    rw [hsame] at *
    omega⟩

/-- Two folders above one path lie one above the other. -/
theorem Below.total (h : Below path folder) (h' : Below path other) :
    folder = other ∨ Below other folder ∨ Below folder other := by
  rcases List.prefix_or_prefix_of_prefix h.1 h'.1 with hle | hle
  · by_cases hsame : folder = other
    · exact .inl hsame
    · exact .inr (.inl ⟨hle, hsame⟩)
  · by_cases hsame : folder = other
    · exact .inl hsame
    · exact .inr (.inr ⟨hle, fun heq => hsame heq.symm⟩)

theorem lookup_eq_some_iff : tree.lookup path = some entry ↔ (⟨path, entry⟩ : Sigma fun _ => Entry) ∈ tree.entries :=
  AList.mem_lookup_iff

theorem lookup_survey {states : Path → Kind → Bool} : (tree.survey states).lookup path = some entry ↔
    tree.lookup path = some entry ∧ states path entry.kind := by
  rw [lookup_eq_some_iff, lookup_eq_some_iff]
  exact List.mem_filter

end Mainboard.Mirror
