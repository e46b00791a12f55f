import Mainboard.LockBlocks
import Mainboard.LockNaming

/-! A lock in pixi's block style: its roster of platforms, its environments and what they install, with the
lines pixi writes for them and the parse of these lines. `canonical` of the lines is the lines of the settled
lock, whose labels are the platforms' names and whose labelled blocks are in the order of the names. -/

namespace Mainboard.Pixi

/-- A platform of the roster: its label, the subdirectory written under it, where one is, and the virtual
packages it vouches. -/
structure Platform where
  label : Line
  declared : Option Line
  vouched : List Line
  deriving DecidableEq

namespace Platform

/-- The subdirectory the platform solves for. -/
def subdir (platform : Platform) : Line := platform.declared.getD platform.label

/-- The lines under the label's. -/
def bodyLines (platform : Platform) : List Line :=
  (platform.declared.map ("  subdir: ".toList ++ ·)).toList ++
    (if platform.vouched = [] then [] else "  virtual-packages:".toList :: platform.vouched.map ("  - ".toList ++ ·))

/-- The text the platform is ranked by. -/
def body (platform : Platform) : Line := ['\n'].intercalate platform.bodyLines

/-- The platform's block of the roster. -/
def block (platform : Platform) : Block := ⟨"- name: ".toList, platform.label, [], platform.bodyLines⟩

/-- The platform under another label, its lines kept. -/
def named (platform : Platform) (name : Line) : Platform := { platform with label := name }

end Platform

/-- A package an environment installs: its kind, and its location. -/
structure Package where
  kind : Line
  location : Line
  deriving DecidableEq

namespace Package

/-- The package's line in an environment. -/
def line (package : Package) : Line := "      - ".toList ++ package.kind ++ ": ".toList ++ package.location

/-- The fields of the package's entry. -/
def fields (package : Package) : List (Line × Line) := [(package.kind, package.location)]

end Package

/-- The block of a platform's packages in an environment. -/
def installed (entry : Line × List Package) : Block :=
  ⟨"      ".toList, entry.1, if entry.2 = [] then ": []".toList else ":".toList, entry.2.map Package.line⟩

/-- An environment: its name, the lines of its settings, and the packages of each platform. -/
structure Environment where
  name : Line
  settings : List Line
  packages : List (Line × List Package)
  deriving DecidableEq

namespace Environment

/-- The lines above the packages. -/
def header (environment : Environment) : List Line :=
  ("  ".toList ++ environment.name ++ ":".toList) :: environment.settings ++ ["    packages:".toList]

/-- The blocks of the packages. -/
def blocks (environment : Environment) : List Block := environment.packages.map installed

/-- The environment's lines. -/
def lines (environment : Environment) : List Line := environment.header ++ textOf environment.blocks

/-- The environment with its packages renamed and in the order of their new names. -/
def settled (names : List (Line × Line)) (environment : Environment) : Environment :=
  let listed := environment.packages.map fun entry => (renamed names entry.1, entry.2)
  { environment with packages := StableSort.sortOn (·.1) listed }

/-- The environment's `packages` mapping, in a text in which the environment begins at a line. -/
def mapping (environment : Environment) (first : ℕ) : Mapping :=
  { keys := ((scalars (first + environment.header.length) environment.blocks).zip environment.packages).map
      fun entry => (entry.1, entry.2.2.map Package.fields)
    stop := first + environment.lines.length }

end Environment

/-- A lock: the lines above its roster, its platforms, its environments, and the lines after them. -/
structure Lock where
  head : List Line
  platforms : List Platform
  environments : List Environment
  tail : List Line
  deriving DecidableEq

/-- The environments' mappings, in a text in which the first begins at a line. -/
def mappingsFrom (first : ℕ) : List Environment → List (Line × Option Mapping)
  | [] => []
  | environment :: environments =>
      (environment.name, some (environment.mapping first)) ::
        mappingsFrom (first + environment.lines.length) environments

namespace Lock

/-- The blocks of the roster. -/
def roster (lock : Lock) : List Block := lock.platforms.map Platform.block

/-- The lines up to the roster. -/
def opening (lock : Lock) : List Line := lock.head ++ ["platforms:".toList]

/-- The lock's lines. -/
def lines (lock : Lock) : List Line :=
  lock.opening ++ textOf lock.roster ++ ["environments:".toList] ++ lock.environments.flatMap Environment.lines ++
    lock.tail

/-- The lock's parse. -/
def tree (lock : Lock) : Tree :=
  { entries := ((scalars lock.opening.length lock.roster).zip lock.platforms).map fun entry =>
      ⟨some entry.1, entry.2.declared⟩
    rosterStop := lock.opening.length + (textOf lock.roster).length
    environments := mappingsFrom (lock.opening.length + (textOf lock.roster).length + 1) lock.environments }

/-- The replacements of the lock's labels. -/
def names (lock : Lock) : List (Line × Line) :=
  assigned (lock.platforms.map fun platform => (platform.label, platform.subdir, platform.body))

/-- The lock with every label replaced and every run of labelled blocks in the order of the names. -/
def settled (lock : Lock) : Lock :=
  { lock with
    platforms := StableSort.sortOn (·.label)
      (lock.platforms.map fun platform => platform.named (renamed lock.names platform.label))
    environments := lock.environments.map (Environment.settled lock.names) }

/-- The roster's labels are distinct, and the packages' keys are labels of the roster. -/
structure Declared (lock : Lock) : Prop where
  labels : (lock.platforms.map (·.label)).Nodup
  keys : ∀ environment ∈ lock.environments, ∀ entry ∈ environment.packages,
    entry.1 ∈ lock.platforms.map (·.label)

end Lock

theorem length_scalars (first : ℕ) (blocks : List Block) : (scalars first blocks).length = blocks.length := by
  induction blocks generalizing first with
  | nil => rfl
  | cons block blocks ih => rw [scalars, List.length_cons, List.length_cons, ih]

theorem map_value_scalars (first : ℕ) (blocks : List Block) :
    (scalars first blocks).map (·.value) = blocks.map (·.label) := by
  induction blocks generalizing first with
  | nil => rfl
  | cons block blocks ih =>
      rw [scalars, List.map_cons, List.map_cons, ih]
      rfl

/-- The pieces of the lock: the roster, and each environment's packages. -/
def Lock.pieces (lock : Lock) : List Piece :=
  ⟨lock.opening, lock.roster⟩ :: ⟨["environments:".toList], []⟩ ::
    lock.environments.map fun environment => ⟨environment.header, environment.blocks⟩

theorem Lock.lines_eq (lock : Lock) : lock.lines = lock.pieces.flatMap Piece.lines ++ lock.tail := by
  have henvironments : (lock.environments.map fun environment =>
      (⟨environment.header, environment.blocks⟩ : Piece)).flatMap Piece.lines =
        lock.environments.flatMap Environment.lines := by
    rw [List.flatMap_map]
    rfl
  rw [Lock.pieces, List.flatMap_cons, List.flatMap_cons, henvironments]
  simp only [Lock.lines, Piece.lines, textOf, List.flatMap_nil, List.append_nil, List.append_assoc]

/-- The parse reads each platform's label and subdirectory. -/
theorem platforms_tree (lock : Lock) :
    platforms lock.tree = ((scalars lock.opening.length lock.roster).zip lock.platforms).map fun entry =>
      (entry.1, entry.2.declared.getD entry.1.value) := by
  rw [platforms, Lock.tree, List.filterMap_map]
  exact congrFun List.filterMap_eq_map _

/-- The labels of the parse are the roster's, with the subdirectories of its platforms. -/
theorem map_platforms_tree (lock : Lock) :
    (platforms lock.tree).map (·.1) = scalars lock.opening.length lock.roster ∧
      (platforms lock.tree).map (fun platform => (platform.1.value, platform.2)) =
        lock.platforms.map fun platform => (platform.label, platform.subdir) := by
  rw [platforms_tree, Lock.roster]
  generalize lock.opening.length = first
  induction lock.platforms generalizing first with
  | nil => exact ⟨rfl, rfl⟩
  | cons platform platforms ih =>
      obtain ⟨hlabels, hsubdirs⟩ := ih (first + platform.block.lines.length)
      rw [List.map_cons, scalars, List.zip_cons_cons, List.map_cons, List.map_cons, List.map_cons, hlabels, hsubdirs]
      exact ⟨rfl, rfl⟩

/-- The roster's run cuts the platforms' blocks out of the lock. -/
theorem blocks_roster (lock : Lock) :
    blocks (runAt lock.opening.length lock.roster) lock.lines = lock.roster.map Block.lines := by
  have hlines : lock.lines = lock.opening ++ textOf lock.roster ++
      (["environments:".toList] ++ lock.environments.flatMap Environment.lines ++ lock.tail) := by
    simp only [Lock.lines, List.append_assoc]
  rw [hlines]
  exact blocks_runAt _ _ _

/-- The code names the labels as the lock does. -/
theorem naming_tree (lock : Lock) :
    naming (platforms lock.tree) (blocks (runAt lock.opening.length lock.roster) lock.lines) = lock.names := by
  rw [blocks_roster, naming, Lock.names, platforms_tree, Lock.roster]
  refine congrArg assigned ?_
  generalize lock.opening.length = first
  induction lock.platforms generalizing first with
  | nil => rfl
  | cons platform platforms ih =>
      rw [List.map_cons, scalars, List.zip_cons_cons, List.map_cons, List.map_cons, List.zip_cons_cons, List.map_cons, ih]
      rfl

theorem mem_keys_names {lock : Lock} {label : Line} :
    label ∈ lock.names.map (·.1) ↔ label ∈ lock.platforms.map (·.label) := by
  rw [Lock.names, mem_keys_assigned, List.map_map]
  rfl

/-- An environment's mapping is the run of its packages, where every key has a name. -/
theorem mappingRun_mapping {names : List (Line × Line)} {environment : Environment}
    (h : ∀ entry ∈ environment.packages, entry.1 ∈ names.map (·.1)) (first : ℕ) :
    mappingRun names (environment.name, some (environment.mapping first)) =
      if environment.blocks = [] then [] else [runAt (first + environment.header.length) environment.blocks] := by
  have hkeys : (environment.mapping first).keys.map (·.1) =
      scalars (first + environment.header.length) environment.blocks := by
    dsimp only [Environment.mapping]
    rw [List.map_map]
    refine List.map_fst_zip ?_
    rw [length_scalars, Environment.blocks, List.length_map]
  have hnamed : ∀ key ∈ scalars (first + environment.header.length) environment.blocks,
      (OrderedMap.get names key.value).isSome = true := by
    intro key hkey
    have hvalue := List.mem_map_of_mem (f := fun key : Scalar => key.value) hkey
    rw [map_value_scalars, Environment.blocks, List.map_map] at hvalue
    obtain ⟨entry, hentry, hlabel⟩ := List.mem_map.mp hvalue
    have hmem := h entry hentry
    rw [Option.isSome_iff_ne_none, ne_eq, OrderedMap.get_eq_none_iff, not_not, ← hlabel]
    exact hmem
  have hnil : scalars (first + environment.header.length) environment.blocks = [] ↔ environment.blocks = [] := by
    rw [← List.length_eq_zero_iff, length_scalars, List.length_eq_zero_iff]
  dsimp only [mappingRun]
  rw [hkeys, List.filter_eq_self.mpr hnamed]
  by_cases hblocks : environment.blocks = []
  · rw [if_pos (hnil.mpr hblocks), if_pos hblocks]
  · rw [if_neg (fun hnone => hblocks (hnil.mp hnone)), if_neg hblocks]
    dsimp only [Environment.mapping, runAt]
    rw [Environment.lines, List.length_append, ← Nat.add_assoc]

/-- The mappings of the environments are the runs of their pieces, where every key has a name. -/
theorem mappings_from {names : List (Line × Line)} {environments : List Environment}
    (h : ∀ environment ∈ environments, ∀ entry ∈ environment.packages, entry.1 ∈ names.map (·.1)) (first : ℕ) :
    (mappingsFrom first environments).flatMap (mappingRun names) =
      runsFrom first (environments.map fun environment => ⟨environment.header, environment.blocks⟩) := by
  induction environments generalizing first with
  | nil => rfl
  | cons environment environments ih =>
      rw [mappingsFrom, List.flatMap_cons, mappingRun_mapping (h environment List.mem_cons_self),
        ih fun other hother => h other (List.mem_cons_of_mem _ hother)]
      rfl

/-- The runs the code reorders are the runs of the lock's pieces. -/
theorem runs_eq {lock : Lock} (h : lock.Declared) (hplatforms : lock.platforms ≠ []) :
    runAt lock.opening.length lock.roster :: mappings lock.tree lock.names = runsFrom 0 lock.pieces := by
  have hroster : lock.roster ≠ [] := fun hnil => hplatforms (List.map_eq_nil_iff.mp hnil)
  have hmappings := mappings_from (fun environment henvironment entry hentry =>
    mem_keys_names.mpr (h.keys environment henvironment entry hentry))
    (lock.opening.length + (textOf lock.roster).length + 1)
  rw [mappings]
  refine (congrArg (List.cons _) hmappings).trans ?_
  rw [Lock.pieces, runsFrom, if_neg hroster, runsFrom, if_pos rfl, List.nil_append, List.singleton_append, Nat.zero_add,
    Nat.zero_add, Piece.lines, List.length_append]
  rfl

/-- The pieces of the settled lock are the settled pieces. -/
theorem pieces_settled (lock : Lock) : lock.settled.pieces = lock.pieces.map (Piece.settled lock.names) := by
  have hroster : lock.settled.roster = settledBlocks lock.names lock.roster := by
    have hsorted := StableSort.map_sortOn (fun platform : Platform => platform.label) Platform.block
      (fun block : Block => block.label)
      (lock.platforms.map fun platform => platform.named (renamed lock.names platform.label)) (fun _ _ => rfl)
    refine hsorted.trans ?_
    rw [settledBlocks, Lock.roster, List.map_map, List.map_map]
    rfl
  have hblocks : ∀ environment : Environment,
      (environment.settled lock.names).blocks = settledBlocks lock.names environment.blocks := by
    intro environment
    have hsorted := StableSort.map_sortOn (fun entry : Line × List Package => entry.1) installed
      (fun block : Block => block.label)
      (environment.packages.map fun entry => (renamed lock.names entry.1, entry.2)) (fun _ _ => rfl)
    refine hsorted.trans ?_
    rw [settledBlocks, Environment.blocks, List.map_map, List.map_map]
    rfl
  rw [Lock.pieces, Lock.pieces, List.map_cons, List.map_cons, hroster, List.map_map]
  refine congrArg (List.cons _) (congrArg (List.cons _) ?_)
  rw [Lock.settled, List.map_map]
  refine List.map_congr_left fun environment _ => ?_
  refine (congrArg (Piece.mk environment.header) (hblocks environment)).trans ?_
  rfl

/-- A lock without a platform installs nothing, and is settled. -/
theorem settled_of_platforms_nil {lock : Lock} (h : lock.Declared) (hnil : lock.platforms = []) :
    lock.settled = lock := by
  have hpackages : ∀ environment ∈ lock.environments, environment.settled lock.names = environment := by
    intro environment henvironment
    have hnone : environment.packages = [] := List.eq_nil_iff_forall_not_mem.mpr fun entry hentry => by
      have hkey := h.keys environment henvironment entry hentry
      rw [hnil] at hkey
      cases hkey
    obtain ⟨name, settings, packages⟩ := environment
    obtain rfl : packages = [] := hnone
    rfl
  obtain ⟨head, platforms, environments, tail⟩ := lock
  obtain rfl : platforms = [] := hnil
  refine congrArg (fun kept => Lock.mk head [] kept tail) ?_
  exact (List.map_congr_left hpackages).trans (List.map_id _)

/-- `canonical` of the lines of a lock is the lines of the settled lock. -/
theorem canonical_lines {lock : Lock} (h : lock.Declared) :
    canonical lock.lines lock.tree = lock.settled.lines := by
  by_cases hplatforms : lock.platforms = []
  · have hnone : platforms lock.tree = [] := by
      rw [platforms_tree, hplatforms, List.zip_nil_right, List.map_nil]
    rw [settled_of_platforms_nil h hplatforms, canonical, if_pos hnone]
  · have hsome : platforms lock.tree ≠ [] := fun hnil => hplatforms (by
      have hlabels := (map_platforms_tree lock).2
      rw [hnil, List.map_nil] at hlabels
      exact List.map_eq_nil_iff.mp hlabels.symm)
    have hroster : (⟨(platforms lock.tree).map (·.1), lock.tree.rosterStop⟩ : Run) =
        runAt lock.opening.length lock.roster := by
      rw [(map_platforms_tree lock).1]
      rfl
    have hdone := rewrite_pieces lock.names lock.tail lock.pieces [] [] [] _ rfl
    rw [canonical, if_neg hsome, hroster]
    dsimp only
    rw [naming_tree, runs_eq h hplatforms, StableSort.sortOn_of_rising Run.stop (rising_runsFrom 0 lock.pieces)]
    rw [Lock.lines_eq lock.settled, pieces_settled]
    simp only [List.nil_append, List.length_nil, Nat.add_zero, ← Lock.lines_eq] at hdone
    exact hdone

end Mainboard.Pixi
