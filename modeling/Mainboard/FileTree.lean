import Mathlib.Data.List.Basic
import Mathlib.Data.List.Infix

/-! Trees of folders and files by place, with the calls that change them: folders made down to a place, a file
written, an entry moved with all beneath it, an entry taken away. What stands above an entry is a folder, in every
tree. Each call says what it leaves at every place, so that what it does not reach is seen to stand as it stood. -/

namespace FileTree

/-- What stands at a place. -/
inductive Entry (α : Type) where
  | folder
  | file (contents : α)
  deriving DecidableEq, Repr

/-- Why a call is refused. -/
inductive Refusal where
  | missing
  | standing
  | notFolder
  | isFolder
  | notEmpty
  | inside
  deriving DecidableEq, Repr

variable {ν α : Type}

/-- A tree: what stands at each place, by the names down to it, and a list of places that leaves none out. -/
structure Tree (ν α : Type) where
  entry : List ν → Option (Entry α)
  places : List (List ν)
  entry_parent : ∀ place name, entry (place ++ [name]) ≠ none → entry place = some .folder
  mem_places : ∀ place, entry place ≠ none → place ∈ places

/-- The places above a place, the nearest first. -/
def above (place : List ν) : List (List ν) := (List.range place.length).reverse.map place.take

@[simp] theorem mem_above {place folder : List ν} : folder ∈ above place ↔ folder <+: place ∧ folder ≠ place := by
  unfold above
  simp only [List.mem_map, List.mem_reverse, List.mem_range]
  refine ⟨?_, fun ⟨hlead, hne⟩ => ?_⟩
  · rintro ⟨length, hlength, rfl⟩
    refine ⟨List.take_prefix length place, fun h => ?_⟩
    have hshort := congrArg List.length h
    rw [List.length_take, Nat.min_eq_left hlength.le] at hshort
    omega
  · refine ⟨folder.length, ?_, (List.prefix_iff_eq_take.mp hlead).symm⟩
    exact lt_of_le_of_ne hlead.length_le fun h => hne (hlead.eq_of_length h)

theorem prefix_concat_cases {place folder : List ν} {name : ν} (h : folder <+: place ++ [name]) :
    folder <+: place ∨ folder = place ++ [name] := by
  rcases List.prefix_concat_iff.mp h with heq | hlead
  · exact Or.inr heq
  · exact Or.inl hlead

/-- A file cannot stand above another place. -/
theorem Tree.folder_of_prefix (t : Tree ν α) {folder place : List ν} (hlead : folder <+: place)
    (hne : folder ≠ place) (h : t.entry place ≠ none) : t.entry folder = some .folder := by
  obtain ⟨rest, rfl⟩ := hlead
  induction rest using List.reverseRecOn with
  | nil => exact absurd (List.append_nil folder).symm hne
  | append_singleton rest name ih =>
      rw [← List.append_assoc] at h
      have hparent := t.entry_parent _ _ h
      by_cases hrest : rest = []
      · rwa [hrest, List.append_nil] at hparent
      · refine ih (fun heq => hrest ?_) (by rw [hparent]; exact Option.some_ne_none _)
        exact List.append_cancel_left (heq.symm.trans (List.append_nil folder).symm)

theorem Tree.entry_of_prefix (t : Tree ν α) {folder place : List ν} (hlead : folder <+: place)
    (h : t.entry place ≠ none) : t.entry folder ≠ none := by
  by_cases hne : folder = place
  · rwa [hne]
  · rw [t.folder_of_prefix hlead hne h]
    exact Option.some_ne_none _

namespace Tree

variable (t : Tree ν α)

def isFolder (place : List ν) : Bool := match t.entry place with
  | some .folder => true
  | _ => false

def isFile (place : List ν) : Bool := match t.entry place with
  | some (.file _) => true
  | _ => false

theorem isFolder_iff {place : List ν} : t.isFolder place = true ↔ t.entry place = some .folder := by
  unfold isFolder
  split <;> simp_all

theorem isFile_iff {place : List ν} : t.isFile place = true ↔ ∃ contents, t.entry place = some (.file contents) := by
  unfold isFile
  split <;> simp_all

/-- Why nothing can be reached at a place: a file stands above it, or nothing stands there. -/
def unreached (place : List ν) : Refusal := if (above place).any t.isFile then .notFolder else .missing

/-- The contents of the file at a place. -/
def read (place : List ν) : Except Refusal α := match t.entry place with
  | some (.file contents) => .ok contents
  | some .folder => .error .isFolder
  | none => .error (t.unreached place)

variable [DecidableEq ν]

/-- The tree with folders down to a place. -/
def withFolders (place : List ν) : Tree ν α where
  entry other := if other <+: place then some .folder else t.entry other
  places := place :: above place ++ t.places
  entry_parent := by
    intro other name h
    split
    · rfl
    · rename_i hother
      rw [if_neg fun hlead => hother ((List.prefix_append other [name]).trans hlead)] at h
      exact t.entry_parent other name h
  mem_places := by
    intro other h
    split at h
    · rename_i hother
      by_cases hne : other = place
      · exact hne ▸ List.mem_append_left _ List.mem_cons_self
      · exact List.mem_append_left _ (List.mem_cons_of_mem _ (mem_above.mpr ⟨hother, hne⟩))
    · exact List.mem_append_right _ (t.mem_places other h)

/-- `mkdir` with the parents it needs, content with a folder that stands. -/
def mkdirs (place : List ν) : Except Refusal (Tree ν α) :=
  if t.isFile place then .error .standing
  else if (above place).any t.isFile then .error .notFolder
  else .ok (t.withFolders place)

/-- The tree with a file at a place that is no folder and has one above it. -/
def withFile (place : List ν) (contents : α) (habove : t.isFolder place.dropLast = true)
    (hplace : ¬ t.isFolder place = true) : Tree ν α where
  entry other := if other = place then some (.file contents) else t.entry other
  places := place :: t.places
  entry_parent := by
    intro other name h
    split at h
    · rename_i heq
      have hother : other = place.dropLast := by rw [← heq, List.dropLast_concat]
      rw [← hother] at habove
      rw [if_neg fun hself : other = place => hplace (hself ▸ habove)]
      exact t.isFolder_iff.mp habove
    · have hparent := t.entry_parent other name h
      rwa [if_neg fun hself : other = place => hplace (t.isFolder_iff.mpr (hself ▸ hparent))]
  mem_places := by
    intro other h
    split at h
    · rename_i heq
      exact heq ▸ List.mem_cons_self
    · exact List.mem_cons_of_mem _ (t.mem_places other h)

/-- A file's contents written, over what it held. -/
def write (place : List ν) (contents : α) : Except Refusal (Tree ν α) :=
  if hplace : t.isFolder place then .error .isFolder
  else if habove : t.isFolder place.dropLast then .ok (t.withFile place contents habove hplace)
  else .error (t.unreached place)

/-- The tree without a place and all beneath it. -/
def without (place : List ν) : Tree ν α where
  entry other := if place <+: other then none else t.entry other
  places := t.places
  entry_parent := by
    intro other name h
    split at h
    · exact absurd rfl h
    · rename_i hother
      rw [if_neg fun hlead => hother (hlead.trans (List.prefix_append other [name]))]
      exact t.entry_parent other name h
  mem_places := by
    intro other h
    split at h
    · exact absurd rfl h
    · exact t.mem_places other h

def unlink (place : List ν) : Except Refusal (Tree ν α) := match t.entry place with
  | some (.file _) => .ok (t.without place)
  | some .folder => .error .isFolder
  | none => .error (t.unreached place)

def rmtree (place : List ν) : Except Refusal (Tree ν α) := match t.entry place with
  | some .folder => .ok (t.without place)
  | some (.file _) => .error .notFolder
  | none => .error (t.unreached place)

/-- The tree with what stands at one place moved to another, which has a folder above it and does not lie beneath
the first. -/
def moved (old new : List ν) (hinside : ¬ old <+: new) (habove : t.isFolder new.dropLast = true) : Tree ν α where
  entry other :=
    if new <+: other then t.entry (old ++ other.drop new.length)
    else if old <+: other then none else t.entry other
  places := t.places ++ t.places.map fun place => new ++ place.drop old.length
  entry_parent := by
    intro other name h
    by_cases hother : new <+: other
    · rw [if_pos (hother.trans (List.prefix_append other [name])), List.drop_append_of_le_length hother.length_le,
        ← List.append_assoc] at h
      rw [if_pos hother]
      exact t.entry_parent _ _ h
    · rw [if_neg hother]
      by_cases hnew : new <+: other ++ [name]
      · have heq : new = other ++ [name] := (prefix_concat_cases hnew).resolve_left hother
        have hdrop : new.dropLast = other := by rw [heq, List.dropLast_concat]
        rw [if_neg fun hold => hinside (hold.trans (heq ▸ List.prefix_append other [name])), ← hdrop]
        exact t.isFolder_iff.mp habove
      · rw [if_neg hnew] at h
        split at h
        · exact absurd rfl h
        · rename_i hold
          rw [if_neg fun hlead => hold (hlead.trans (List.prefix_append other [name]))]
          exact t.entry_parent other name h
  mem_places := by
    intro other h
    split at h
    · rename_i hother
      obtain ⟨rest, rfl⟩ := hother
      rw [List.drop_left] at h
      refine List.mem_append_right _ (List.mem_map.mpr ⟨_, t.mem_places _ h, ?_⟩)
      rw [List.drop_left]
    · split at h
      · exact absurd rfl h
      · exact List.mem_append_left _ (t.mem_places other h)

/-- Something stands beneath a place. -/
def holding (place : List ν) : Bool :=
  t.places.any fun other => decide (place <+: other ∧ other ≠ place) && (t.entry other).isSome

/-- `rename`: a folder goes to a free place or over an empty folder, a file to a free place or over a file. -/
def rename (old new : List ν) : Except Refusal (Tree ν α) :=
  if (t.entry old).isNone then .error (t.unreached old)
  else if old = new then .ok t
  else if hinside : old <+: new then .error .inside
  else if habove : t.isFolder new.dropLast then
    if t.isFolder old then
      if t.isFile new then .error .notFolder
      else if t.holding new then .error .notEmpty
      else .ok (t.moved old new hinside habove)
    else if t.isFolder new then .error .isFolder
    else .ok (t.moved old new hinside habove)
  else .error (t.unreached new)

/-- The files beneath a folder, none where it is no folder. -/
def files (place : List ν) : List (List ν) :=
  if t.isFolder place then (t.places.filter fun other => decide (place <+: other) && t.isFile other).dedup else []

/-- A tree that holds nothing but its root. -/
def root : Tree ν α where
  entry place := if place = [] then some .folder else none
  places := [[]]
  entry_parent := by
    intro place name h
    rw [if_neg (List.append_ne_nil_of_right_ne_nil _ (List.cons_ne_nil _ _))] at h
    exact absurd rfl h
  mem_places := by
    intro place h
    split at h
    · rename_i heq
      exact heq ▸ List.mem_cons_self
    · exact absurd rfl h

/-- The tree of a list of files, with the folders they need. -/
def ofFiles (files : List (List ν × α)) : Tree ν α :=
  files.foldl (fun t file => ((t.mkdirs file.1.dropLast).bind fun made => made.write file.1 file.2).toOption.getD t) root

variable {t} {next : Tree ν α} {place old new other : List ν} {contents : α}

/-- Folders made down to a place leave every other entry, and no file stood on the way. -/
theorem mkdirs_eq (h : t.mkdirs place = .ok next) :
    next.entry = (fun other => if other <+: place then some .folder else t.entry other) ∧
      ∀ folder, folder <+: place → t.isFile folder = false := by
  unfold mkdirs at h
  split at h
  · cases h
  · rename_i hplace
    split at h
    · cases h
    · rename_i habove
      obtain rfl := Except.ok.inj h
      refine ⟨rfl, fun folder hlead => ?_⟩
      by_cases hne : folder = place
      · rw [hne]
        exact Bool.eq_false_iff.mpr hplace
      · rw [List.any_eq_true] at habove
        exact Bool.eq_false_iff.mpr fun hfile => habove ⟨folder, mem_above.mpr ⟨hlead, hne⟩, hfile⟩

/-- Making folders neither makes a file nor changes one. -/
theorem file_mkdirs (h : t.mkdirs place = .ok next) :
    next.entry other = some (.file contents) ↔ t.entry other = some (.file contents) := by
  obtain ⟨hnext, hfree⟩ := mkdirs_eq h
  rw [hnext]
  dsimp only
  split
  · rename_i hother
    refine ⟨fun h => ?_, fun h => ?_⟩
    · cases h
    · exact absurd (t.isFile_iff.mpr ⟨contents, h⟩) (Bool.eq_false_iff.mp (hfree other hother))
  · exact Iff.rfl

theorem write_eq (h : t.write place contents = .ok next) :
    next.entry = fun other => if other = place then some (.file contents) else t.entry other := by
  unfold write at h
  split at h
  · cases h
  · split at h
    · obtain rfl := Except.ok.inj h
      rfl
    · cases h

theorem unlink_eq (h : t.unlink place = .ok next) :
    next.entry = (fun other => if place <+: other then none else t.entry other) ∧
      ∃ contents, t.entry place = some (.file contents) := by
  unfold unlink at h
  split at h
  · rename_i contents hentry
    obtain rfl := Except.ok.inj h
    exact ⟨rfl, contents, hentry⟩
  · cases h
  · cases h

theorem rmtree_eq (h : t.rmtree place = .ok next) :
    next.entry = (fun other => if place <+: other then none else t.entry other) ∧ t.entry place = some .folder := by
  unfold rmtree at h
  split at h
  · rename_i hentry
    obtain rfl := Except.ok.inj h
    exact ⟨rfl, hentry⟩
  · cases h
  · cases h

/-- A rename that is not refused finds its place and leaves the tree as it was, or moves what stood there. -/
theorem rename_eq (h : t.rename old new = .ok next) :
    t.entry old ≠ none ∧ (old = new ∧ next = t ∨
      ¬ old <+: new ∧ next.entry = fun other =>
        if new <+: other then t.entry (old ++ other.drop new.length)
        else if old <+: other then none else t.entry other) := by
  unfold rename at h
  split at h
  · cases h
  · rename_i hold
    refine ⟨fun hnone => hold (by rw [hnone]; rfl), ?_⟩
    split at h
    · rename_i heq
      exact Or.inl ⟨heq, (Except.ok.inj h).symm⟩
    · split at h
      · cases h
      · rename_i hinside
        refine Or.inr ⟨hinside, ?_⟩
        split at h
        · split at h
          · split at h
            · cases h
            · split at h
              · cases h
              · obtain rfl := Except.ok.inj h
                rfl
          · split at h
            · cases h
            · obtain rfl := Except.ok.inj h
              rfl
        · cases h

/-- A rename to another place that is not refused moves a folder to no file and to no folder that holds anything, and
a file to no folder. -/
theorem rename_guards (h : t.rename old new = .ok next) (hself : old ≠ new) :
    (t.isFolder old = true → t.isFile new = false ∧ t.holding new = false) ∧
      (t.isFolder old = false → t.isFolder new = false) := by
  unfold rename at h
  rw [if_neg hself] at h
  split at h
  · cases h
  · split at h
    · cases h
    · split at h
      · split at h
        · rename_i hfolder
          refine ⟨fun _ => ?_, fun hfile => absurd hfolder (Bool.eq_false_iff.mp hfile)⟩
          split at h
          · cases h
          · rename_i hfile
            split at h
            · cases h
            · rename_i hholding
              exact ⟨Bool.eq_false_iff.mpr hfile, Bool.eq_false_iff.mpr hholding⟩
        · rename_i hfile
          refine ⟨fun hfolder => absurd hfolder hfile, fun _ => ?_⟩
          split at h
          · cases h
          · rename_i hnew
            exact Bool.eq_false_iff.mpr hnew
      · cases h

end Tree

end FileTree
