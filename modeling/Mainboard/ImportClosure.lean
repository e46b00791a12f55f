import Mathlib.Data.List.Perm.Subperm
import Mainboard.ImportWalk

/-! What a walk reaches. Turn after turn every known path stands for one module, and what a module taken imports is
known by its path; a walk that ends has reached files closed under their imports and under the packages above them, and
nothing its first file does not lead to. -/

namespace Mainboard.Jobs.Walker

open OrderedMap (putAll)

variable {walker : Walker} {file : Path}

/-- The target leads to a module by imports one after the other. -/
def Reaches (walker : Walker) (file : Path) (module : Module) : Prop :=
  Relation.ReflTransGen walker.Imports (walker.first file) module

/-- Every initializer of a directory between a module and its root is reached. -/
def Packaged (walker : Walker) (modules : List Module) (module : Module) : Prop :=
  ∀ folder, module.root <+: folder → folder ≠ module.root → folder <+: module.path.dropLast →
    folder ++ [init] ∈ walker.tree.files → folder ++ [init] ∈ modules.map (·.path)

/-- What a walk that ends has reached. -/
structure Closes (walker : Walker) (file : Path) (modules : List Module) : Prop where
  opens : modules.head? = some (walker.first file)
  once : (modules.map (·.path)).Nodup
  sound : ∀ module ∈ modules, walker.Reaches file module
  closed : ∀ module ∈ modules, ∀ next, walker.Imports module next → next.path ∈ modules.map (·.path)
  answers : ∀ module ∈ modules, walker.Answers module
  packaged : ∀ module ∈ modules, module ≠ walker.first file → walker.Packaged modules module
  exact : (∀ one other, walker.Reaches file one → walker.Reaches file other → one.path = other.path → one = other) →
    ∀ module, module ∈ modules ↔ walker.Reaches file module

/-- What stands during a walk. -/
structure Walking (walker : Walker) (file : Path) (reached : List (Path × Module)) (pending : List Module) : Prop where
  keys : ∀ entry ∈ reached, entry.1 = entry.2.path
  nodup : (reached.map (·.1)).Nodup
  files : ∀ path ∈ reached.map (·.1), path ∈ file :: walker.tree.files
  opens : reached.head? = some (file, walker.first file)
  stands : ∀ module ∈ pending, module ∈ reached.map (·.2)
  answers : ∀ module ∈ reached.map (·.2), module ∈ pending ∨ walker.Answers module
  origin : ∀ module ∈ reached.map (·.2), module = walker.first file ∨
    ∃ prior ∈ reached.map (·.2), walker.Imports prior module
  explores : Worklists.Explores walker.Imports Module.path (· = walker.first file) (reached.map (·.2)) pending

/-- The paths known are those of the modules reached. -/
theorem Walking.paths {reached : List (Path × Module)} {pending : List Module} (h : Walking walker file reached pending) :
    (reached.map (·.2)).map Module.path = reached.map (·.1) := by
  rw [List.map_map]
  exact List.map_congr_left fun entry hentry => (h.keys entry hentry).symm

/-- No turn adds a path that is reached, and it adds all others found, each once. -/
theorem mem_fresh_keys {reached : List (Path × Module)} {found : List Module} {path : Path} :
    path ∈ (fresh reached found).map (·.1) ↔ path ∈ found.map (·.path) ∧ path ∉ reached.map (·.1) := by
  unfold fresh
  rw [OrderedMap.mem_keys_ofPairs, List.map_map]
  simp only [List.mem_map, List.mem_filter, decide_eq_true_eq, Function.comp_apply]
  constructor
  · rintro ⟨module, ⟨hmodule, hnew⟩, rfl⟩
    exact ⟨⟨module, hmodule, rfl⟩, hnew⟩
  · rintro ⟨⟨module, hmodule, rfl⟩, hnew⟩
    exact ⟨module, ⟨hmodule, hnew⟩, rfl⟩

/-- What a turn adds was found at the path it stands under. -/
theorem mem_fresh {reached : List (Path × Module)} {found : List Module} {entry : Path × Module}
    (h : entry ∈ fresh reached found) : entry.2 ∈ found ∧ entry.1 = entry.2.path := by
  obtain ⟨before, after, hpairs, _⟩ := OrderedMap.mem_ofPairs.mp h
  obtain ⟨module, hmodule, rfl⟩ := List.mem_map.mp (hpairs ▸ List.mem_append_right before List.mem_cons_self)
  exact ⟨(List.mem_filter.mp hmodule).1, rfl⟩

/-- Putting what a turn adds appends it. -/
theorem putAll_fresh {reached : List (Path × Module)} (h : (reached.map (·.1)).Nodup) (found : List Module) :
    putAll reached (fresh reached found) = reached ++ fresh reached found := by
  refine OrderedMap.putAll_of_nodup ?_
  rw [List.map_append, List.nodup_append]
  refine ⟨h, OrderedMap.nodup_keys_ofPairs _, fun old hold new hnew hsame => ?_⟩
  exact (mem_fresh_keys.mp hnew).2 (hsame ▸ hold)

theorem Walking.start : Walking walker file [(file, walker.first file)] [walker.first file] where
  keys entry hentry := by rw [List.mem_singleton.mp hentry]; rfl
  nodup := List.nodup_singleton _
  files path hpath := List.mem_singleton.mp hpath ▸ List.mem_cons_self
  opens := rfl
  stands module hmodule := hmodule
  answers module hmodule := Or.inl hmodule
  origin module hmodule := Or.inl (List.mem_singleton.mp hmodule)
  explores := by
    have hstart := Worklists.Explores.start walker.Imports Module.path [walker.first file]
    simp only [List.mem_singleton] at hstart
    exact hstart

/-- A turn keeps all of it. -/
theorem Walking.turn {reached : List (Path × Module)} {module : Module} {pending found : List Module}
    (h : Walking walker file reached (module :: pending)) (hfound : walker.imports module = .ok found) :
    Walking walker file (putAll reached (fresh reached found))
      (((fresh reached found).map (·.2)).reverse ++ pending) := by
  rw [putAll_fresh h.nodup]
  obtain ⟨hanswers, himports⟩ := imports_ok hfound
  have hmodule : module ∈ reached.map (·.2) := h.stands module List.mem_cons_self
  have hadded : ∀ next ∈ (fresh reached found).map (·.2), walker.Imports module next := by
    intro next hnext
    obtain ⟨entry, hentry, rfl⟩ := List.mem_map.mp hnext
    exact (himports _).mp (mem_fresh hentry).1
  have hkeys : ∀ entry ∈ reached ++ fresh reached found, entry.1 = entry.2.path := fun entry hentry =>
    (List.mem_append.mp hentry).elim (h.keys entry) fun hnew => (mem_fresh hnew).2
  refine ⟨hkeys, ?_, ?_, ?_, ?_, ?_, ?_, ?_⟩
  · rw [← putAll_fresh h.nodup]
    exact OrderedMap.nodup_keys_putAll h.nodup _
  · intro path hpath
    rw [List.map_append, List.mem_append] at hpath
    rcases hpath with hold | hnew
    · exact h.files path hold
    · obtain ⟨hpath, _⟩ := mem_fresh_keys.mp hnew
      obtain ⟨next, hnext, rfl⟩ := List.mem_map.mp hpath
      obtain ⟨_, _, _, _, _, hresolve, hmem⟩ := (himports next).mp hnext
      exact List.mem_cons_of_mem _ (resolve_mem_files hresolve hmem)
  · rw [List.head?_append, h.opens]
    rfl
  · intro other hother
    rw [List.map_append, List.mem_append]
    rcases List.mem_append.mp hother with hnew | hold
    · exact Or.inr (List.mem_reverse.mp hnew)
    · exact Or.inl (h.stands other (List.mem_cons_of_mem _ hold))
  · intro other hother
    rw [List.map_append, List.mem_append] at hother
    rcases hother with hold | hnew
    · rcases h.answers other hold with hwaits | hdone
      · rcases List.mem_cons.mp hwaits with rfl | hstill
        · exact Or.inr hanswers
        · exact Or.inl (List.mem_append_right _ hstill)
      · exact Or.inr hdone
    · exact Or.inl (List.mem_append_left _ (List.mem_reverse.mpr hnew))
  · intro other hother
    rw [List.map_append, List.mem_append] at hother
    rcases hother with hold | hnew
    · refine (h.origin other hold).imp_right fun horigin => ?_
      obtain ⟨prior, hprior, hleads⟩ := horigin
      exact ⟨prior, by rw [List.map_append]; exact List.mem_append_left _ hprior, hleads⟩
    · exact Or.inr ⟨module, by rw [List.map_append]; exact List.mem_append_left _ hmodule, hadded other hnew⟩
  · refine h.explores.turn hmodule hadded ?_ ?_ ?_ ?_
    · intro next hnext
      have hpath : next.path ∈ (reached ++ fresh reached found).map (·.1) := by
        rw [List.map_append, List.mem_append, mem_fresh_keys]
        by_cases hold : next.path ∈ reached.map (·.1)
        · exact Or.inl hold
        · exact Or.inr ⟨List.mem_map_of_mem ((himports next).mpr hnext), hold⟩
      obtain ⟨entry, hentry, hkey⟩ := List.mem_map.mp hpath
      exact List.mem_map.mpr ⟨entry.2, List.mem_map_of_mem hentry, (hkeys entry hentry).symm.trans hkey⟩
    · intro other
      rw [List.map_append, List.mem_append]
    · intro other hother
      exact (List.mem_cons.mp hother).imp_right (List.mem_append_right _)
    · intro other hother
      exact List.mem_append_left _ (List.mem_reverse.mpr hother)

/-- The beginning of a filtered list is a beginning of the list, filtered. -/
theorem exists_take_filter {α : Type} {keep : α → Bool} {list head : List α} (h : head <+: list.filter keep) :
    ∃ stop ≤ list.length, (list.take stop).filter keep = head := by
  induction list generalizing head with
  | nil => exact ⟨0, Nat.le_refl _, (List.prefix_nil.mp h).symm⟩
  | cons one list ih =>
      cases head with
      | nil => exact ⟨0, Nat.zero_le _, rfl⟩
      | cons start head =>
          by_cases hkeep : keep one = true
          · rw [List.filter_cons_of_pos hkeep, List.cons_prefix_cons] at h
            obtain ⟨stop, hstop, hrest⟩ := ih h.2
            exact ⟨stop + 1, Nat.succ_le_succ hstop, by rw [List.take_succ_cons, List.filter_cons_of_pos hkeep, hrest, h.1]⟩
          · rw [List.filter_cons_of_neg hkeep] at h
            obtain ⟨stop, hstop, hrest⟩ := ih h
            exact ⟨stop + 1, Nat.succ_le_succ hstop, by rw [List.take_succ_cons, List.filter_cons_of_neg hkeep, hrest]⟩

theorem dropLast_withSuffix_leads (package : Path) : (withSuffix package).dropLast <+: package := by
  cases package using List.reverseRecOn with
  | nil => exact List.nil_prefix
  | append_singleton before last => simp [withSuffix]

/-- What a name stands for holds the initializers of all packages above its modules. -/
theorem packaged_of_resolve {name : Name} {found : List Module} (h : walker.resolve name = .ok found) {module : Module}
    (hmodule : module ∈ found) : walker.Packaged found module := by
  intro folder hroot hne hfolder hinit
  obtain ⟨files, hchain, hpath, hall⟩ := mem_resolve h hmodule
  obtain ⟨rest, rfl⟩ := hroot
  have hrest : rest ≠ [] := fun hnil => hne (by rw [hnil, List.append_nil])
  -- the folder is the root and what a first few parts of the name add to it
  have hname : rest <+: name.filter (· ≠ "") := by
    rcases (mem_chainFrom hchain hpath).2 with ⟨stop, hwhole⟩ | hwhole
    · rw [hwhole, List.dropLast_concat, under, List.prefix_append_right_inj] at hfolder
      exact hfolder.trans ((List.take_prefix stop name).filter _)
    · rw [hwhole] at hfolder
      exact (List.prefix_append_right_inj _).mp (hfolder.trans (dropLast_withSuffix_leads _))
  obtain ⟨stop, hstop, rfl⟩ := exists_take_filter hname
  have hpositive : 1 ≤ stop := by
    refine Nat.one_le_iff_ne_zero.mpr fun hzero => hrest ?_
    rw [hzero, List.take_zero]
    rfl
  exact List.mem_map.mpr ⟨_, hall _ (init_mem_chainFrom hchain hpositive (by omega) hinit), rfl⟩

/-- A walk with nothing left to take has closed what it reached. -/
theorem Walking.closes {reached : List (Path × Module)} (h : Walking walker file reached []) :
    walker.Closes file (reached.map (·.2)) := by
  have hclosed : ∀ module ∈ reached.map (·.2), ∀ next, walker.Imports module next →
      next.path ∈ (reached.map (·.2)).map (·.path) := fun module hmodule next hnext => h.explores.closed hmodule hnext
  have hsound : ∀ module ∈ reached.map (·.2), walker.Reaches file module := by
    intro module hmodule
    obtain ⟨start, rfl, hleads⟩ := h.explores.sound module hmodule
    exact hleads
  refine ⟨?_, ?_, hsound, hclosed, ?_, ?_, ?_⟩
  · rw [List.head?_map, h.opens]
    rfl
  · exact h.paths ▸ h.nodup
  · exact fun module hmodule => (h.answers module hmodule).resolve_left List.not_mem_nil
  · intro module hmodule hfirst folder hroot hne hfolder hinit
    obtain ⟨prior, hprior, names, name, found, hnames, hname, hresolve, hmem⟩ :=
      (h.origin module hmodule).resolve_left hfirst
    obtain ⟨next, hnext, hpath⟩ := List.mem_map.mp (packaged_of_resolve hresolve hmem folder hroot hne hfolder hinit)
    exact hpath ▸ hclosed prior hprior next ⟨names, name, found, hnames, hname, hresolve, hnext⟩
  · intro hone module
    refine (h.explores.exact ?_ module).trans ⟨?_, fun hleads => ⟨_, rfl, hleads⟩⟩
    · rintro one other start start' rfl hone' rfl hother
      exact hone one other hone' hother
    · rintro ⟨start, rfl, hleads⟩
      exact hleads

/-- No walk reaches more paths than there are. -/
theorem Walking.length_le {reached : List (Path × Module)} {pending : List Module}
    (h : Walking walker file reached pending) : reached.length ≤ walker.tree.files.length + 1 := by
  have hsub := List.subperm_of_subset h.nodup h.files
  simpa using hsub.length_le

end Mainboard.Jobs.Walker
