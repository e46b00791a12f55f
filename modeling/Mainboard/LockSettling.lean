import Mathlib.Data.List.Perm.Basic
import Mainboard.LockStanding

/-! Two locks of one frame settle alike exactly when the same platforms stand in both, under the same names.
The settled lock lists them by name, so that what stands can be read back from it. -/

namespace Mainboard.Pixi

/-- Entries of distinct keys stand under the same keys whatever their order. -/
theorem get_eq_of_perm {ν : Type} {entries others : List (Line × ν)} (hkeys : (entries.map (·.1)).Nodup)
    (h : entries.Perm others) (key : Line) : OrderedMap.get entries key = OrderedMap.get others key := by
  have hothers : (others.map (·.1)).Nodup := (h.map _).nodup_iff.mp hkeys
  refine Option.ext fun value => ?_
  constructor
  · intro hget
    exact OrderedMap.get_of_mem hothers (h.subset (OrderedMap.mem_of_get hget))
  · intro hget
    exact OrderedMap.get_of_mem hkeys (h.symm.subset (OrderedMap.mem_of_get hget))

/-- Entries of distinct keys, all of them labels, are what stands under the labels. -/
theorem perm_filterMap_get {ν : Type} {entries : List (Line × ν)} {labels : List Line}
    (hkeys : (entries.map (·.1)).Nodup) (hlabels : labels.Nodup) (h : ∀ entry ∈ entries, entry.1 ∈ labels) :
    entries.Perm (labels.filterMap fun label => (OrderedMap.get entries label).map fun value => (label, value)) := by
  have hnodup : (labels.filterMap fun label =>
      (OrderedMap.get entries label).map fun value => (label, value)).Nodup := by
    refine List.Nodup.filterMap (fun one another entry hone hanother => ?_) hlabels
    obtain ⟨value, -, hentry⟩ := Option.map_eq_some_iff.mp hone
    obtain ⟨found, -, hsame⟩ := Option.map_eq_some_iff.mp hanother
    exact congrArg Prod.fst (hentry.trans hsame.symm)
  refine (List.perm_ext_iff_of_nodup hkeys.of_map hnodup).mpr fun entry => ?_
  rw [List.mem_filterMap]
  constructor
  · intro hentry
    exact ⟨entry.1, h entry hentry, by rw [OrderedMap.get_of_mem hkeys hentry]; rfl⟩
  · rintro ⟨label, -, hlabel⟩
    obtain ⟨value, hvalue, rfl⟩ := Option.map_eq_some_iff.mp hlabel
    exact OrderedMap.mem_of_get hvalue

namespace Lock

variable {lock other : Lock}

/-- What a lock must have to be read by its names: the keys of an environment are distinct, and so are the
names of the platforms. -/
structure Named (lock : Lock) : Prop extends lock.Declared where
  keyed : ∀ environment ∈ lock.environments, (environment.packages.map (·.1)).Nodup
  distinct : ∀ one ∈ lock.platforms, ∀ another ∈ lock.platforms, lock.name one = lock.name another → one = another

theorem Written.toNamed (h : lock.Written) : lock.Named :=
  { h.toDeclared with
    keyed := h.keyed
    distinct := fun _ hone _ hanother => h.name_inj hone hanother }

/-- The frame of a lock: all but its platforms and its packages. -/
def frame (lock : Lock) : List Line × List Line × List (Line × List Line) :=
  (lock.head, lock.tail, lock.environments.map fun environment => (environment.name, environment.settings))

theorem Named.nodup_names (h : lock.Named) : (lock.platforms.map lock.name).Nodup :=
  List.Nodup.map_on h.distinct (List.Nodup.of_map _ h.labels)

/-- The packages of an environment, renamed, are what stands under the names of the platforms. -/
theorem Named.renamed_perm (h : lock.Named) {environment : Environment} (henvironment : environment ∈ lock.environments) :
    (environment.packages.map fun entry => (renamed lock.names entry.1, entry.2)).Perm
      (lock.platforms.filterMap fun platform =>
        (OrderedMap.get environment.packages platform.label).map fun packages => (lock.name platform, packages)) := by
  have hlabels := (perm_filterMap_get (h.keyed environment henvironment) h.labels
    (h.keys environment henvironment)).map fun entry => (renamed lock.names entry.1, entry.2)
  refine hlabels.trans (List.Perm.of_eq ?_)
  rw [List.map_filterMap, List.filterMap_map]
  refine List.filterMap_congr fun platform _ => ?_
  rw [Function.comp_apply, Option.map_map]
  rfl

theorem Named.renamed_keyed (h : lock.Named) {environment : Environment}
    (henvironment : environment ∈ lock.environments) :
    ((environment.packages.map fun entry => (renamed lock.names entry.1, entry.2)).map (·.1)).Nodup := by
  rw [List.map_map]
  have hkeys := h.keyed environment henvironment
  refine List.Nodup.map_on (fun one hone another hanother hsame => ?_) hkeys.of_map
  obtain ⟨platform, hplatform, hlabel⟩ := List.mem_map.mp (h.keys environment henvironment one hone)
  obtain ⟨found, hfound, hlabel'⟩ := List.mem_map.mp (h.keys environment henvironment another hanother)
  have hname : lock.name platform = lock.name found := by
    rw [name, name, hlabel, hlabel']
    exact hsame
  rw [h.distinct platform hplatform found hfound hname] at hlabel
  exact List.inj_on_of_nodup_map hkeys hone hanother (hlabel.symm.trans hlabel')

/-- The platforms of the settled lock, by name. -/
theorem settled_platforms (lock : Lock) : lock.settled.platforms = StableSort.sortOn (·.label)
    (lock.named.map fun entry => (⟨entry.1, entry.2.1, entry.2.2.1⟩ : Platform)) := by
  rw [named, List.map_map]
  rfl

/-- What stands in a lock, read back from the settled lock. -/
def readBack (settled : Lock) : List (Line × Content) :=
  settled.platforms.map fun platform => (platform.label, settled.content platform)

/-- The settled lock lists the same packages under a platform's name. -/
theorem Named.column_settled (h : lock.Named) {platform : Platform} (hplatform : platform ∈ lock.platforms) :
    lock.settled.column (lock.name platform) = lock.column platform.label := by
  rw [column, column, settled, List.map_map]
  refine List.map_congr_left fun environment henvironment => ?_
  have hkeyed := h.renamed_keyed henvironment
  rw [Function.comp_apply, Environment.settled]
  refine (get_eq_of_perm hkeyed (StableSort.sortOn_perm _ _).symm _).symm.trans ?_
  refine (get_eq_of_perm hkeyed (h.renamed_perm henvironment) _).trans ?_
  refine Option.ext fun packages => ?_
  have hnames : ((lock.platforms.filterMap fun platform => (OrderedMap.get environment.packages platform.label).map
      fun packages => (lock.name platform, packages)).map (·.1)).Nodup :=
    ((h.renamed_perm henvironment).map _).nodup_iff.mp hkeyed
  constructor
  · intro hget
    obtain ⟨found, hfound, hentry⟩ := List.mem_filterMap.mp (OrderedMap.mem_of_get hget)
    obtain ⟨value, hvalue, hpair⟩ := Option.map_eq_some_iff.mp hentry
    obtain rfl := h.distinct found hfound platform hplatform (congrArg Prod.fst hpair)
    rw [hvalue]
    exact congrArg some (congrArg Prod.snd hpair)
  · intro hget
    have hlisted : (lock.name platform, packages) ∈ lock.platforms.filterMap fun platform =>
        (OrderedMap.get environment.packages platform.label).map fun packages => (lock.name platform, packages) :=
      List.mem_filterMap.mpr ⟨platform, hplatform, by rw [hget]; rfl⟩
    exact OrderedMap.get_of_mem hnames hlisted

theorem Named.named_perm_readBack (h : lock.Named) : lock.named.Perm lock.settled.readBack := by
  have hread : lock.settled.readBack.Perm ((lock.platforms.map fun platform =>
      platform.named (lock.name platform)).map fun platform => (platform.label, lock.settled.content platform)) :=
    (StableSort.sortOn_perm _ _).map _
  refine (List.Perm.of_eq ?_).trans hread.symm
  rw [List.map_map, named]
  refine List.map_congr_left fun platform hplatform => ?_
  exact Prod.ext rfl (Prod.ext rfl (Prod.ext rfl (h.column_settled hplatform).symm))

/-- Where the same platforms stand in two locks of one frame, the locks settle alike. -/
theorem Named.settled_eq (h : lock.Named) (h' : other.Named) (hframe : lock.frame = other.frame)
    (hperm : lock.named.Perm other.named) : lock.settled = other.settled := by
  obtain ⟨hhead, htail, henvironments⟩ : lock.head = other.head ∧ lock.tail = other.tail ∧
      (lock.environments.map fun environment => (environment.name, environment.settings)) =
        other.environments.map fun environment => (environment.name, environment.settings) :=
    ⟨congrArg Prod.fst hframe, congrArg (fun frame => frame.2.1) hframe, congrArg (fun frame => frame.2.2) hframe⟩
  have hplatforms : lock.settled.platforms = other.settled.platforms := by
    rw [settled_platforms, settled_platforms]
    refine StableSort.sortOn_eq_of_perm _ ?_ (hperm.map _)
    rw [List.map_map, named, List.map_map]
    exact h.nodup_names
  have hsettled : lock.settled.environments = other.settled.environments := by
    have hlength : lock.environments.length = other.environments.length := by
      have hlengths := congrArg List.length henvironments
      rwa [List.length_map, List.length_map] at hlengths
    refine List.ext_getElem (by rw [settled, settled, List.length_map, List.length_map, hlength]) fun i hi hi' => ?_
    have hleft : i < lock.environments.length := by
      rwa [settled, List.length_map] at hi
    have hright : i < other.environments.length := hlength ▸ hleft
    have hsame : (lock.environments[i].name, lock.environments[i].settings) =
        (other.environments[i].name, other.environments[i].settings) := by
      have hat := congrArg (·[i]?) henvironments
      simp only [List.getElem?_map, List.getElem?_eq_getElem hleft, List.getElem?_eq_getElem hright,
        Option.map_some] at hat
      exact Option.some.inj hat
    -- an environment's packages are the platforms' columns at the environment's place
    have hcolumns : ∀ {lock : Lock}, lock.Named → ∀ (hi : i < lock.environments.length),
        (lock.environments[i].packages.map fun entry => (renamed lock.names entry.1, entry.2)).Perm
          (lock.named.filterMap fun entry => (entry.2.2.2[i]?).join.map fun packages => (entry.1, packages)) := by
      intro lock h hi
      refine (h.renamed_perm (List.getElem_mem hi)).trans (List.Perm.of_eq ?_)
      rw [named, List.filterMap_map]
      refine List.filterMap_congr fun platform _ => ?_
      rw [Function.comp_apply, content, column, List.getElem?_map, List.getElem?_eq_getElem hi]
      rfl
    have hpackages : (lock.environments[i].settled lock.names).packages =
        (other.environments[i].settled other.names).packages :=
      StableSort.sortOn_eq_of_perm _ (h.renamed_keyed (List.getElem_mem hleft))
        ((hcolumns h hleft).trans ((hperm.filterMap _).trans (hcolumns h' hright).symm))
    simp only [settled, List.getElem_map]
    obtain ⟨hname, hsettings⟩ := Prod.mk.inj hsame
    unfold Environment.settled at hpackages ⊢
    rw [hname, hsettings]
    exact congrArg (Environment.mk _ _) hpackages
  unfold settled at hplatforms hsettled ⊢
  dsimp only at hplatforms hsettled
  rw [hhead, htail, hplatforms, hsettled]

/-- Two locks of one frame settle alike exactly when the same platforms stand in both. -/
theorem Named.settled_eq_iff (h : lock.Named) (h' : other.Named) (hframe : lock.frame = other.frame) :
    lock.settled = other.settled ↔ lock.named.Perm other.named := by
  refine ⟨fun hsame => ?_, h.settled_eq h' hframe⟩
  have hread := h.named_perm_readBack
  rw [hsame] at hread
  exact hread.trans h'.named_perm_readBack.symm

end Lock

end Mainboard.Pixi
