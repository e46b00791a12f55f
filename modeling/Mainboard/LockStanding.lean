import Mainboard.LockReading

/-! What the canonical text tells. A platform stands in it by its name, with the lines under its label and
the packages each environment lists for it, and two locks of one frame settle alike exactly when the same
platforms stand in both. Over pixi's own locks that is a matter of each subdirectory and each body: the
platforms of a subdirectory and a body have the same packages in the same order in both rosters. -/

namespace Mainboard.Pixi

/-- What the canonical text says of a platform: the subdirectory written, the packages vouched, and for each
environment the packages listed. -/
abbrev Content := Option Line × List Line × List (Option (List Package))

/-- The text a platform of such a content is ranked by. -/
def bodyOf (content : Content) : Line := Platform.body ⟨[], content.1, content.2.1⟩

namespace Lock

/-- A lock as pixi writes it: a subdirectory is written exactly where it is not the label, subdirectories are
conda's, and an environment lists a platform once. -/
structure Written (lock : Lock) : Prop extends lock.Declared, lock.Framed where
  subdirs : ∀ platform ∈ lock.platforms, platform.declared ≠ some platform.label
  conda : ∀ platform ∈ lock.platforms, platform.subdir ≠ [] ∧ platform.subdir.head? ≠ some '-' ∧
    '#' ∉ platform.subdir
  keyed : ∀ environment ∈ lock.environments, (environment.packages.map (·.1)).Nodup

variable {lock other : Lock}

/-- The name the code gives to a platform. -/
def name (lock : Lock) (platform : Platform) : Line := renamed lock.names platform.label

/-- The platforms of a subdirectory, in the roster's order. -/
def sharing (lock : Lock) (subdir : Line) : List Platform := StableSort.atKey Platform.subdir lock.platforms subdir

/-- The platforms of a subdirectory, in the order of their ranks. -/
def ranked (lock : Lock) (subdir : Line) : List Platform := StableSort.sortOn Platform.body (lock.sharing subdir)

/-- The packages each environment lists under a label. -/
def column (lock : Lock) (label : Line) : List (Option (List Package)) :=
  lock.environments.map fun environment => OrderedMap.get environment.packages label

/-- What the lock says of a platform. -/
def content (lock : Lock) (platform : Platform) : Content :=
  (platform.declared, platform.vouched, lock.column platform.label)

/-- What the lock says of the platforms of a subdirectory and a body, in the roster's order. -/
def standing (lock : Lock) (subdir body : Line) : List Content :=
  (lock.platforms.filter fun platform => platform.subdir = subdir ∧ platform.body = body).map lock.content

/-- What the lock says of the platforms of a subdirectory, in the order of their ranks. -/
def contents (lock : Lock) (subdir : Line) : List Content := (lock.ranked subdir).map lock.content

/-- Each platform's name with what the lock says of it. -/
def named (lock : Lock) : List (Line × Content) :=
  lock.platforms.map fun platform => (lock.name platform, lock.content platform)

theorem mem_ranked {subdir : Line} {platform : Platform} :
    platform ∈ lock.ranked subdir ↔ platform ∈ lock.platforms ∧ platform.subdir = subdir :=
  (StableSort.mem_sortOn _).trans (StableSort.mem_atKey _)

/-- The platforms of a subdirectory and a body, in the roster's order. -/
def tied (lock : Lock) (subdir body : Line) : List Platform := StableSort.atKey Platform.body (lock.sharing subdir) body

theorem mem_tied {subdir body : Line} {platform : Platform} : platform ∈ lock.tied subdir body ↔
    platform ∈ lock.platforms ∧ platform.subdir = subdir ∧ platform.body = body := by
  rw [tied, StableSort.mem_atKey, sharing, StableSort.mem_atKey, and_assoc]

theorem standing_eq (lock : Lock) (subdir body : Line) :
    lock.standing subdir body = (lock.tied subdir body).map lock.content := by
  rw [standing, tied, sharing, StableSort.atKey, StableSort.atKey, List.filter_filter]
  refine congrArg (List.map lock.content) (List.filter_congr fun platform _ => ?_)
  rw [Bool.eq_iff_iff]
  simp only [Bool.and_eq_true, decide_eq_true_eq]
  exact and_comm

/-- A platform is named by its rank in its subdirectory. -/
theorem Declared.name_of_rank (h : lock.Declared) {subdir : Line} {rank : ℕ} {platform : Platform}
    (hrank : (lock.ranked subdir)[rank]? = some platform) :
    lock.name platform = nameOf subdir (lock.ranked subdir).length rank := by
  have hbodies : rankedBodies (lock.platforms.map fun platform => (platform.label, platform.subdir, platform.body))
      subdir = (lock.ranked subdir).map fun platform => (platform.label, platform.subdir, platform.body) := by
    have hshared := StableSort.atKey_map Platform.subdir
      (fun platform : Platform => (platform.label, platform.subdir, platform.body))
      (fun body : Line × Line × Line => body.2.1) lock.platforms (fun _ => rfl) subdir
    rw [rankedBodies, hshared]
    exact (StableSort.map_sortOn Platform.body _ (fun body : Line × Line × Line => body.2.2) _ fun _ _ => rfl).symm
  have hlabels : ((lock.platforms.map fun platform => (platform.label, platform.subdir, platform.body)).map
      (·.1)).Nodup := by
    rw [List.map_map]
    exact h.labels
  have hbody : (rankedBodies (lock.platforms.map fun platform => (platform.label, platform.subdir, platform.body))
      subdir)[rank]? = some (platform.label, platform.subdir, platform.body) := by
    rw [hbodies, List.getElem?_map, hrank]
    rfl
  have hget := get_assigned hlabels hbody
  rw [hbodies, List.length_map] at hget
  rw [name, renamed]
  refine (congrArg (Option.getD · platform.label) hget).trans ?_
  rfl

theorem exists_rank {platform : Platform} (h : platform ∈ lock.platforms) :
    ∃ rank : ℕ, (lock.ranked platform.subdir)[rank]? = some platform :=
  List.mem_iff_getElem?.mp (mem_ranked.mpr ⟨h, rfl⟩)

theorem Written.name_inj (h : lock.Written) {one another : Platform} (hone : one ∈ lock.platforms)
    (hanother : another ∈ lock.platforms) (hname : lock.name one = lock.name another) : one = another := by
  obtain ⟨rank, hrank⟩ := exists_rank hone
  obtain ⟨place, hplace⟩ := exists_rank hanother
  rw [h.name_of_rank hrank, h.name_of_rank hplace] at hname
  obtain ⟨hsubdir, -, hsame⟩ := nameOf_inj (h.conda one hone).2.2 (h.conda another hanother).2.2
    (List.getElem?_eq_some_iff.mp hrank).1 (List.getElem?_eq_some_iff.mp hplace).1 hname
  rw [hsubdir, hsame, hplace] at hrank
  exact (Option.some.inj hrank).symm

theorem Written.nodup_names (h : lock.Written) : (lock.named.map (·.1)).Nodup := by
  rw [named, List.map_map]
  exact List.Nodup.map_on (fun one hone another hanother => h.name_inj hone hanother) (List.Nodup.of_map _ h.labels)

/-- The platforms that stand in the canonical text are those of each subdirectory, named by their ranks. -/
theorem Written.mem_named (h : lock.Written) {entry : Line × Content} :
    entry ∈ lock.named ↔ ∃ (subdir : Line) (rank : ℕ), (lock.contents subdir)[rank]? = some entry.2 ∧
      entry.1 = nameOf subdir (lock.contents subdir).length rank := by
  constructor
  · intro hentry
    obtain ⟨platform, hplatform, rfl⟩ := List.mem_map.mp hentry
    obtain ⟨rank, hrank⟩ := exists_rank hplatform
    refine ⟨platform.subdir, rank, ?_, ?_⟩
    · rw [contents, List.getElem?_map, hrank]
      rfl
    · rw [contents, List.length_map]
      exact h.name_of_rank hrank
  · rintro ⟨subdir, rank, hcontent, hname⟩
    rw [contents, List.getElem?_map] at hcontent
    obtain ⟨platform, hrank, hsame⟩ := Option.map_eq_some_iff.mp hcontent
    refine List.mem_map.mpr ⟨platform, (mem_ranked.mp (List.mem_of_getElem? hrank)).1, Prod.ext ?_ hsame⟩
    rw [hname, contents, List.length_map]
    exact h.name_of_rank hrank

theorem Written.hash_free (h : lock.Written) {subdir : Line} {rank : ℕ} {content : Content}
    (hcontent : (lock.contents subdir)[rank]? = some content) : '#' ∉ subdir := by
  rw [contents, List.getElem?_map] at hcontent
  obtain ⟨platform, hrank, -⟩ := Option.map_eq_some_iff.mp hcontent
  obtain ⟨hplatform, rfl⟩ := mem_ranked.mp (List.mem_of_getElem? hrank)
  exact (h.conda platform hplatform).2.2

/-- Where the same platforms stand, every subdirectory has the same platforms in the same ranks. -/
theorem contents_eq_of_perm (h : lock.Written) (h' : other.Written) (hperm : lock.named.Perm other.named)
    (subdir : Line) : lock.contents subdir = other.contents subdir := by
  have hone : ∀ {lock other : Lock}, lock.Written → other.Written → lock.named.Perm other.named →
      ∀ (rank : ℕ) (content : Content),
      (lock.contents subdir)[rank]? = some content → (other.contents subdir)[rank]? = some content := by
    intro lock other h h' hperm rank content hcontent
    have hmem := hperm.subset (h.mem_named.mpr ⟨subdir, rank, hcontent, rfl⟩ :
      (nameOf subdir (lock.contents subdir).length rank, content) ∈ lock.named)
    obtain ⟨found, place, hfound, hname⟩ := h'.mem_named.mp hmem
    obtain ⟨rfl, -, rfl⟩ := nameOf_inj (h.hash_free hcontent) (h'.hash_free hfound)
      (List.getElem?_eq_some_iff.mp hcontent).1 (List.getElem?_eq_some_iff.mp hfound).1 hname
    exact hfound
  refine List.ext_getElem? fun rank => Option.ext fun content => ?_
  exact ⟨hone h h' hperm rank content, hone h' h hperm.symm rank content⟩

/-- Where every subdirectory has the same platforms in the same ranks, the same platforms stand. -/
theorem perm_of_contents_eq (h : lock.Written) (h' : other.Written)
    (hcontents : ∀ subdir, lock.contents subdir = other.contents subdir) : lock.named.Perm other.named := by
  refine (List.perm_ext_iff_of_nodup h.nodup_names.of_map h'.nodup_names.of_map).mpr fun entry => ?_
  rw [h.mem_named, h'.mem_named]
  simp only [hcontents]

/-- Every subdirectory has the same platforms in the same ranks exactly when every subdirectory and body has
the same platforms in the roster's order. -/
theorem contents_eq_iff : (∀ subdir, lock.contents subdir = other.contents subdir) ↔
    ∀ subdir body, lock.standing subdir body = other.standing subdir body := by
  have hsorted : ∀ lock : Lock, ∀ subdir, lock.contents subdir =
      StableSort.sortOn bodyOf ((lock.sharing subdir).map lock.content) := fun lock subdir =>
    StableSort.map_sortOn Platform.body lock.content bodyOf _ fun _ _ => rfl
  have hkey : ∀ lock : Lock, ∀ subdir body,
      StableSort.atKey bodyOf ((lock.sharing subdir).map lock.content) body = lock.standing subdir body := by
    intro lock subdir body
    rw [standing_eq, tied]
    exact StableSort.atKey_map Platform.body lock.content bodyOf (lock.sharing subdir) (fun _ => rfl) body
  refine forall_congr' fun subdir => ?_
  rw [hsorted, hsorted, StableSort.sortOn_eq_iff]
  exact forall_congr' fun body => by rw [hkey, hkey]

end Lock

end Mainboard.Pixi
