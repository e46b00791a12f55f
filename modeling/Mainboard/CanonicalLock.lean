import Mainboard.LockTwice

/-! The canonical lock as a normal form. What two locks of one canonical text install is the same, on the
same platforms. Reading the canonical text again and settling it changes nothing exactly where the lock
settles at once, and a relabelling or a reordering of the blocks changes nothing exactly where it leaves the
platforms of every subdirectory and body with the same packages in the same order: it may neither put a label
in the place of a subdirectory's line nor swap platforms that tie and install different packages. -/

namespace Mainboard.Pixi

namespace Platform

/-- The platform as pixi writes it under another label. -/
def relabelled (label : Line → Line) (platform : Platform) : Platform :=
  { platform with
    label := label platform.label
    declared := if label platform.label = platform.subdir then none else some platform.subdir }

end Platform

namespace Lock

/-- Another lock of the same platforms and packages: labelled otherwise, with the labelled blocks of the
roster and of every packages mapping in some order. -/
def Relabelled (lock other : Lock) : Prop := ∃ label : Line → Line,
  other.head = lock.head ∧ other.tail = lock.tail ∧
    other.platforms.Perm (lock.platforms.map (Platform.relabelled label)) ∧
    List.Forall₂ (fun before after : Environment => after.name = before.name ∧ after.settings = before.settings ∧
      after.packages.Perm (before.packages.map fun entry => (label entry.1, entry.2)))
      lock.environments other.environments

/-- The platforms of a lock: for each, its subdirectory and the virtual packages it vouches. -/
def vouches (lock : Lock) : List (Line × List Line) :=
  lock.platforms.map fun platform => (platform.subdir, platform.vouched)

/-- What a lock installs: for each environment and each platform it lists, the packages. -/
def installs (lock : Lock) : List (Line × Line × List Line × List Package) :=
  lock.environments.flatMap fun environment => environment.packages.flatMap fun entry =>
    (StableSort.atKey Platform.label lock.platforms entry.1).map fun platform =>
      (environment.name, platform.subdir, platform.vouched, entry.2)

/-- The locations the code reads for a subdirectory. -/
def locations (lock : Lock) (environment subdir : Line) : List Line :=
  (OrderedMap.get (packages lock.tree environment) subdir).getD []

variable {lock other : Lock}

theorem Relabelled.frame_eq (h : Relabelled lock other) : other.frame = lock.frame := by
  obtain ⟨label, hhead, htail, -, henvironments⟩ := h
  have hnames : (other.environments.map fun environment => (environment.name, environment.settings)) =
      lock.environments.map fun environment => (environment.name, environment.settings) := by
    generalize lock.environments = before, other.environments = after at henvironments
    induction henvironments with
    | nil => rfl
    | cons hone _ ih => rw [List.map_cons, List.map_cons, ih, hone.1, hone.2.1]
  rw [frame, frame, hhead, htail, hnames]

theorem head?_nameOf {subdir : Line} (h : subdir ≠ []) (sharing rank : ℕ) :
    (nameOf subdir sharing rank).head? = subdir.head? ∧ nameOf subdir sharing rank ≠ [] := by
  unfold nameOf
  cases subdir with
  | nil => exact absurd rfl h
  | cons first rest =>
      split
      · exact ⟨rfl, h⟩
      · exact ⟨rfl, List.cons_ne_nil _ _⟩

/-- Where every subdirectory begins as a key may, the settled lock can be read back. -/
theorem Declared.settled_readable (h : lock.Declared) (hframed : lock.Framed)
    (hsubdirs : ∀ platform ∈ lock.platforms, platform.subdir ≠ [] ∧ platform.subdir.head? ≠ some '-') :
    lock.settled.Readable where
  head := hframed.head
  names := by
    intro environment henvironment
    obtain ⟨before, hbefore, rfl⟩ := List.mem_map.mp henvironment
    exact hframed.names before hbefore
  settings := by
    intro environment henvironment
    obtain ⟨before, hbefore, rfl⟩ := List.mem_map.mp henvironment
    exact hframed.settings before hbefore
  kinds := by
    intro environment henvironment entry hentry
    obtain ⟨before, hbefore, rfl⟩ := List.mem_map.mp henvironment
    obtain ⟨old, hold, rfl⟩ := List.mem_map.mp ((StableSort.mem_sortOn _).mp hentry)
    exact hframed.kinds before hbefore old hold
  tail := hframed.tail
  keys := by
    intro environment henvironment entry hentry
    obtain ⟨before, hbefore, rfl⟩ := List.mem_map.mp henvironment
    obtain ⟨old, hold, rfl⟩ := List.mem_map.mp ((StableSort.mem_sortOn _).mp hentry)
    obtain ⟨platform, hplatform, hlabel⟩ := List.mem_map.mp (h.keys before hbefore old hold)
    obtain ⟨rank, hrank⟩ := exists_rank hplatform
    obtain ⟨hne, hdash⟩ := hsubdirs platform hplatform
    have hname := h.name_of_rank hrank
    rw [name, hlabel] at hname
    rw [hname, (head?_nameOf hne _ _).1]
    exact hdash

theorem Written.settled_readable (h : lock.Written) : lock.settled.Readable :=
  h.toDeclared.settled_readable h.toFramed fun platform hplatform =>
    ⟨(h.conda platform hplatform).1, (h.conda platform hplatform).2.1⟩

theorem Written.settled_settled_readable (h : lock.Written) : lock.settled.settled.Readable := by
  refine h.toNamed.settled_declared.settled_readable h.settled_readable.toFramed fun platform hplatform => ?_
  rw [platforms_settled] at hplatform
  obtain ⟨before, hbefore, rfl⟩ := List.mem_map.mp hplatform
  have hin := mem_byName.mp hbefore
  obtain ⟨hne, hdash, -⟩ := h.conda before hin
  cases hdeclared : before.declared with
  | some subdir =>
      have hsubdir : (before.named (lock.name before)).subdir = before.subdir := by
        rw [Platform.subdir, Platform.named, Platform.subdir, hdeclared]
        rfl
      rw [hsubdir]
      exact ⟨hne, hdash⟩
  | none =>
      obtain ⟨rank, hrank⟩ := exists_rank hin
      have hsubdir : (before.named (lock.name before)).subdir = lock.name before := by
        rw [Platform.subdir, Platform.named, hdeclared]
        rfl
      rw [hsubdir, h.name_of_rank hrank, (head?_nameOf hne _ _).1]
      exact ⟨(head?_nameOf hne _ _).2, hdash⟩

/-- Two locks have one canonical text exactly when they settle alike. -/
theorem Written.canonical_eq_iff (h : lock.Written) (h' : other.Written) :
    canonical other.lines other.tree = canonical lock.lines lock.tree ↔ other.settled = lock.settled := by
  rw [canonical_lines h.toDeclared, canonical_lines h'.toDeclared]
  exact ⟨h'.settled_readable.lines_inj h.settled_readable, fun hsame => by rw [hsame]⟩

/-- The platform of a label, among platforms of distinct labels. -/
theorem atKey_label {platforms : List Platform} (hlabels : (platforms.map (·.label)).Nodup) {platform : Platform}
    (h : platform ∈ platforms) : StableSort.atKey Platform.label platforms platform.label = [platform] := by
  refine List.perm_singleton.mp ((List.perm_ext_iff_of_nodup ((List.Nodup.of_map _ hlabels).filter _)
    (List.nodup_singleton _)).mpr fun found => ⟨fun hfound => ?_, fun hfound => ?_⟩)
  · obtain ⟨hin, hsame⟩ := (StableSort.mem_atKey _).mp hfound
    exact List.mem_singleton.mpr (List.inj_on_of_nodup_map hlabels hin h hsame)
  · exact (StableSort.mem_atKey _).mpr ⟨List.mem_singleton.mp hfound ▸ h, by rw [List.mem_singleton.mp hfound]⟩

/-- A name's subdirectory: what stands before its first `#`. -/
def subdirOf (name : Line) : Line := name.takeWhile fun c => c ≠ '#'

theorem subdirOf_nameOf {subdir : Line} (h : '#' ∉ subdir) (sharing rank : ℕ) :
    subdirOf (nameOf subdir sharing rank) = subdir := by
  have hplain : ∀ c ∈ subdir, decide (c ≠ '#') = true := fun c hc => decide_eq_true fun hsame => h (hsame ▸ hc)
  unfold subdirOf nameOf
  split
  · exact List.takeWhile_eq_self_iff.mpr hplain
  · rw [List.takeWhile_append_of_pos hplain, List.takeWhile_cons_of_neg (by simp), List.append_nil]

theorem Written.subdirOf_name (h : lock.Written) {platform : Platform} (hplatform : platform ∈ lock.platforms) :
    subdirOf (lock.name platform) = platform.subdir := by
  obtain ⟨rank, hrank⟩ := exists_rank hplatform
  rw [h.name_of_rank hrank]
  exact subdirOf_nameOf (h.conda platform hplatform).2.2 _ _

/-- What a settled lock says is installed. -/
def readInstalls (settled : Lock) : List (Line × Line × List Line × List Package) :=
  settled.environments.flatMap fun environment => environment.packages.flatMap fun entry =>
    (StableSort.atKey Platform.label settled.platforms entry.1).map fun platform =>
      (environment.name, subdirOf platform.label, platform.vouched, entry.2)

/-- What a lock installs is read from the settled lock. -/
theorem Written.installs_perm (h : lock.Written) : lock.installs.Perm lock.settled.readInstalls := by
  have hlabels := h.toNamed.settled_declared.labels
  have hentry : ∀ environment ∈ lock.environments, ∀ entry ∈ environment.packages,
      (StableSort.atKey Platform.label lock.platforms entry.1).map (fun platform =>
        (environment.name, platform.subdir, platform.vouched, entry.2)) =
      (StableSort.atKey Platform.label lock.settled.platforms (renamed lock.names entry.1)).map fun platform =>
        (environment.name, subdirOf platform.label, platform.vouched, entry.2) := by
    intro environment henvironment entry hentry
    obtain ⟨platform, hplatform, hlabel⟩ := List.mem_map.mp (h.keys environment henvironment entry hentry)
    have hnamed : platform.named (lock.name platform) ∈ lock.settled.platforms := by
      rw [platforms_settled]
      exact List.mem_map_of_mem (mem_byName.mpr hplatform)
    have hsettled := atKey_label hlabels hnamed
    have hname : (platform.named (lock.name platform)).label = renamed lock.names entry.1 := by
      rw [← hlabel]
      rfl
    rw [hname] at hsettled
    rw [hsettled, ← hlabel, atKey_label h.labels hplatform, List.map_singleton, List.map_singleton]
    exact congrArg (fun subdir => [(environment.name, subdir, platform.vouched, entry.2)])
      (h.subdirOf_name hplatform).symm
  rw [installs, readInstalls, settled, List.flatMap_map]
  refine List.Perm.flatMap_left _ fun environment henvironment => ?_
  have hsorted := (StableSort.sortOn_perm (fun entry : Line × List Package => entry.1)
    (environment.packages.map fun entry => (renamed lock.names entry.1, entry.2))).symm
  refine List.Perm.trans (List.Perm.of_eq ?_) (hsorted.flatMap_right _)
  rw [List.flatMap_map, List.flatMap_def, List.flatMap_def]
  exact congrArg List.flatten (List.map_congr_left fun entry hin => hentry environment henvironment entry hin)

theorem Written.vouches_perm (h : lock.Written) :
    lock.vouches.Perm (lock.settled.platforms.map fun platform => (subdirOf platform.label, platform.vouched)) := by
  rw [platforms_settled, List.map_map]
  refine List.Perm.trans ?_ ((StableSort.sortOn_perm lock.name lock.platforms).map _).symm
  refine List.Perm.of_eq (List.map_congr_left fun platform hplatform => ?_)
  exact Prod.ext (h.subdirOf_name hplatform).symm rfl

/-- Reading entry by entry, the code lists under a subdirectory the locations of the entries it maps there. -/
theorem get_foldl_locations (subdirAt : Line → Line) (subdir : Line)
    (entries : List (Scalar × List (List (Line × Line)))) (found : List (Line × List Line)) :
    (OrderedMap.get (entries.foldl (fun found entry => OrderedMap.put found (subdirAt entry.1.value)
        ((OrderedMap.get found (subdirAt entry.1.value)).getD [] ++ entry.2.flatMap fun fields => fields.map (·.2)))
      found) subdir).getD [] = (OrderedMap.get found subdir).getD [] ++
        entries.flatMap fun entry => if subdirAt entry.1.value = subdir then
          entry.2.flatMap fun fields => fields.map (·.2) else [] := by
  induction entries generalizing found with
  | nil => exact (List.append_nil _).symm
  | cons entry entries ih =>
      rw [List.foldl_cons, ih, OrderedMap.get_put, List.flatMap_cons]
      by_cases hsame : subdirAt entry.1.value = subdir
      · rw [if_pos hsame, if_pos hsame, Option.getD_some, hsame, List.append_assoc]
      · rw [if_neg hsame, if_neg hsame, List.nil_append]

/-- The subdirectory the code reads for a label. -/
def subdirAt (lock : Lock) (label : Line) : Line :=
  (OrderedMap.get (OrderedMap.ofPairs (lock.platforms.map fun platform => (platform.label, platform.subdir)))
    label).getD label

theorem Declared.subdirAt_label (h : lock.Declared) {platform : Platform} (hplatform : platform ∈ lock.platforms) :
    lock.subdirAt platform.label = platform.subdir := by
  have hkeys : ((lock.platforms.map fun platform => (platform.label, platform.subdir)).map (·.1)).Nodup := by
    rw [List.map_map]
    exact h.labels
  have hpairs : OrderedMap.ofPairs (lock.platforms.map fun platform => (platform.label, platform.subdir)) =
      lock.platforms.map fun platform => (platform.label, platform.subdir) := OrderedMap.putAll_of_nodup hkeys
  have hmem : (platform.label, platform.subdir) ∈ lock.platforms.map fun platform =>
      (platform.label, platform.subdir) := List.mem_map_of_mem hplatform
  rw [subdirAt, hpairs, OrderedMap.get_of_mem hkeys hmem]
  rfl

/-- The locations an environment lists under labels of a subdirectory. -/
def locationsOf (subdirAt : Line → Line) (subdir : Line) (environment : Environment) : List Line :=
  environment.packages.flatMap fun entry => if subdirAt entry.1 = subdir then entry.2.map (·.location) else []

theorem flatMap_keys_mapping (subdirAt : Line → Line) (subdir : Line) (environment : Environment) (first : ℕ) :
    ((environment.mapping first).keys.flatMap fun entry => if subdirAt entry.1.value = subdir then
      entry.2.flatMap fun fields => fields.map (·.2) else []) = locationsOf subdirAt subdir environment := by
  rw [Environment.mapping, locationsOf, Environment.blocks]
  generalize first + environment.header.length = line
  induction environment.packages generalizing line with
  | nil => rfl
  | cons entry packages ih =>
      have hrest := ih (line + (installed entry).lines.length)
      simp only [List.flatMap_map] at hrest ⊢
      rw [List.map_cons, scalars, List.zip_cons_cons, List.flatMap_cons, List.flatMap_cons, hrest]
      have hfields : (entry.2.flatMap fun package => package.fields.map (·.2)) = entry.2.map (·.location) := by
        rw [List.map_eq_flatMap]
        rfl
      rw [hfields]
      rfl

theorem flatMap_mappingsFrom (subdirAt : Line → Line) (environment subdir : Line) (environments : List Environment)
    (first : ℕ) :
    ((((mappingsFrom first environments).filter fun named => environment = [] ∨ environment = named.1).flatMap fun named =>
      (named.2.map (·.keys)).getD []).flatMap fun entry => if subdirAt entry.1.value = subdir then
        entry.2.flatMap fun fields => fields.map (·.2) else []) =
      environments.flatMap fun named => if environment = [] ∨ environment = named.name then
        locationsOf subdirAt subdir named else [] := by
  induction environments generalizing first with
  | nil => rfl
  | cons named environments ih =>
      rw [mappingsFrom, List.filter_cons, List.flatMap_cons, ← ih (first + named.lines.length)]
      by_cases hwanted : environment = [] ∨ environment = named.name
      · rw [if_pos (decide_eq_true hwanted), if_pos hwanted, List.flatMap_cons, List.flatMap_append]
        exact congrArg (· ++ _) (flatMap_keys_mapping subdirAt subdir named first)
      · rw [if_neg (fun h => hwanted (of_decide_eq_true h)), if_neg hwanted, List.nil_append]

/-- The code's reading of the locations is the locations of what the lock installs there. -/
theorem Written.locations_eq (h : lock.Written) (environment subdir : Line) :
    lock.locations environment subdir =
      (lock.installs.filter fun installed => (environment = [] ∨ environment = installed.1) ∧ installed.2.1 = subdir).flatMap
        fun installed => installed.2.2.2.map (·.location) := by
  have hread : lock.locations environment subdir = lock.environments.flatMap fun named =>
      if environment = [] ∨ environment = named.name then locationsOf lock.subdirAt subdir named else [] := by
    rw [locations, packages]
    dsimp only
    rw [(map_platforms_tree lock).2]
    refine (get_foldl_locations lock.subdirAt subdir _ []).trans ?_
    exact flatMap_mappingsFrom _ environment subdir lock.environments _
  rw [hread, installs, List.filter_flatMap, List.flatMap_assoc, List.flatMap_def, List.flatMap_def]
  refine congrArg List.flatten (List.map_congr_left fun named hnamed => ?_)
  have hentry : ∀ entry ∈ named.packages, (((StableSort.atKey Platform.label lock.platforms entry.1).map fun platform =>
      (named.name, platform.subdir, platform.vouched, entry.2)).filter fun installed =>
        (environment = [] ∨ environment = installed.1) ∧ installed.2.1 = subdir).flatMap
          (fun installed => installed.2.2.2.map (·.location)) =
      if environment = [] ∨ environment = named.name then
        (if lock.subdirAt entry.1 = subdir then entry.2.map (·.location) else []) else [] := by
    intro entry hin
    obtain ⟨platform, hplatform, hlabel⟩ := List.mem_map.mp (h.keys named hnamed entry hin)
    rw [← hlabel, atKey_label h.labels hplatform, h.subdirAt_label hplatform, List.map_singleton, List.filter_cons]
    by_cases hwanted : environment = [] ∨ environment = named.name
    · by_cases hsame : platform.subdir = subdir
      · rw [if_pos hwanted, if_pos hsame, if_pos (decide_eq_true ⟨hwanted, hsame⟩)]
        exact List.append_nil _
      · rw [if_pos hwanted, if_neg hsame, if_neg fun hboth => hsame (of_decide_eq_true hboth).2]
        rfl
    · rw [if_neg hwanted, if_neg fun hboth => hwanted (of_decide_eq_true hboth).1]
      rfl
  rw [List.filter_flatMap, List.flatMap_assoc, List.flatMap_def]
  refine Eq.trans ?_ (congrArg List.flatten (List.map_congr_left hentry)).symm
  by_cases hwanted : environment = [] ∨ environment = named.name
  · simp only [if_pos hwanted]
    rfl
  · simp only [if_neg hwanted]
    rw [← List.flatMap_def]
    exact (List.flatMap_eq_nil_iff.mpr fun _ _ => rfl).symm

/-- One canonical text, one content: the same platforms, and the same packages on each. -/
theorem Written.same_of_canonical (h : lock.Written) (h' : other.Written)
    (hsame : canonical other.lines other.tree = canonical lock.lines lock.tree) :
    other.vouches.Perm lock.vouches ∧ other.installs.Perm lock.installs ∧
      ∀ environment subdir, (other.locations environment subdir).Perm (lock.locations environment subdir) := by
  have hsettled := (h.canonical_eq_iff h').mp hsame
  have hinstalls : other.installs.Perm lock.installs := by
    refine h'.installs_perm.trans ?_
    rw [hsettled]
    exact h.installs_perm.symm
  refine ⟨?_, hinstalls, fun environment subdir => ?_⟩
  · refine h'.vouches_perm.trans ?_
    rw [hsettled]
    exact h.vouches_perm.symm
  · rw [h.locations_eq, h'.locations_eq]
    exact (hinstalls.filter _).flatMap_right _

/-- The canonical text of the canonical text is itself exactly where the lock settles at once. -/
theorem Written.canonical_again_iff (h : lock.Written) {again : Lock} (hagain : again.Readable)
    (hlines : again.lines = canonical lock.lines lock.tree) :
    canonical again.lines again.tree = canonical lock.lines lock.tree ↔ lock.SettlesAtOnce := by
  rw [canonical_lines h.toDeclared] at hlines ⊢
  obtain rfl := hagain.lines_inj h.settled_readable hlines
  rw [canonical_lines h.toNamed.settled_declared, ← h.namedAgain_iff, ← h.toNamed.settled_settled_iff]
  exact ⟨h.settled_settled_readable.lines_inj h.settled_readable, fun hsame => by rw [hsame]⟩

/-- A lock relabelled and reordered has the canonical text exactly where every subdirectory and body keeps its
platforms, with their packages, in their order. -/
theorem Written.canonical_relabelled_iff (h : lock.Written) (h' : other.Written) (hlabel : Relabelled lock other) :
    canonical other.lines other.tree = canonical lock.lines lock.tree ↔
      ∀ subdir body, other.standing subdir body = lock.standing subdir body := by
  rw [h.canonical_eq_iff h', h'.toNamed.settled_eq_iff h.toNamed hlabel.frame_eq, ← contents_eq_iff]
  exact ⟨contents_eq_of_perm h' h, perm_of_contents_eq h' h⟩

end Lock

/-- The canonical lock is a normal form exactly so far: read again it settles to itself where the lock settles
at once, relabelled and reordered it settles to itself where every subdirectory and body keeps its platforms in
their order, and one canonical text means one content. -/
theorem canonical_normal {lock : Lock} (h : lock.Written) :
    (∃ again : Lock, again.Readable ∧ again.lines = canonical lock.lines lock.tree) ∧
    (∀ again : Lock, again.Readable → again.lines = canonical lock.lines lock.tree →
      (canonical again.lines again.tree = canonical lock.lines lock.tree ↔ lock.SettlesAtOnce)) ∧
    (∀ other : Lock, other.Written → lock.Relabelled other →
      (canonical other.lines other.tree = canonical lock.lines lock.tree ↔
        ∀ subdir body, other.standing subdir body = lock.standing subdir body)) ∧
    (∀ other : Lock, other.Written → canonical other.lines other.tree = canonical lock.lines lock.tree →
      other.vouches.Perm lock.vouches ∧ other.installs.Perm lock.installs ∧
        ∀ environment subdir, (other.locations environment subdir).Perm (lock.locations environment subdir)) :=
  ⟨⟨lock.settled, h.settled_readable, (canonical_lines h.toDeclared).symm⟩,
    fun _ hagain hlines => h.canonical_again_iff hagain hlines,
    fun _ h' hlabel => h.canonical_relabelled_iff h' hlabel,
    fun _ h' hsame => h.same_of_canonical h' hsame⟩

/-- A lock of one platform, for one subdirectory, with one package. -/
def oneLock (label : Line) : Lock :=
  { head := ["version: 7".toList]
    platforms := [⟨label, if label = "linux-64".toList then none else some "linux-64".toList, []⟩]
    environments := [⟨"default".toList, [], [(label, [⟨"conda".toList, "a.conda".toList⟩])]⟩]
    tail := [] }

theorem oneLock_written (label : Line) : (oneLock label).Written := by
  have hsubdir : ((if label = "linux-64".toList then none else some "linux-64".toList : Option Line).getD label) =
      "linux-64".toList := by
    split
    · rename_i hsame
      exact hsame
    · rfl
  exact
    { labels := List.nodup_singleton _
      keys := fun environment henvironment entry hentry => by
        obtain rfl := List.mem_singleton.mp henvironment
        obtain rfl := List.mem_singleton.mp hentry
        exact List.mem_singleton_self _
      head := fun line hline => by
        obtain rfl := List.mem_singleton.mp hline
        decide +kernel
      names := fun environment henvironment => by
        have hfirst : 'd' ∈ "default".toList.head? := by decide +kernel
        obtain rfl := List.mem_singleton.mp henvironment
        exact ⟨'d', hfirst, by decide⟩
      settings := fun environment henvironment line hline => by
        obtain rfl := List.mem_singleton.mp henvironment
        cases hline
      kinds := fun environment henvironment entry hentry package hpackage => by
        obtain rfl := List.mem_singleton.mp henvironment
        obtain rfl := List.mem_singleton.mp hentry
        obtain rfl := List.mem_singleton.mp hpackage
        decide +kernel
      tail := fun line hline => by cases hline
      subdirs := fun platform hplatform => by
        obtain rfl := List.mem_singleton.mp hplatform
        intro hsome
        dsimp only at hsome
        split at hsome
        · cases hsome
        · rename_i hother
          exact hother (Option.some.inj hsome).symm
      conda := fun platform hplatform => by
        obtain rfl := List.mem_singleton.mp hplatform
        rw [Platform.subdir, hsubdir]
        decide +kernel
      keyed := fun environment henvironment => by
        obtain rfl := List.mem_singleton.mp henvironment
        exact List.nodup_singleton _ }

theorem oneLock_relabelled (label name : Line) : (oneLock label).Relabelled (oneLock name) := by
  have hsubdir : ((if label = "linux-64".toList then none else some "linux-64".toList : Option Line).getD label) =
      "linux-64".toList := by
    split
    · rename_i hsame
      exact hsame
    · rfl
  refine ⟨fun _ => name, rfl, rfl, List.Perm.of_eq ?_, List.Forall₂.cons ⟨rfl, rfl, List.Perm.refl _⟩ List.Forall₂.nil⟩
  rw [oneLock, oneLock, List.map_singleton, Platform.relabelled, Platform.subdir, hsubdir]

/-- A lock of two platforms for one subdirectory, each with its own package. -/
def pairLock (first second : Line) : Lock :=
  { head := ["version: 7".toList]
    platforms := [⟨first, some "linux-64".toList, []⟩, ⟨second, some "linux-64".toList, []⟩]
    environments := [⟨"default".toList, [], [(first, [⟨"conda".toList, "a.conda".toList⟩]),
      (second, [⟨"conda".toList, "b.conda".toList⟩])]⟩]
    tail := [] }

theorem pairLock_written {first second : Line} (hne : first ≠ second) (hfirst : first ≠ "linux-64".toList)
    (hsecond : second ≠ "linux-64".toList) : (pairLock first second).Written where
  labels := by
    rw [pairLock, List.map_cons, List.map_singleton]
    simpa using hne
  keys environment henvironment entry hentry := by
    obtain rfl := List.mem_singleton.mp henvironment
    rcases List.mem_cons.mp hentry with rfl | hentry
    · exact List.mem_cons_self
    · obtain rfl := List.mem_singleton.mp hentry
      exact List.mem_cons_of_mem _ (List.mem_singleton_self _)
  head line hline := by
    obtain rfl := List.mem_singleton.mp hline
    decide +kernel
  names environment henvironment := by
    have hname : 'd' ∈ "default".toList.head? := by decide +kernel
    obtain rfl := List.mem_singleton.mp henvironment
    exact ⟨'d', hname, by decide⟩
  settings environment henvironment line hline := by
    obtain rfl := List.mem_singleton.mp henvironment
    cases hline
  kinds environment henvironment entry hentry package hpackage := by
    obtain rfl := List.mem_singleton.mp henvironment
    rcases List.mem_cons.mp hentry with rfl | hentry
    · obtain rfl := List.mem_singleton.mp hpackage
      decide +kernel
    · obtain rfl := List.mem_singleton.mp hentry
      obtain rfl := List.mem_singleton.mp hpackage
      decide +kernel
  tail line hline := by cases hline
  subdirs platform hplatform := by
    intro hsome
    rcases List.mem_cons.mp hplatform with rfl | hplatform
    · exact hfirst (Option.some.inj hsome).symm
    · obtain rfl := List.mem_singleton.mp hplatform
      exact hsecond (Option.some.inj hsome).symm
  conda platform hplatform := by
    have hsubdir : platform.subdir = "linux-64".toList := by
      rcases List.mem_cons.mp hplatform with rfl | hplatform
      · rfl
      · obtain rfl := List.mem_singleton.mp hplatform
        rfl
    rw [hsubdir]
    decide +kernel
  keyed environment henvironment := by
    obtain rfl := List.mem_singleton.mp henvironment
    simpa using hne

/-- Labelled with other names, the two platforms have the same packages. -/
theorem canonical_normal_pair : (pairLock "p1".toList "p2".toList).vouches.Perm (pairLock "q1".toList "q2".toList).vouches ∧
    (pairLock "p1".toList "p2".toList).installs.Perm (pairLock "q1".toList "q2".toList).installs ∧ ∀ environment subdir,
      ((pairLock "p1".toList "p2".toList).locations environment subdir).Perm
        ((pairLock "q1".toList "q2".toList).locations environment subdir) :=
  (canonical_normal (pairLock_written (by decide) (by decide) (by decide) : (pairLock "q1".toList "q2".toList).Written)).2.2.2
    _ (pairLock_written (by decide) (by decide) (by decide)) (by decide +kernel)

/-- A lock of two platforms for one subdirectory, one of them labelled with it. -/
def sharedLock : Lock :=
  { head := ["version: 7".toList]
    platforms := [⟨"linux-64".toList, none, []⟩, ⟨"p1".toList, some "linux-64".toList, []⟩]
    environments := []
    tail := [] }

/-- A platform labelled with its subdirectory has another text than under any other label, and where it shares
the subdirectory the canonical text is not canonical. -/
theorem canonical_normal_fails :
    ((oneLock "linux-64".toList).Written ∧ (oneLock "p1".toList).Written ∧
      (oneLock "p1".toList).Relabelled (oneLock "linux-64".toList) ∧
      canonical (oneLock "linux-64".toList).lines (oneLock "linux-64".toList).tree ≠
        canonical (oneLock "p1".toList).lines (oneLock "p1".toList).tree) ∧
    (sharedLock.settled.lines = canonical sharedLock.lines sharedLock.tree ∧
      canonical sharedLock.settled.lines sharedLock.settled.tree ≠ canonical sharedLock.lines sharedLock.tree) :=
  ⟨⟨oneLock_written _, oneLock_written _, oneLock_relabelled _ _, by decide +kernel⟩, by decide +kernel, by decide +kernel⟩

end Mainboard.Pixi
