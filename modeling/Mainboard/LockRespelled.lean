import Mathlib.Data.List.Perm.Subperm
import Mainboard.LockSettling

/-! The canonical text read again. Its labels are the names, and a platform without a line for its
subdirectory is read as solving for its name: a platform labelled with a subdirectory it shares has left
that subdirectory's group, and the group is ranked without it, in the order of the spelled names. -/

namespace Mainboard.Pixi

/-- The elements ranked from a number on, in the order in which their ranks are spelled. -/
def bySpelling {α : Type} (first : ℕ) (items : List α) : List α :=
  (StableSort.sortOn (fun entry : α × ℕ => Nat.toDigits 10 entry.2) (items.zipIdx first)).map (·.1)

theorem map_bySpelling {α β : Type} (f : α → β) (first : ℕ) (items : List α) :
    (bySpelling first items).map f = bySpelling first (items.map f) := by
  have hsorted := StableSort.map_sortOn (fun entry : α × ℕ => Nat.toDigits 10 entry.2) (Prod.map f id)
    (fun entry : β × ℕ => Nat.toDigits 10 entry.2) (items.zipIdx first) (fun _ _ => rfl)
  rw [bySpelling, bySpelling, List.zipIdx_map, ← hsorted, List.map_map, List.map_map]
  rfl

theorem bySpelling_of_length_le_one {α : Type} (first : ℕ) {items : List α} (h : items.length ≤ 1) :
    bySpelling first items = items := by
  cases items with
  | nil => rfl
  | cons item items =>
      cases items with
      | nil => rfl
      | cons other items =>
          rw [List.length_cons, List.length_cons] at h
          omega

/-- Behind one opening, texts are in the order of what follows it. -/
theorem append_le_append_iff (lead one other : Line) : lead ++ one ≤ lead ++ other ↔ one ≤ other := by
  rw [← not_lt, ← not_lt, not_iff_not]
  induction lead with
  | nil => exact Iff.rfl
  | cons c lead ih =>
      rw [List.cons_append, List.cons_append, List.cons_lt_cons_iff, ih]
      exact ⟨fun h => h.elim (fun hlt => absurd hlt (lt_irrefl c)) And.right, fun h => Or.inr ⟨rfl, h⟩⟩

namespace Lock

variable {lock : Lock}

/-- The platforms of a subdirectory that have a line for it, in the roster's order. -/
def regular (lock : Lock) (subdir : Line) : List Platform :=
  lock.platforms.filter fun platform => platform.declared = some subdir

/-- How many platforms of a subdirectory have a smaller body. -/
def below (lock : Lock) (subdir body : Line) : ℕ :=
  (StableSort.below Platform.body (lock.sharing subdir) body).length

/-- The name a platform has when the canonical text is read again. -/
def nameAgain (lock : Lock) (platform : Platform) : Line := lock.settled.name (platform.named (lock.name platform))

/-- The roster in the order of the names. -/
def byName (lock : Lock) : List Platform := StableSort.sortOn lock.name lock.platforms

theorem platforms_settled (lock : Lock) :
    lock.settled.platforms = lock.byName.map fun platform => platform.named (lock.name platform) :=
  (StableSort.map_sortOn lock.name (fun platform => platform.named (lock.name platform))
    (fun platform : Platform => platform.label) lock.platforms fun _ _ => rfl).symm

/-- The platforms read to solve for a subdirectory, in the order of the names. -/
def readAs (lock : Lock) (subdir : Line) : List Platform :=
  StableSort.atKey (fun platform => platform.declared.getD (lock.name platform)) lock.byName subdir

theorem mem_byName {platform : Platform} : platform ∈ lock.byName ↔ platform ∈ lock.platforms :=
  StableSort.mem_sortOn _

theorem Named.settled_declared (h : lock.Named) : lock.settled.Declared where
  labels := by
    rw [platforms_settled, List.map_map]
    exact ((StableSort.sortOn_perm lock.name lock.platforms).map lock.name).nodup_iff.mpr h.nodup_names
  keys := by
    intro environment henvironment entry hentry
    obtain ⟨before, hbefore, rfl⟩ := List.mem_map.mp henvironment
    obtain ⟨old, hold, rfl⟩ := List.mem_map.mp ((StableSort.mem_sortOn _).mp hentry)
    obtain ⟨platform, hplatform, hlabel⟩ := List.mem_map.mp (h.keys before hbefore old hold)
    rw [platforms_settled, List.map_map]
    refine List.mem_map.mpr ⟨platform, mem_byName.mpr hplatform, ?_⟩
    exact congrArg (renamed lock.names) hlabel

/-- The ranks of a subdirectory in the canonical text. -/
theorem ranked_settled (lock : Lock) (subdir : Line) : lock.settled.ranked subdir =
    (StableSort.sortOn Platform.body (lock.readAs subdir)).map fun platform => platform.named (lock.name platform) := by
  have hshared := StableSort.atKey_map (fun platform : Platform => platform.declared.getD (lock.name platform))
    (fun platform => platform.named (lock.name platform)) Platform.subdir lock.byName (fun _ => rfl) subdir
  rw [ranked, sharing, platforms_settled, hshared]
  exact (StableSort.map_sortOn Platform.body (fun platform => platform.named (lock.name platform)) Platform.body
    (lock.readAs subdir) fun _ _ => rfl).symm

/-- A platform is named again by its rank in the subdirectory it is read to solve for. -/
theorem Named.nameAgain_of_rank (h : lock.Named) {subdir : Line} {rank : ℕ} {platform : Platform}
    (hrank : (StableSort.sortOn Platform.body (lock.readAs subdir))[rank]? = some platform) :
    lock.nameAgain platform = nameOf subdir (lock.readAs subdir).length rank := by
  have hsettled : (lock.settled.ranked subdir)[rank]? = some (platform.named (lock.name platform)) := by
    rw [ranked_settled, List.getElem?_map, hrank]
    rfl
  have hname := h.settled_declared.name_of_rank hsettled
  rw [ranked_settled, List.length_map, StableSort.length_sortOn] at hname
  exact hname

/-- A name is a subdirectory exactly where its platform solves for it alone. -/
theorem Written.name_eq_iff (h : lock.Written) {platform : Platform} (hplatform : platform ∈ lock.platforms)
    {subdir : Line} (hsubdir : '#' ∉ subdir) :
    lock.name platform = subdir ↔ platform.subdir = subdir ∧ (lock.sharing subdir).length = 1 := by
  obtain ⟨rank, hrank⟩ := exists_rank hplatform
  have hlength : (lock.ranked platform.subdir).length = (lock.sharing platform.subdir).length :=
    StableSort.length_sortOn _ _
  rw [h.name_of_rank hrank, hlength]
  unfold nameOf
  split
  · rename_i hone
    exact ⟨fun hsame => ⟨hsame, hsame ▸ hone⟩, fun hboth => hboth.1⟩
  · rename_i hmany
    constructor
    · intro hsame
      refine absurd ?_ hsubdir
      rw [← hsame]
      exact List.mem_append_right _ List.mem_cons_self
    · rintro ⟨rfl, hone⟩
      exact absurd hone hmany

theorem Written.label_iff (h : lock.Written) {platform : Platform} (hplatform : platform ∈ lock.platforms) :
    platform.label = platform.subdir ↔ platform.declared = none := by
  constructor
  · intro hlabel
    cases hdeclared : platform.declared with
    | none => rfl
    | some subdir =>
        refine absurd ?_ (h.subdirs platform hplatform)
        rw [hdeclared, hlabel, Platform.subdir, hdeclared]
        rfl
  · intro hdeclared
    rw [Platform.subdir, hdeclared]
    rfl

/-- No two platforms are labelled with one subdirectory. -/
theorem Written.plain_inj (h : lock.Written) {one another : Platform} (hone : one ∈ lock.platforms)
    (hanother : another ∈ lock.platforms) (hplain : one.declared = none) (hplain' : another.declared = none)
    (hsubdir : one.subdir = another.subdir) : one = another := by
  refine List.inj_on_of_nodup_map h.labels hone hanother ?_
  rw [(h.label_iff hone).mpr hplain, (h.label_iff hanother).mpr hplain', hsubdir]

/-- A platform without a line for its subdirectory keeps its name. -/
theorem Written.nameAgain_plain (h : lock.Written) {platform : Platform} (hplatform : platform ∈ lock.platforms)
    (hplain : platform.declared = none) : lock.nameAgain platform = lock.name platform := by
  have halone : ∀ other ∈ lock.byName, other.declared.getD (lock.name other) = lock.name platform → other = platform := by
    intro other hother hread
    have hin := mem_byName.mp hother
    cases hdeclared : other.declared with
    | none =>
        rw [hdeclared] at hread
        exact h.name_inj hin hplatform hread
    | some subdir =>
        -- the platform's name is a subdirectory, so nothing else solves for it
        rw [hdeclared] at hread
        have hsubdir : other.subdir = lock.name platform := by
          rw [Platform.subdir, hdeclared]
          exact hread
        have hfree := (h.conda other hin).2.2
        obtain ⟨hsame, hone⟩ := (h.name_eq_iff hplatform hfree).mp hsubdir.symm
        obtain ⟨only, honly⟩ := List.length_eq_one_iff.mp hone
        have hmem : ∀ one ∈ lock.platforms, one.subdir = other.subdir → one = only := fun one hone heq => by
          have hshare := (StableSort.mem_atKey Platform.subdir).mpr ⟨hone, heq⟩
          rw [sharing] at honly
          rw [honly] at hshare
          exact List.mem_singleton.mp hshare
        exact (hmem other hin rfl).trans (hmem platform hplatform hsame).symm
  have hnodup : lock.byName.Nodup :=
    (StableSort.sortOn_perm _ _).nodup_iff.mpr (List.Nodup.of_map _ h.labels)
  have hgroup : lock.readAs (lock.name platform) = [platform] := by
    have hmem : platform ∈ lock.readAs (lock.name platform) :=
      (StableSort.mem_atKey _).mpr ⟨mem_byName.mpr hplatform, by rw [hplain]; rfl⟩
    refine List.perm_singleton.mp ((List.perm_ext_iff_of_nodup (hnodup.filter _) (List.nodup_singleton _)).mpr
      fun other => ⟨fun hother => ?_, fun hother => ?_⟩)
    · obtain ⟨hin, hread⟩ := (StableSort.mem_atKey _).mp hother
      exact List.mem_singleton.mpr (halone other hin hread)
    · exact List.mem_singleton.mp hother ▸ hmem
  have hrank : (StableSort.sortOn Platform.body (lock.readAs (lock.name platform)))[0]? = some platform := by
    rw [hgroup]
    rfl
  have hname := h.toNamed.nameAgain_of_rank hrank
  rw [hgroup] at hname
  exact hname

/-- What stands when the canonical text is read again. -/
def namedAgain (lock : Lock) : List (Line × Content) :=
  lock.platforms.map fun platform => (lock.nameAgain platform, lock.content platform)

theorem Named.keyed_settled (h : lock.Named) : ∀ environment ∈ lock.settled.environments,
    (environment.packages.map (·.1)).Nodup := by
  intro environment henvironment
  obtain ⟨before, hbefore, rfl⟩ := List.mem_map.mp henvironment
  exact ((StableSort.sortOn_perm _ _).map _).nodup_iff.mpr (h.renamed_keyed hbefore)

theorem Named.named_settled_perm (h : lock.Named) : lock.settled.named.Perm lock.namedAgain := by
  rw [named, platforms_settled, List.map_map]
  refine ((StableSort.sortOn_perm lock.name lock.platforms).map _).trans (List.Perm.of_eq ?_)
  refine List.map_congr_left fun platform hplatform => ?_
  exact Prod.ext rfl (Prod.ext rfl (Prod.ext rfl (h.column_settled hplatform)))

theorem frame_settled (lock : Lock) : lock.settled.frame = lock.frame := by
  rw [frame, frame, settled, List.map_map]
  rfl

/-- The canonical lock is canonical exactly when the same platforms stand in it, read again. -/
theorem Named.settled_settled_iff (h : lock.Named) :
    lock.settled.settled = lock.settled ↔ lock.namedAgain.Perm lock.named := by
  have hnamed : ∀ names : List Line, names.Nodup → names.Perm (lock.settled.platforms.map lock.settled.name) →
      lock.settled.Named := fun names hnodup hnames =>
    { h.settled_declared with
      keyed := h.keyed_settled
      distinct := fun one hone another hanother => List.inj_on_of_nodup_map (hnames.nodup_iff.mp hnodup) hone hanother }
  constructor
  · intro hsame
    have hlabels : (lock.settled.platforms.map (·.label)).Perm (lock.settled.platforms.map lock.settled.name) := by
      have hsorted := (StableSort.sortOn_perm (fun platform : Platform => platform.label)
        (lock.settled.platforms.map fun platform => platform.named (lock.settled.name platform))).map (·.label)
      rw [List.map_map] at hsorted
      exact (List.Perm.of_eq (congrArg (fun lock : Lock => lock.platforms.map (·.label)) hsame.symm)).trans hsorted
    have hagain := hnamed _ h.settled_declared.labels hlabels
    exact h.named_settled_perm.symm.trans ((hagain.settled_eq_iff h (frame_settled lock)).mp hsame)
  · intro hperm
    have hnames : (lock.platforms.map lock.name).Perm (lock.settled.platforms.map lock.settled.name) := by
      have hkept := (h.named_settled_perm.trans hperm).map (·.1)
      rw [named, named, List.map_map, List.map_map] at hkept
      exact hkept.symm
    have hagain := hnamed _ h.nodup_names hnames
    exact hagain.settled_eq h (frame_settled lock) (h.named_settled_perm.trans hperm)

end Lock

end Mainboard.Pixi
