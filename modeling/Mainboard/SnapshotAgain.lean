import Mainboard.SnapshotLinks

/-! Pinning again. Linking a tree back to the mirror leaves the files it was verified with, and a link put once
stands; so a second pin finds what the first one left and changes nothing, unless a need lies beneath the results
path, whose link replaces the folder the need was linked in, or a job's results reach the bytes of a listed file or
the tree itself. -/

namespace Mainboard.Snapshots

variable {hash : Text → Text} {target later : Target} {spec : Spec} {mirror after : Mirror} {tree next : Tree}
  {path other : Path} {held : Leaf}

/-! Linking -/

theorem exist_of_below (hleaf : tree.entry path = some (.file held)) (hheld : held ≠ .link) (hlead : other <+: path) :
    exist mirror tree other = true := by
  have hentry : tree.entry path ≠ none := by
    rw [hleaf]
    exact Option.some_ne_none _
  have hother : tree.entry other ≠ none := tree.entry_of_prefix hlead hentry
  have hlink : tree.entry other ≠ some (.file .link) := fun hlink => by
    have hsame := eq_of_leaf hlink hlead hentry
    rw [hsame, hleaf] at hlink
    cases hlink
    exact hheld rfl
  unfold exist
  rw [if_neg (Bool.eq_false_iff.mp (not_linked_of_entry hother hlink))]
  exact Option.isSome_iff_ne_none.mpr hother

theorem staged_eq (h : staged mirror spec tree = .ok next) :
    (next = tree ∧ (spec.pins = [] ∨ exist mirror tree spec.staging = true)) ∨
      (exist mirror tree spec.staging = false ∧ Put tree next spec.staging) := by
  unfold staged at h
  split at h
  · rename_i hmissing
    exact Or.inr ⟨hmissing.2, relink_put h⟩
  · rename_i hfound
    refine Or.inl ⟨(Except.ok.inj h).symm, ?_⟩
    rcases not_and_or.mp hfound with hnone | hexist
    · exact Or.inl (not_not.mp hnone)
    · exact Or.inr (Bool.not_eq_false _ ▸ hexist)

theorem needed_eq (h : needed mirror spec tree = .ok next) :
    (∀ path ∈ spec.pins ++ spec.needs, mirror.exist path = true) ∧
      ∃ made, staged mirror spec tree = .ok made ∧ spec.needs.foldlM need made = .ok next := by
  unfold needed at h
  split at h
  · cases h
  · rename_i hnone
    refine ⟨fun path hpath => ?_, ?_⟩
    · have hfound := List.find?_eq_none.mp hnone path hpath
      rwa [Bool.not_eq_true, Bool.not_eq_false'] at hfound
    · cases hstaged : staged mirror spec tree with
      | error fault =>
          rw [hstaged] at h
          cases h
      | ok made =>
          rw [hstaged] at h
          exact ⟨made, rfl, h⟩

theorem needed_leaf (h : needed mirror spec tree = .ok next) (hleaf : tree.entry path = some (.file held))
    (hheld : held ≠ .link) (hpath : path ∉ spec.needs) : next.entry path = some (.file held) := by
  obtain ⟨-, made, hstaged, hneeds⟩ := needed_eq h
  have hmade : made.entry path = some (.file held) := by
    rcases staged_eq hstaged with ⟨rfl, -⟩ | ⟨hmissing, hput⟩
    · exact hleaf
    · refine hput.keeps_leaf hleaf fun hsame => ?_
      rw [exist_of_below hleaf hheld (hsame ▸ List.prefix_rfl)] at hmissing
      exact Bool.noConfusion hmissing
  refine ListReading.foldlM_keeps (fun tree => tree.entry path = some (.file held)) ?_ hmade hneeds
  exact fun one hone tree next hkept hstep => (need_put hstep).keeps_leaf hkept fun hsame => hpath (hsame ▸ hone)

/-- Every need is linked. -/
theorem needed_links (h : needed mirror spec tree = .ok next) : ∀ path ∈ spec.needs, next.entry path = some (.file .link) := by
  obtain ⟨-, made, -, hneeds⟩ := needed_eq h
  exact ListReading.foldlM_each (fun path tree => tree.entry path = some (.file .link))
    (fun _ _ _ _ hstep => (need_put hstep).link) (fun _ _ _ _ _ hlink hstep => (need_put hstep).keeps_link hlink) hneeds

/-- The staged pins are reached. -/
theorem needed_staging (h : needed mirror spec tree = .ok next) (hpins : spec.pins ≠ []) :
    linked next spec.staging = true ∨ next.entry spec.staging ≠ none := by
  obtain ⟨-, made, hstaged, hneeds⟩ := needed_eq h
  refine ListReading.foldlM_keeps (fun tree => linked tree spec.staging = true ∨ tree.entry spec.staging ≠ none)
    (fun _ _ _ _ hfound hstep => (need_put hstep).found hfound) ?_ hneeds
  rcases staged_eq hstaged with ⟨rfl, hnone | hexist⟩ | ⟨-, hput⟩
  · exact absurd hnone hpins
  · unfold exist at hexist
    split at hexist
    · rename_i hlinked
      exact Or.inl hlinked
    · exact Or.inr (Option.isSome_iff_ne_none.mp hexist)
  · refine Or.inr ?_
    rw [hput.link]
    exact Option.some_ne_none _

theorem pointed_eq (h : pointed mirror spec tree = .ok (after, next)) :
    (spec.results = none ∧ after = mirror ∧ next = tree) ∨
      ∃ path, spec.results = some path ∧ (∀ folder, folder <+: path → mirror.file folder = none) ∧
        after = mirror.withFolders path ∧ results path tree = .ok next := by
  unfold pointed at h
  split at h
  · rename_i hnone
    cases h
    exact Or.inl ⟨hnone, rfl, rfl⟩
  · rename_i path hsome
    refine Or.inr ⟨path, hsome, ?_⟩
    split at h
    · cases h
    · rename_i hfree
      refine ⟨fun folder hlead => ?_, ?_⟩
      · rw [Bool.not_eq_true, List.any_eq_false] at hfree
        exact Option.not_isSome_iff_eq_none.mp (hfree folder ((List.mem_inits _ _).mpr hlead))
      · cases hmade : results path tree with
        | error fault =>
            rw [hmade] at h
            cases h
        | ok made =>
            rw [hmade] at h
            cases h
            exact ⟨rfl, rfl⟩

theorem lived_eq {pin reached : Pin} (h : lived hash target spec pin = .ok (after, reached)) :
    ∃ made, needed target.mirror spec pin.tree = .ok made ∧ pointed target.mirror spec made = .ok (after, reached.tree) ∧
      wrapper hash target spec pin.wrappers = .ok reached.wrappers ∧ reached.closure = pin.closure := by
  unfold lived at h
  cases hneeded : needed target.mirror spec pin.tree with
  | error fault =>
      rw [hneeded] at h
      cases h
  | ok made =>
      rw [hneeded] at h
      dsimp only [Except.bind] at h
      cases hpointed : pointed target.mirror spec made with
      | error fault =>
          rw [hpointed] at h
          cases h
      | ok pair =>
          rw [hpointed] at h
          dsimp only at h
          cases hwrapper : wrapper hash target spec pin.wrappers with
          | error fault =>
              rw [hwrapper] at h
              cases h
          | ok wrappers =>
              rw [hwrapper] at h
              cases h
              exact ⟨made, rfl, hpointed, rfl, rfl⟩

theorem wrapper_again {wrappers frozen : Text → Option Text} (h : wrapper hash target spec wrappers = .ok frozen) :
    wrapper hash later spec frozen = .ok frozen := by
  unfold wrapper at h ⊢
  cases hscript : spec.script with
  | none => rfl
  | some script =>
      obtain ⟨path, digest⟩ := script
      rw [hscript] at h
      dsimp only at h ⊢
      cases hfound : wrappers digest with
      | some text =>
          rw [hfound] at h
          dsimp only at h
          split at h
          · rename_i hdigest
            obtain rfl := Except.ok.inj h
            rw [hfound]
            exact if_pos hdigest
          · cases h
      | none =>
          rw [hfound] at h
          dsimp only at h
          split at h
          · cases h
          · rename_i inode _
            split at h
            · rename_i hdigest
              have hfrozen : frozen digest = some (target.bytes inode) := by
                rw [← Except.ok.inj h]
                exact if_pos rfl
              rw [hfrozen]
              exact if_pos hdigest
            · cases h

/-- Linking keeps what a tree was verified with: a listed file, which lies on no live path. -/
theorem lived_leaf {pin reached : Pin} (h : lived hash target spec pin = .ok (after, reached))
    (hleaf : pin.tree.entry path = some (.file held)) (hheld : held ≠ .link) (hclear : ∀ live ∈ spec.live, ¬live <+: path) :
    reached.tree.entry path = some (.file held) := by
  obtain ⟨made, hneeded, hpointed, -, -⟩ := lived_eq h
  have hmade := needed_leaf hneeded hleaf hheld fun hin => hclear path (List.mem_append_left _ hin) List.prefix_rfl
  rcases pointed_eq hpointed with ⟨-, -, hsame⟩ | ⟨results, hresults, -, -, hmoved⟩
  · rw [hsame, hmade]
  · rcases results_eq hmoved with ⟨-, hover⟩ | ⟨-, -, hkept⟩
    · exact hover.leaf_iff.mpr hmade
    · have hbeside : ¬results <+: path := hclear results (List.mem_append_right _ (by rw [hresults]; exact List.mem_singleton_self _))
      rcases hkept path hbeside with hsame | ⟨hnone, -⟩
      · rw [hsame, hmade]
      · rw [hnone] at hmade
        cases hmade

/-- Every need is linked, where none lies beneath the results path. -/
theorem lived_links {pin reached : Pin} (h : lived hash target spec pin = .ok (after, reached))
    (hbeside : ∀ path, spec.results = some path → ∀ need ∈ spec.needs, path <+: need → need = path) :
    ∀ need ∈ spec.needs, reached.tree.entry need = some (.file .link) := by
  obtain ⟨made, hneeded, hpointed, -, -⟩ := lived_eq h
  have hreached := needed_links hneeded
  intro need hneed
  rcases pointed_eq hpointed with ⟨-, -, hsame⟩ | ⟨results, hresults, -, -, hmoved⟩
  · rw [hsame, hreached need hneed]
  · rcases results_eq hmoved with ⟨-, hover⟩ | ⟨-, hlink, hkept⟩
    · exact hover.leaf_iff.mpr (hreached need hneed)
    · by_cases hbelow : results <+: need
      · rw [hbeside results hresults need hneed hbelow, hlink]
      · rcases hkept need hbelow with hsame | ⟨hnone, -⟩
        · rw [hsame, hreached need hneed]
        · rw [hreached need hneed] at hnone
          cases hnone

/-- The staged pins are reached: through a link, or where they stand. -/
theorem lived_staging {pin reached : Pin} (h : lived hash target spec pin = .ok (after, reached)) (hpins : spec.pins ≠ []) :
    linked reached.tree spec.staging = true ∨ reached.tree.entry spec.staging ≠ none := by
  obtain ⟨made, hneeded, hpointed, -, -⟩ := lived_eq h
  have hfound := needed_staging hneeded hpins
  rcases pointed_eq hpointed with ⟨-, -, hsame⟩ | ⟨results, hresults, -, -, hmoved⟩
  · rwa [hsame]
  · rcases results_eq hmoved with ⟨-, hover⟩ | ⟨-, hlink, hkept⟩
    · exact hfound.imp (fun hlinked => hover.linked ▸ hlinked) fun hentry hnone => hentry (hover.none hnone)
    · by_cases hbelow : results <+: spec.staging
      · exact Or.inl (linked_iff.mpr ⟨results, hbelow, hlink⟩)
      · rcases hfound with hlinked | hentry
        · obtain ⟨folder, hlead, hfolder⟩ := linked_iff.mp hlinked
          refine Or.inl (linked_iff.mpr ⟨folder, hlead, ?_⟩)
          rcases hkept folder fun hin => hbelow (hin.trans hlead) with hsame | ⟨hnone, -⟩
          · rw [hsame, hfolder]
          · rw [hfolder] at hnone
            cases hnone
        · refine Or.inr ?_
          rcases hkept spec.staging hbelow with hsame | ⟨hnone, -⟩
          · rwa [hsame]
          · exact absurd hnone hentry

/-- Linked back again, a tree stands as it stood, where no need lies beneath the results path. -/
theorem lived_again {pin reached : Pin} (h : lived hash target spec pin = .ok (after, reached))
    (hbeside : ∀ path, spec.results = some path → ∀ need ∈ spec.needs, path <+: need → need = path)
    (hexist : ∀ path, after.exist path = true → later.mirror.exist path = true)
    (hfree : ∀ path, spec.results = some path → ∀ folder, folder <+: path → after.file folder = none →
      later.mirror.file folder = none) {again : Pin} (htree : again.tree = reached.tree)
    (hwrappers : again.wrappers = reached.wrappers) :
    ∃ mirror done, lived hash later spec again = .ok (mirror, done) ∧ done.tree.entry = reached.tree.entry ∧
      done.closure = again.closure ∧ done.wrappers = reached.wrappers := by
  obtain ⟨made, hneeded, hpointed, hwrapper, -⟩ := lived_eq h
  have hmirror : ∀ path, target.mirror.exist path = true → later.mirror.exist path = true := by
    intro path hpath
    refine hexist path ?_
    rcases pointed_eq hpointed with ⟨-, hsame, -⟩ | ⟨results, -, -, hsame, -⟩
    · rwa [hsame]
    · rw [hsame]
      exact Bool.or_eq_true _ _ ▸ Or.inl hpath
  have hlinks := lived_links h hbeside
  have hstaging := lived_staging h
  have hall : ∀ path ∈ spec.pins ++ spec.needs, later.mirror.exist path = true := fun path hpath =>
    hmirror path ((needed_eq hneeded).1 path hpath)
  have hstaged : staged later.mirror spec again.tree = .ok again.tree := by
    unfold staged
    refine if_neg fun hmissing => ?_
    have hexists : exist later.mirror again.tree spec.staging = true := by
      obtain ⟨pin, hpin⟩ := List.exists_mem_of_ne_nil _ hmissing.1
      have hstands : later.mirror.exist spec.staging = true :=
        later.mirror.exist_prefix (spec.pins_staged pin hpin) (hall pin (List.mem_append_left _ hpin))
      unfold exist
      split
      · exact hstands
      · rename_i hlinked
        rw [htree] at hlinked ⊢
        exact Option.isSome_iff_ne_none.mpr ((hstaging hmissing.1).resolve_left hlinked)
    rw [hexists] at hmissing
    exact Bool.noConfusion hmissing.2
  have hneeds : ∃ done, spec.needs.foldlM need again.tree = .ok done ∧ done.entry = reached.tree.entry := by
    refine ListReading.foldlM_ok (fun tree : Tree => tree.entry = reached.tree.entry) (fun path hpath tree hsame => ?_)
      (by rw [htree])
    have hbelow : path ≠ [] := spec.below_root path (List.mem_append_left _ hpath)
    obtain ⟨next, hnext, hentry⟩ := @need_again tree path hbelow (by rw [hsame, hlinks path hpath])
    exact ⟨next, hnext, hentry.trans hsame⟩
  obtain ⟨linkedTree, hlinked, hlinkedEntry⟩ := hneeds
  have hneededAgain : needed later.mirror spec again.tree = .ok linkedTree := by
    have hnone : (spec.pins ++ spec.needs).find? (fun path => !later.mirror.exist path) = none :=
      List.find?_eq_none.mpr fun path hpath => by rw [hall path hpath]; exact Bool.false_ne_true
    unfold needed
    rw [hnone, hstaged]
    exact hlinked
  have hpointedAgain : ∃ mirror done, pointed later.mirror spec linkedTree = .ok (mirror, done) ∧
      done.entry = reached.tree.entry := by
    unfold pointed
    rcases pointed_eq hpointed with ⟨hnone, -, -⟩ | ⟨results, hresults, hfiles, hafter, hmoved⟩
    · rw [hnone]
      exact ⟨later.mirror, linkedTree, rfl, hlinkedEntry⟩
    · have hbelow : results ≠ [] :=
        spec.below_root results (List.mem_append_right _ (by rw [hresults]; exact List.mem_singleton_self _))
      have hstands : linked linkedTree results.dropLast = true ∨ linkedTree.entry results = some (.file .link) := by
        rcases results_eq hmoved with ⟨hthrough, hover⟩ | ⟨-, hlink, -⟩
        · left
          obtain ⟨folder, hlead, hfolder⟩ := linked_iff.mp (hover.linked.trans hthrough)
          exact linked_iff.mpr ⟨folder, hlead, by rw [hlinkedEntry, hfolder]⟩
        · right
          rw [hlinkedEntry, hlink]
      obtain ⟨done, hdone, hentry⟩ := results_again hbelow hstands
      have hclear : ¬(results.inits.any fun folder => (later.mirror.file folder).isSome) = true := by
        rw [Bool.not_eq_true, List.any_eq_false]
        intro folder hlead
        rw [List.mem_inits] at hlead
        have hnone := hfree results hresults folder hlead (by rw [hafter]; exact hfiles folder hlead)
        rw [hnone]
        exact Bool.false_ne_true
      rw [hresults]
      dsimp only
      rw [if_neg hclear, hdone]
      exact ⟨_, done, rfl, hentry.trans hlinkedEntry⟩
  obtain ⟨mirror, done, hdone, hentry⟩ := hpointedAgain
  refine ⟨mirror, { again with tree := done, wrappers := reached.wrappers }, ?_, hentry, rfl, rfl⟩
  unfold lived
  rw [hneededAgain]
  dsimp only [Except.bind]
  rw [hdone, hwrappers]
  dsimp only
  rw [wrapper_again hwrapper]
  rfl

/-- A need beneath the results path is refused the second time: the results link has replaced the folder it was
linked in. -/
theorem lived_refused {pin reached : Pin} (h : lived hash target spec pin = .ok (after, reached)) {results : Path}
    (hresults : spec.results = some results) {one : Path} (hone : one ∈ spec.needs) (hbelow : results <+: one)
    (hne : one ≠ results) {again : Pin} (htree : again.tree = reached.tree) (result : Mirror × Pin) :
    lived hash later spec again ≠ .ok result := by
  intro hagain
  obtain ⟨made, hneeded, hpointed, -, -⟩ := lived_eq h
  have hneed := needed_links hneeded one hone
  have hfolder : made.entry results = some .folder :=
    made.folder_of_prefix hbelow (Ne.symm hne) (by rw [hneed]; exact Option.some_ne_none _)
  have hparent : results <+: one.dropLast := by
    obtain ⟨rest, hrest⟩ := hbelow
    have hrestne : rest ≠ [] := fun hnil => hne (by rw [← hrest, hnil, List.append_nil])
    refine ⟨rest.dropLast, ?_⟩
    rw [← hrest, List.dropLast_append_of_ne_nil hrestne]
  have hlink : reached.tree.entry results = some (.file .link) := by
    rcases pointed_eq hpointed with ⟨hnone, -, -⟩ | ⟨path, hpath, -, -, hmoved⟩
    · rw [hresults] at hnone
      cases hnone
    · obtain rfl := Option.some.inj (hresults.symm.trans hpath)
      rcases results_eq hmoved with ⟨hthrough, -⟩ | ⟨-, hlink, -⟩
      · obtain ⟨folder, hlead, hfound⟩ := linked_iff.mp hthrough
        have hsame := eq_of_leaf hfound (hlead.trans (List.dropLast_prefix results)) (by rw [hfolder]; exact Option.some_ne_none _)
        rw [hsame, hfolder] at hfound
        cases hfound
      · exact hlink
  obtain ⟨linkedTree, hneededAgain, -, -, -⟩ := lived_eq hagain
  obtain ⟨-, start, hstaged, hneeds⟩ := needed_eq hneededAgain
  have hstart : start.entry results = some (.file .link) := by
    rcases staged_eq hstaged with ⟨hsame, -⟩ | ⟨-, hput⟩
    · rw [hsame, htree, hlink]
    · exact hput.keeps_link (by rw [htree, hlink])
  refine ListReading.foldlM_ne_ok (fun tree => tree.entry results = some (.file .link))
    (fun _ _ _ _ hkept hstep => (need_put hstep).keeps_link hkept) hone (fun tree next hkept hstep => ?_) hstart hneeds
  have hreached := (need_put hstep).reached
  rw [linked_iff.mpr ⟨results, hparent, hkept⟩] at hreached
  exact Bool.noConfusion hreached

end Mainboard.Snapshots
