import Mainboard.ListReading
import Mainboard.SnapshotPins

/-! What the calls of a pin do to a tree. Folders are made where nothing stood; a link is put where nothing or a
link stood, below folders only; and a link put once stands, so that putting it again changes nothing. -/

namespace Mainboard.Snapshots

variable {tree next : Tree} {path other : Path} {leaf : Leaf}

/-! Leaves on the way -/

theorem leafAt_eq_some_iff : leafAt tree path = some leaf ↔ tree.entry path = some (.file leaf) := by
  unfold leafAt
  split
  · rename_i held hentry
    rw [hentry]
    simp
  · rename_i hentry
    refine iff_of_false (fun h => ?_) fun h => hentry leaf h
    cases h

theorem met_eq_some_iff : met tree path = some leaf ↔ ∃ folder, folder <+: path ∧ tree.entry folder = some (.file leaf) := by
  constructor
  · intro h
    obtain ⟨folder, hfolder, hfound⟩ := List.exists_of_findSome?_eq_some h
    exact ⟨folder, (List.mem_inits _ _).mp hfolder, leafAt_eq_some_iff.mp hfound⟩
  · rintro ⟨folder, hlead, hentry⟩
    cases hmet : met tree path with
    | none =>
        have hnone := List.findSome?_eq_none_iff.mp hmet folder ((List.mem_inits _ _).mpr hlead)
        rw [leafAt_eq_some_iff.mpr hentry] at hnone
        cases hnone
    | some found =>
        obtain ⟨one, hone, hfound⟩ := List.exists_of_findSome?_eq_some hmet
        have hother := leafAt_eq_some_iff.mp hfound
        have hsame : one = folder := by
          by_contra hne
          rcases List.prefix_or_prefix_of_prefix ((List.mem_inits _ _).mp hone) hlead with hbefore | hbefore
          · have hfolder := tree.folder_of_prefix hbefore hne (by rw [hentry]; exact Option.some_ne_none _)
            rw [hother] at hfolder
            cases hfolder
          · have hfolder := tree.folder_of_prefix hbefore (Ne.symm hne) (by rw [hother]; exact Option.some_ne_none _)
            rw [hentry] at hfolder
            cases hfolder
        rw [hsame, hentry] at hother
        cases hother
        rfl

theorem met_eq_none_iff : met tree path = none ↔ ∀ folder, folder <+: path → ∀ leaf, tree.entry folder ≠ some (.file leaf) := by
  rw [Option.eq_none_iff_forall_ne_some]
  constructor
  · exact fun h folder hlead leaf hentry => h leaf (met_eq_some_iff.mpr ⟨folder, hlead, hentry⟩)
  · intro h leaf hmet
    obtain ⟨folder, hlead, hentry⟩ := met_eq_some_iff.mp hmet
    exact h folder hlead leaf hentry

theorem linked_iff : linked tree path = true ↔ ∃ folder, folder <+: path ∧ tree.entry folder = some (.file .link) := by
  rw [← met_eq_some_iff]
  exact beq_iff_eq

/-- Nothing stands beneath a leaf. -/
theorem eq_of_leaf (hleaf : tree.entry path = some (.file leaf)) (hlead : path <+: other) (h : tree.entry other ≠ none) :
    path = other := by
  by_contra hne
  have hfolder := tree.folder_of_prefix hlead hne h
  rw [hleaf] at hfolder
  cases hfolder

/-- A path below which something stands goes through no link. -/
theorem not_linked_of_entry (h : tree.entry path ≠ none) (hlink : tree.entry path ≠ some (.file .link)) :
    linked tree path = false := by
  refine Bool.eq_false_iff.mpr fun hlinked => ?_
  obtain ⟨folder, hlead, hentry⟩ := linked_iff.mp hlinked
  exact hlink (eq_of_leaf hentry hlead h ▸ hentry)

/-! Folders made -/

/-- A tree over another: the same, but for folders where nothing stood. -/
def Over (tree next : Tree) : Prop :=
  ∀ other, next.entry other = tree.entry other ∨ (tree.entry other = none ∧ next.entry other = some .folder)

theorem Over.refl (tree : Tree) : Over tree tree := fun _ => Or.inl rfl

theorem Over.leaf_iff (h : Over tree next) : next.entry other = some (.file leaf) ↔ tree.entry other = some (.file leaf) := by
  rcases h other with hsame | ⟨hnone, hmade⟩
  · rw [hsame]
  · rw [hnone, hmade]
    simp

theorem Over.linked (h : Over tree next) : Snapshots.linked next path = Snapshots.linked tree path := by
  rw [Bool.eq_iff_iff, linked_iff, linked_iff]
  exact exists_congr fun folder => and_congr_right fun _ => h.leaf_iff

theorem makedirs_over (h : makedirs tree path = .ok next) : Over tree next := by
  unfold makedirs at h
  split at h
  · rename_i hnone
    obtain rfl := Except.ok.inj h
    intro other
    by_cases hlead : other <+: path
    · have hmade : (tree.withFolders path).entry other = some .folder := if_pos hlead
      rw [hmade]
      cases hentry : tree.entry other with
      | none => exact Or.inr ⟨rfl, rfl⟩
      | some entry =>
          cases entry with
          | folder => exact Or.inl rfl
          | file leaf => exact absurd hentry (met_eq_none_iff.mp hnone other hlead leaf)
    · exact Or.inl (if_neg hlead)
  · obtain rfl := Except.ok.inj h
    exact Over.refl _
  · cases h

/-- Below folders that stand, making them changes nothing. -/
theorem makedirs_of_folder (h : tree.entry path = some .folder) :
    ∃ next, makedirs tree path = .ok next ∧ next.entry = tree.entry := by
  have hfolders : ∀ folder, folder <+: path → tree.entry folder = some .folder := fun folder hlead => by
    by_cases hsame : folder = path
    · rw [hsame, h]
    · exact tree.folder_of_prefix hlead hsame (by rw [h]; exact Option.some_ne_none _)
  have hnone : met tree path = none := met_eq_none_iff.mpr fun folder hlead leaf hentry => by
    rw [hfolders folder hlead] at hentry
    cases hentry
  refine ⟨tree.withFolders path, ?_, funext fun other => ?_⟩
  · unfold makedirs
    rw [hnone]
  · by_cases hlead : other <+: path
    · exact (if_pos hlead).trans (hfolders other hlead).symm
    · exact if_neg hlead

/-! Links put -/

theorem called_ok {α : Type} {asked : Except FileTree.Refusal α} {made : α} (h : called asked = .ok made) :
    asked = .ok made := by
  cases asked with
  | ok answer => exact congrArg Except.ok (Except.ok.inj h)
  | error refusal => cases h

/-- A link put at a path: below folders only, where nothing or a link stood, with folders made on the way. -/
structure Put (tree next : Tree) (path : Path) : Prop where
  reached : linked tree path.dropLast = false
  free : tree.entry path = none ∨ tree.entry path = some (.file .link)
  link : next.entry path = some (.file .link)
  kept : ∀ other, other ≠ path → next.entry other = tree.entry other ∨
    (tree.entry other = none ∧ next.entry other = some .folder)

theorem Over.none (h : Over tree next) (hnone : next.entry other = none) : tree.entry other = none := by
  rcases h other with hsame | ⟨hfree, -⟩
  · rw [← hsame, hnone]
  · exact hfree

theorem Over.put {made : Tree} (h : Over tree made) (hput : Put made next path) : Put tree next path where
  reached := h.linked ▸ hput.reached
  free := hput.free.imp h.none h.leaf_iff.mp
  link := hput.link
  kept := fun other hother => by
    rcases hput.kept other hother with hsame | ⟨hnone, hfolder⟩
    · rw [hsame]
      exact h other
    · exact Or.inr ⟨h.none hnone, hfolder⟩

theorem relink_put (h : relink tree path = .ok next) : Put tree next path := by
  unfold relink at h
  cases hmade : makedirs tree path.dropLast with
  | error fault =>
      rw [hmade] at h
      cases h
  | ok made =>
      rw [hmade] at h
      refine (makedirs_over hmade).put ?_
      have hput : ∀ {next : Tree}, linked made path.dropLast = false →
          (made.entry path = none ∨ made.entry path = some (.file .link)) → made.write path .link = .ok next →
          Put made next path := by
        intro next hlinked hentry hwrite
        have hnext := FileTree.Tree.write_eq hwrite
        refine ⟨hlinked, hentry, ?_, fun other hother => Or.inl ?_⟩
        · rw [hnext]
          exact if_pos rfl
        · rw [hnext]
          exact if_neg hother
      dsimp only [Except.bind] at h
      split at h
      · cases h
      · rename_i hlinked
        split at h
        · rename_i hentry
          exact hput (Bool.eq_false_iff.mpr hlinked) (Or.inl hentry) (called_ok h)
        · rename_i hentry
          exact hput (Bool.eq_false_iff.mpr hlinked) (Or.inr hentry) (called_ok h)
        · cases h

theorem need_put (h : need tree path = .ok next) : Put tree next path := by
  unfold need at h
  cases hmade : makedirs tree path.dropLast with
  | error fault =>
      rw [hmade] at h
      cases h
  | ok made =>
      rw [hmade] at h
      dsimp only [Except.bind] at h
      split at h
      · cases h
      · exact (makedirs_over hmade).put (relink_put h)

/-- The folder above a link stands. -/
theorem makedirs_above (hpath : path ≠ []) (h : tree.entry path = some (.file .link)) :
    ∃ made, makedirs tree path.dropLast = .ok made ∧ made.entry = tree.entry ∧ linked made path.dropLast = false ∧
      made.isFolder path.dropLast = true := by
  have hne : path.dropLast ≠ path := fun hsame => by
    have hlength := congrArg List.length hsame
    have hpositive := List.length_pos_of_ne_nil hpath
    rw [List.length_dropLast] at hlength
    omega
  have hparent := tree.folder_of_prefix (List.dropLast_prefix path) hne (by rw [h]; exact Option.some_ne_none _)
  obtain ⟨made, hmade, hsame⟩ := makedirs_of_folder hparent
  refine ⟨made, hmade, hsame, ?_, ?_⟩
  · exact not_linked_of_entry (by rw [hsame, hparent]; exact Option.some_ne_none _) (by rw [hsame, hparent]; simp)
  · rw [FileTree.Tree.isFolder_iff, hsame, hparent]

/-- A link put again where it stands changes nothing. -/
theorem relink_again (hpath : path ≠ []) (h : tree.entry path = some (.file .link)) :
    ∃ next, relink tree path = .ok next ∧ next.entry = tree.entry := by
  obtain ⟨made, hmade, hsame, hlinked, habove⟩ := makedirs_above hpath h
  have hfolder : ¬made.isFolder path = true := fun hfolder => by
    rw [FileTree.Tree.isFolder_iff, hsame, h] at hfolder
    cases hfolder
  have hwrite : made.write path .link = .ok (made.withFile path .link habove hfolder) := by
    unfold FileTree.Tree.write
    rw [dif_neg hfolder, dif_pos habove]
  refine ⟨made.withFile path .link habove hfolder, ?_, funext fun other => ?_⟩
  · unfold relink
    rw [hmade]
    dsimp only [Except.bind]
    rw [if_neg (Bool.eq_false_iff.mp hlinked), hsame, h]
    dsimp only
    rw [hwrite]
    rfl
  · by_cases hother : other = path
    · exact (if_pos hother).trans (hother ▸ h.symm)
    · exact (if_neg hother).trans (congrFun hsame other)

theorem need_again (hpath : path ≠ []) (h : tree.entry path = some (.file .link)) :
    ∃ next, need tree path = .ok next ∧ next.entry = tree.entry := by
  obtain ⟨made, hmade, hsame, hlinked, -⟩ := makedirs_above hpath h
  obtain ⟨next, hnext, hentry⟩ := @relink_again made path hpath (by rw [hsame, h])
  refine ⟨next, ?_, hentry.trans hsame⟩
  unfold need
  rw [hmade]
  dsimp only [Except.bind]
  rw [if_neg (Bool.eq_false_iff.mp hlinked), hnext]

namespace Put

variable (h : Put tree next path)
include h

/-- A link put keeps every other leaf, and every link. -/
theorem keeps_leaf (hleaf : tree.entry other = some (.file leaf)) (hother : other ≠ path) :
    next.entry other = some (.file leaf) := by
  rcases h.kept other hother with hsame | ⟨hnone, -⟩
  · rw [hsame, hleaf]
  · rw [hnone] at hleaf
    cases hleaf

theorem keeps_link (hlink : tree.entry other = some (.file .link)) : next.entry other = some (.file .link) := by
  by_cases hother : other = path
  · rw [hother, h.link]
  · exact h.keeps_leaf hlink hother

/-- What could be found is found: a path that something stands at, or that goes through a link. -/
theorem found (hfound : linked tree other = true ∨ tree.entry other ≠ none) :
    linked next other = true ∨ next.entry other ≠ none := by
  rcases hfound with hlinked | hentry
  · obtain ⟨folder, hlead, hlink⟩ := linked_iff.mp hlinked
    exact Or.inl (linked_iff.mpr ⟨folder, hlead, h.keeps_link hlink⟩)
  · refine Or.inr ?_
    by_cases hother : other = path
    · rw [hother, h.link]
      exact Option.some_ne_none _
    · rcases h.kept other hother with hsame | ⟨hnone, -⟩
      · rwa [hsame]
      · exact absurd hnone hentry

end Put

/-! The results path -/

/-- What pointing the results path back does: where its parent goes through a link, nothing but folders; else the
link is put, over whatever stood there. -/
theorem results_eq (h : results path tree = .ok next) :
    (linked tree path.dropLast = true ∧ Over tree next) ∨
      (linked tree path.dropLast = false ∧ next.entry path = some (.file .link) ∧
        ∀ other, ¬path <+: other → next.entry other = tree.entry other ∨
          (tree.entry other = none ∧ next.entry other = some .folder)) := by
  unfold results at h
  cases hmade : makedirs tree path.dropLast with
  | error fault =>
      rw [hmade] at h
      cases h
  | ok made =>
      rw [hmade] at h
      have hover := makedirs_over hmade
      dsimp only [Except.bind] at h
      split at h
      · rename_i hlinked
        obtain rfl := Except.ok.inj h
        exact Or.inl ⟨hover.linked ▸ hlinked, hover⟩
      · rename_i hlinked
        have hput := relink_put h
        refine Or.inr ⟨hover.linked ▸ Bool.eq_false_iff.mpr hlinked, hput.link, fun other hother => ?_⟩
        have hne : other ≠ path := fun hsame => hother (hsame ▸ List.prefix_rfl)
        have hsame : (cleared made path).entry other = made.entry other := by
          unfold cleared
          split
          · rfl
          · rfl
          · exact if_neg hother
        rcases hput.kept other hne with hkept | ⟨hnone, hfolder⟩
        · rw [hkept, hsame]
          exact hover other
        · exact Or.inr ⟨hover.none (hsame ▸ hnone), hfolder⟩

/-- Pointed back again, nothing changes: its parent goes through a link, or the link stands. -/
theorem results_again (hpath : path ≠ []) (h : linked tree path.dropLast = true ∨ tree.entry path = some (.file .link)) :
    ∃ next, results path tree = .ok next ∧ next.entry = tree.entry := by
  unfold results
  by_cases hlinked : linked tree path.dropLast = true
  · have hmade : makedirs tree path.dropLast = .ok tree := by
      unfold makedirs
      rw [eq_of_beq hlinked]
    rw [hmade]
    dsimp only [Except.bind]
    rw [if_pos hlinked]
    exact ⟨tree, rfl, rfl⟩
  · have hlink := h.resolve_left hlinked
    obtain ⟨made, hmade, hsame, hfree, -⟩ := makedirs_above hpath hlink
    have hclear : cleared made path = made := by
      unfold cleared
      rw [hsame, hlink]
    obtain ⟨next, hnext, hentry⟩ := @relink_again made path hpath (by rw [hsame, hlink])
    refine ⟨next, ?_, hentry.trans hsame⟩
    rw [hmade]
    dsimp only [Except.bind]
    rw [if_neg (Bool.eq_false_iff.mp hfree), hclear, hnext]

end Mainboard.Snapshots
