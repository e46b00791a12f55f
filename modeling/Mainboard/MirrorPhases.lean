import Mainboard.MirrorDelta

/-! The phases of a receive, over any disk: what one pass of removals leaves, what a delta asks for, and
that making, linking and unpacking go through and lead to one tree where nothing is in their way. -/

namespace Mainboard.Mirror

open Ignores (Path ancestors)

/-- Every entry of a disk lies in directories of it. -/
def Standing (disk : Tree) : Prop :=
  ∀ held ∈ disk.entries, held.1 ≠ [] ∧ ∀ folder ∈ ancestors held.1, disk.lookup folder = some .directory

variable {tree disk mine : Tree} {path : Path} {entry : Entry} {states : Path → Kind → Bool}
  {protects : Claim}

/-! Pruning -/

theorem Standing.folder {folder : Path} (h : Standing disk) (hentry : disk.lookup path = some entry) (hbelow : Below path folder)
    (hroot : folder ≠ []) : disk.lookup folder = some .directory :=
  (h _ (lookup_eq_some_iff.mp hentry)).2 folder (mem_ancestors.mpr ⟨hbelow, hroot⟩)

theorem Standing.root (h : Standing disk) : disk.lookup [] = none := by
  by_contra hsome
  obtain ⟨entry, hentry⟩ := Option.ne_none_iff_exists'.mp hsome
  exact (h _ (lookup_eq_some_iff.mp hentry)).1 rfl

variable {held : Tree}

/-- An entry that is made anew: missing on the target, or pruned first. -/
def Placed (mine held : Tree) (protects : Claim) (path : Path) : Prop :=
  held.lookup path = none ∨ path ∈ (Delta.between mine held protects).delete

/-- An entry the receive writes: a file that differs, or a directory or link made anew. -/
def Sent (mine held : Tree) (protects : Claim) (path : Path) : Prop :=
  ∃ entry, mine.lookup path = some entry ∧
    ((entry.kind = .file ∧ Delta.isDiffers entry (held.lookup path)) ∨
      (entry.kind ≠ .file ∧ Placed mine held protects path))

open Classical in
/-- What the receive leads to: what it sends, the directories above that, and else what pruning left. -/
noncomputable def goal (mine held pruned : Tree) (protects : Claim) (path : Path) : Option Entry :=
  if Sent mine held protects path then mine.lookup path
  else if mine.lookup path = none ∧ ∃ sent, Sent mine held protects sent ∧ path ∈ ancestors sent then
    some .directory
  else pruned.lookup path

/-- The paths in `done` are as the receive leads to, the others as pruning left them. -/
structure Reached (mine held pruned : Tree) (protects : Claim) (done : Set Path) (disk : Tree) : Prop where
  made : ∀ path ∈ done, disk.lookup path = goal mine held pruned protects path
  rest : ∀ path ∉ done, disk.lookup path = pruned.lookup path

/-- A directory on the way to something sent, which nothing is in the way of. -/
def Way (mine held pruned : Tree) (protects : Claim) (path : Path) : Prop :=
  goal mine held pruned protects path = some .directory ∧
    (pruned.lookup path = none ∨ pruned.lookup path = some .directory)

variable {pruned : Tree} {done : Set Path} {follow : Follow}

theorem Reached.inserted {disk' : Tree} (h : Reached mine held pruned protects done disk)
    (hpath : disk'.lookup path = goal mine held pruned protects path)
    (hother : ∀ other ≠ path, disk'.lookup other = disk.lookup other) :
    Reached mine held pruned protects (insert path done) disk' where
  made other hmem := by
    by_cases hsame : other = path
    · rw [hsame, hpath]
    · rw [hother other hsame]
      exact h.made other (hmem.resolve_left hsame)
  rest other hnot := by
    rw [hother other fun hsame => hnot (.inl hsame)]
    exact h.rest other fun hmem => hnot (.inr hmem)

variable (follow) in
theorem Reached.enter {here : Path} {name : String} (h : Reached mine held pruned protects done disk)
    (hway : Way mine held pruned protects (here ++ [name])) :
    ∃ disk', Tree.enter follow (disk, here) name = .ok (disk', here ++ [name]) ∧
      Reached mine held pruned protects (insert (here ++ [name]) done) disk' := by
  have hlookup : disk.lookup (here ++ [name]) = none ∨ disk.lookup (here ++ [name]) = some .directory := by
    by_cases hmem : here ++ [name] ∈ done
    · exact .inr ((h.made _ hmem).trans hway.1)
    · rw [h.rest _ hmem]
      exact hway.2
  unfold Tree.enter
  rcases hlookup with hnone | hdirectory
  · dsimp only
    rw [hnone]
    refine ⟨_, rfl, h.inserted ?_ fun other hne => AList.lookup_insert_ne hne⟩
    rw [AList.lookup_insert, hway.1]
  · dsimp only
    rw [hdirectory]
    exact ⟨_, rfl, h.inserted (hdirectory.trans hway.1.symm) fun _ _ => rfl⟩

variable (follow path) in
/-- Where every folder on the way is one or can be made, one gets to stand in the last. -/
theorem Reached.descend (h : Reached mine held pruned protects done disk)
    (hways : ∀ folder, folder <+: path → folder ≠ [] → Way mine held pruned protects folder) :
    ∃ disk', disk.descend follow path = .ok (disk', path) ∧
      Reached mine held pruned protects (done ∪ {folder | folder <+: path ∧ folder ≠ []}) disk' := by
  induction path using List.reverseRecOn with
  | nil =>
      have hset : done ∪ {folder : Path | folder <+: [] ∧ folder ≠ []} = done := by
        ext folder
        simp only [Set.mem_union, Set.mem_ofPred_eq, List.prefix_nil]
        tauto
      exact ⟨disk, rfl, hset.symm ▸ h⟩
  | append_singleton front name ih =>
      obtain ⟨middle, hmiddle, hreached⟩ := ih fun folder hfolder hroot =>
        hways folder (hfolder.trans (List.prefix_append _ _)) hroot
      obtain ⟨disk', hdisk', hentered⟩ := hreached.enter follow
        (hways (front ++ [name]) (List.prefix_refl _) (List.append_ne_nil_of_right_ne_nil _ (List.cons_ne_nil _ _)))
      have hset : insert (front ++ [name]) (done ∪ {folder | folder <+: front ∧ folder ≠ []}) =
          done ∪ {folder | folder <+: front ++ [name] ∧ folder ≠ []} := by
        ext folder
        simp only [Set.mem_insert_iff, Set.mem_union, Set.mem_ofPred_eq, List.prefix_concat_iff]
        constructor
        · rintro (rfl | hold | ⟨hfront, hroot⟩)
          · exact .inr ⟨.inl rfl, List.append_ne_nil_of_right_ne_nil _ (List.cons_ne_nil _ _)⟩
          · exact .inl hold
          · exact .inr ⟨.inr hfront, hroot⟩
        · rintro (hold | ⟨hself | hfront, hroot⟩)
          · exact .inr (.inl hold)
          · exact .inl hself
          · exact .inr (.inr ⟨hfront, hroot⟩)
      refine ⟨disk', ?_, hset ▸ hentered⟩
      unfold Tree.descend at hmiddle ⊢
      rw [List.foldlM_append, hmiddle]
      simp only [bind, Except.bind, List.foldlM_cons, List.foldlM_nil, hdisk']
      rfl

variable (follow) in
/-- The way to a path leads to where it lies. -/
theorem Reached.parents (h : Reached mine held pruned protects done disk)
    (hways : ∀ folder ∈ ancestors path, Way mine held pruned protects folder) :
    ∃ disk', disk.descend follow path.dropLast = .ok (disk', path.dropLast) ∧
      Reached mine held pruned protects (done ∪ {folder | folder ∈ ancestors path}) disk' := by
  obtain ⟨disk', hmade, hreached⟩ := h.descend path.dropLast follow fun folder hfolder hroot =>
    hways folder (mem_ancestors_iff.mpr ⟨hfolder, hroot⟩)
  have hset : {folder | folder ∈ ancestors path} = {folder : Path | folder <+: path.dropLast ∧ folder ≠ []} := by
    ext folder
    exact mem_ancestors_iff
  exact ⟨disk', hmade, hset ▸ hreached⟩

theorem Reached.place (h : Reached mine held pruned protects done disk)
    (hways : ∀ folder ∈ ancestors path, Way mine held pruned protects folder)
    (hgoal : goal mine held pruned protects path = some entry) (hkind : entry ≠ .directory)
    (hfree : pruned.lookup path ≠ some .directory) :
    ∃ disk', disk.place follow (path, entry) = .ok disk' ∧
      Reached mine held pruned protects (insert path (done ∪ {folder | folder ∈ ancestors path})) disk' := by
  obtain ⟨made, hmade, hreached⟩ := h.parents follow hways
  have hplace : made.lookup path ≠ some .directory := by
    by_cases hmem : path ∈ done ∪ {folder | folder ∈ ancestors path}
    · rw [hreached.made path hmem, hgoal]
      exact fun hsame => hkind (Option.some.inj hsame)
    · rw [hreached.rest path hmem]
      exact hfree
  refine ⟨made.insert path entry, ?_, hreached.inserted ?_ fun other hne => AList.lookup_insert_ne hne⟩
  · unfold Tree.place
    rw [hmade]
    simp only [bind, Except.bind]
    rw [dropLast_append_last]
    split
    · rename_i hdirectory
      exact absurd hdirectory hplace
    · rfl
  · rw [AList.lookup_insert, hgoal]

end Mainboard.Mirror
