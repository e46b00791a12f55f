import Mainboard.ArtifactRecalling

/-! What a check of artifacts establishes. It goes through exactly where every reference it reads resolves; but absent
references are kept by digest, so that of two with one digest only the later is read, and what the earlier says of its
size and its place is taken on trust. -/

namespace Mainboard.Artifacts

open Analysis (Text Bytes)

variable {Sum : Type} [DecidableEq Sum] {sha256 : Bytes → Text} {md5 : Bytes → Sum}

/-! References on their own -/

section Resolving

variable (sha256 : Bytes → Text) (md5 : Bytes → Sum) (finds : Folder → Folder → Bool) (world : World Sum)
  (directory boundary : Path)

/-- A reference resolves on its own: at the outermost root that places it in the fetch, and with its links followed there
too, what is found on disk, in an archive or in a lake is bytes of its size and its digest. -/
def Resolves (artifact : Artifact) : Prop :=
  ∃ relative root data, relativePath artifact.path = .ok relative ∧ rootFor directory boundary relative = some root ∧
    world.inside directory (root ++ relative) = true ∧ artifact.found sha256 md5 finds world root = .ok data ∧
      data.length = artifact.size ∧ sha256 data = artifact.sha256

/-- A reference has a place in the fetch, and nothing stands there. -/
def Absent (artifact : Artifact) : Prop :=
  ∃ relative root, relativePath artifact.path = .ok relative ∧ rootFor directory boundary relative = some root ∧
    world.inside directory (root ++ relative) = true ∧ world.exist (root ++ relative) = false

/-- An absent reference of which a later one, absent too, has the digest. -/
def Overwritten (references : List Artifact) (artifact : Artifact) : Prop :=
  Absent world directory boundary artifact ∧ ∃ before after, references = before ++ artifact :: after ∧
    ∃ other ∈ after, Absent world directory boundary other ∧ other.sha256 = artifact.sha256

variable {sha256 md5 finds world directory boundary} {artifact : Artifact} {root : Path} {data : Bytes}

theorem read_eq_ok {given : Bytes} : artifact.read sha256 md5 finds world root = .ok given ↔
    artifact.found sha256 md5 finds world root = .ok given ∧ given.length = artifact.size ∧
      sha256 given = artifact.sha256 := by
  unfold Artifact.read
  cases artifact.found sha256 md5 finds world root with
  | error refusal => exact iff_of_false (fun h => by cases h) fun h => by cases h.1
  | ok data =>
      change artifact.checked sha256 data = _ ↔ _
      rw [checked_eq_ok, Except.ok.injEq]
      constructor
      · rintro ⟨rfl, h⟩
        exact ⟨rfl, h⟩
      · rintro ⟨rfl, h⟩
        exact ⟨rfl, h⟩

/-- An absent reference is left for later, with its root. -/
theorem examined_absent (h : examined sha256 md5 finds world directory boundary artifact = .ok (some root)) :
    ∃ relative, relativePath artifact.path = .ok relative ∧ rootFor directory boundary relative = some root ∧
      world.inside directory (root ++ relative) = true ∧ world.exist (root ++ relative) = false := by
  unfold examined at h
  cases hpath : relativePath artifact.path with
  | error refusal =>
      rw [hpath] at h
      cases h
  | ok relative =>
      rw [hpath] at h
      dsimp only [Except.bind] at h
      cases hroot : rootFor directory boundary relative with
      | none =>
          rw [hroot] at h
          cases h
      | some found =>
          rw [hroot] at h
          dsimp only at h
          split at h
          · cases h
          · next hinside =>
              split at h
              · cases hread : artifact.read sha256 md5 finds world found with
                | error refusal =>
                    rw [hread] at h
                    cases h
                | ok data =>
                    rw [hread] at h
                    cases h
              · next hexist =>
                  obtain rfl := Option.some.inj (Except.ok.inj h)
                  exact ⟨relative, rfl, hroot, by simpa using hinside, Bool.eq_false_iff.mpr hexist⟩

/-- A reference is examined without a refusal exactly when it is absent or resolves. -/
theorem examined_ok : (∃ answer, examined sha256 md5 finds world directory boundary artifact = .ok answer) ↔
    Absent world directory boundary artifact ∨ Resolves sha256 md5 finds world directory boundary artifact := by
  unfold examined Absent Resolves
  cases hpath : relativePath artifact.path with
  | error refusal =>
      refine iff_of_false (fun h => by cases h.choose_spec) ?_
      rintro (⟨_, _, h, -⟩ | ⟨_, _, _, h, -⟩) <;> cases h
  | ok relative =>
      dsimp only [Except.bind]
      cases hroot : rootFor directory boundary relative with
      | none =>
          refine iff_of_false (fun h => by cases h.choose_spec) ?_
          rintro (⟨_, _, h, hnone, -⟩ | ⟨_, _, _, h, hnone, -⟩) <;> cases h <;> rw [hroot] at hnone <;> cases hnone
      | some root =>
          dsimp only
          cases hinside : world.inside directory (root ++ relative) with
          | false =>
              refine iff_of_false (fun h => by cases h.choose_spec) ?_
              rintro (⟨_, _, h, hsome, hin, -⟩ | ⟨_, _, _, h, hsome, hin, -⟩) <;> cases h <;> rw [hroot] at hsome <;>
                cases hsome <;> rw [hinside] at hin <;> cases hin
          | true =>
              rw [if_neg (by decide)]
              cases hexist : world.exist (root ++ relative) with
              | false =>
                  rw [if_neg Bool.false_ne_true]
                  exact iff_of_true ⟨_, rfl⟩ (.inl ⟨relative, root, rfl, hroot, hinside, hexist⟩)
              | true =>
                  rw [if_pos rfl]
                  constructor
                  · rintro ⟨answer, h⟩
                    cases hread : artifact.read sha256 md5 finds world root with
                    | error refusal =>
                        rw [hread] at h
                        cases h
                    | ok data =>
                        obtain ⟨hfound, hsize, hdigest⟩ := read_eq_ok.mp hread
                        exact .inr ⟨relative, root, data, rfl, hroot, hinside, hfound, hsize, hdigest⟩
                  · rintro (⟨_, _, h, hsome, -, hnot⟩ | ⟨_, _, data, h, hsome, -, hfound, hsize, hdigest⟩)
                    · cases h
                      rw [hroot] at hsome
                      cases hsome
                      rw [hexist] at hnot
                      cases hnot
                    · cases h
                      rw [hroot] at hsome
                      cases hsome
                      rw [read_eq_ok.mpr ⟨hfound, hsize, hdigest⟩]
                      exact ⟨_, rfl⟩

theorem examined_of_absent (h : Absent world directory boundary artifact) :
    ∃ root, examined sha256 md5 finds world directory boundary artifact = .ok (some root) := by
  obtain ⟨relative, root, hpath, hroot, hinside, hexist⟩ := h
  refine ⟨root, ?_⟩
  unfold examined
  rw [hpath]
  dsimp only [Except.bind]
  rw [hroot]
  dsimp only
  rw [hinside, hexist]
  rfl

/-- An absent reference resolves exactly when it passes under its root, or in a lake where that leaves it. -/
theorem resolves_absent (h : examined sha256 md5 finds world directory boundary artifact = .ok (some root)) :
    Resolves sha256 md5 finds world directory boundary artifact ↔
      (Missing finds world (artifact, root) = true ∨
        ∃ data given, artifact.held finds world root = .ok data ∧ artifact.checked sha256 data = .ok given) ∧
      (Missing finds world (artifact, root) = true → ∃ data,
        world.recall sha256 md5 root artifact.sha256 = some data ∧ ∃ given, artifact.checked sha256 data = .ok given) := by
  obtain ⟨relative, hpath, hroot, hinside, -⟩ := examined_absent h
  have hresolves : Resolves sha256 md5 finds world directory boundary artifact ↔
      ∃ data, artifact.found sha256 md5 finds world root = .ok data ∧ ∃ given, artifact.checked sha256 data = .ok given := by
    constructor
    · rintro ⟨other, place, data, hother, hplace, -, hfound, hsize, hdigest⟩
      rw [hpath] at hother
      cases hother
      rw [hroot] at hplace
      cases hplace
      exact ⟨data, hfound, data, checked_eq_ok.mpr ⟨rfl, hsize, hdigest⟩⟩
    · rintro ⟨data, hfound, given, hchecked⟩
      obtain ⟨-, hsize, hdigest⟩ := checked_eq_ok.mp hchecked
      exact ⟨relative, root, data, hpath, hroot, hinside, hfound, hsize, hdigest⟩
  rw [hresolves]
  unfold Artifact.found Missing
  cases hheld : artifact.held finds world root with
  | ok data =>
      constructor
      · rintro ⟨other, hother, given, hchecked⟩
        refine ⟨.inr ⟨other, given, hother, hchecked⟩, fun hmissing => ?_⟩
        cases of_decide_eq_true hmissing
      · rintro ⟨hmissing | ⟨other, given, hother, hchecked⟩, -⟩
        · cases of_decide_eq_true hmissing
        · exact ⟨other, hother, given, hchecked⟩
  | error refusal =>
      by_cases hmissing : refusal = .missing
      · subst hmissing
        dsimp only
        cases world.recall sha256 md5 root artifact.sha256 with
        | none =>
            refine iff_of_false (fun h => by cases h.choose_spec.1) fun h => ?_
            cases (h.2 (decide_eq_true rfl)).choose_spec.1
        | some data =>
            constructor
            · rintro ⟨other, hother, given, hchecked⟩
              cases hother
              exact ⟨.inl (decide_eq_true rfl), fun _ => ⟨data, rfl, given, hchecked⟩⟩
            · rintro ⟨-, h⟩
              obtain ⟨other, hother, given, hchecked⟩ := h (decide_eq_true rfl)
              cases hother
              exact ⟨data, rfl, given, hchecked⟩
      · refine iff_of_false ?_ ?_
        · rintro ⟨data, hdata, -⟩
          cases refusal <;> first | exact hmissing rfl | cases hdata
        · rintro ⟨h | ⟨data, given, hdata, -⟩, -⟩
          · exact hmissing (Except.error.inj (of_decide_eq_true h))
          · cases hdata

end Resolving

/-! The check -/

section Check

variable {finds : Folder → Folder → Bool} {world : World Sum} {directory boundary : Path} {references : List Artifact}
  {absent : List (Text × Artifact × Path)}

/-- The entry an absent reference makes. -/
def entryOf (sha256 : Bytes → Text) (md5 : Bytes → Sum) (finds : Folder → Folder → Bool) (world : World Sum)
    (directory boundary : Path) (artifact : Artifact) : Option (Text × Artifact × Path) :=
  match examined sha256 md5 finds world directory boundary artifact with
  | .ok (some root) => some (artifact.sha256, artifact, root)
  | _ => none

/-- The absent references, the last of each digest, once none is refused. -/
theorem absentOf_eq_ok : absentOf sha256 md5 finds world directory boundary references = .ok absent ↔
    (∀ artifact ∈ references, ∃ answer, examined sha256 md5 finds world directory boundary artifact = .ok answer) ∧
      absent = OrderedMap.ofPairs (references.filterMap (entryOf sha256 md5 finds world directory boundary)) := by
  unfold absentOf
  induction references using List.reverseRecOn generalizing absent with
  | nil =>
      rw [List.foldlM_nil, show (pure [] : Except Refusal (List (Text × Artifact × Path))) = .ok [] from rfl,
        Except.ok.injEq, eq_comm]
      exact (and_iff_right fun _ h => absurd h List.not_mem_nil).symm
  | append_singleton references artifact ih =>
      rw [List.foldlM_append, List.forall_mem_append, List.forall_mem_singleton, List.filterMap_append]
      cases hrun : references.foldlM (fun absent reference =>
          (examined sha256 md5 finds world directory boundary reference).map (noted absent reference)) [] with
      | error refusal =>
          refine iff_of_false (fun h => by cases h) fun h => ?_
          have hall := (@ih (OrderedMap.ofPairs (references.filterMap
            (entryOf sha256 md5 finds world directory boundary)))).mpr ⟨h.1.1, rfl⟩
          rw [hrun] at hall
          cases hall
      | ok before =>
          obtain ⟨hbefore, rfl⟩ := ih.mp hrun
          change ([artifact].foldlM (fun absent reference =>
            (examined sha256 md5 finds world directory boundary reference).map (noted absent reference)) _) = _ ↔ _
          simp only [List.foldlM_cons, List.foldlM_nil, bind_pure]
          rw [and_assoc, and_iff_right hbefore]
          cases hone : examined sha256 md5 finds world directory boundary artifact with
          | error refusal => exact iff_of_false (fun h => by cases h) fun h => by cases h.1.choose_spec
          | ok answer =>
              rw [and_iff_right ⟨answer, rfl⟩]
              change Except.ok _ = Except.ok _ ↔ _
              rw [Except.ok.injEq, eq_comm]
              cases answer with
              | none =>
                  have hentry : entryOf sha256 md5 finds world directory boundary artifact = none := by
                    rw [entryOf, hone]
                  rw [List.filterMap_cons_none hentry, List.filterMap_nil, List.append_nil]
                  rfl
              | some root =>
                  have hentry : entryOf sha256 md5 finds world directory boundary artifact =
                      some (artifact.sha256, artifact, root) := by
                    rw [entryOf, hone]
                  rw [List.filterMap_cons_some hentry, List.filterMap_nil, OrderedMap.ofPairs_snoc]
                  rfl

theorem entryOf_eq_some {artifact : Artifact} {entry : Text × Artifact × Path} :
    entryOf sha256 md5 finds world directory boundary artifact = some entry ↔ ∃ root,
      examined sha256 md5 finds world directory boundary artifact = .ok (some root) ∧
        entry = (artifact.sha256, artifact, root) := by
  unfold entryOf
  constructor
  · intro h
    split at h
    · next root hone => exact ⟨root, hone, (Option.some.inj h).symm⟩
    · cases h
  · rintro ⟨root, hone, rfl⟩
    rw [hone]

/-- The absent references kept are those no later one overwrites. -/
theorem mem_absent (hnodup : references.Nodup) {artifact : Artifact} {root : Path} :
    (artifact.sha256, artifact, root) ∈ OrderedMap.ofPairs
        (references.filterMap (entryOf sha256 md5 finds world directory boundary)) ↔
      artifact ∈ references ∧ examined sha256 md5 finds world directory boundary artifact = .ok (some root) ∧
        ¬ Overwritten world directory boundary references artifact := by
  rw [OrderedMap.mem_ofPairs]
  constructor
  · rintro ⟨before, after, hpairs, hlater⟩
    obtain ⟨early, rest, rfl, -, hrest⟩ := List.filterMap_eq_append_iff.mp hpairs
    obtain ⟨skipped, other, late, rfl, -, hentry, rfl⟩ := List.filterMap_eq_cons_iff.mp hrest
    obtain ⟨place, hone, heq⟩ := entryOf_eq_some.mp hentry
    obtain ⟨-, heq⟩ := Prod.mk.inj heq
    obtain ⟨rfl, rfl⟩ := Prod.mk.inj heq
    refine ⟨by simp, hone, ?_⟩
    rintro ⟨-, first, last, hsplit, next, hnext, habsent, hsame⟩
    rw [← List.append_assoc] at hsplit hnodup
    have hdistinct := List.nodup_append.mp hnodup
    have hnot : artifact ∉ early ++ skipped := fun hmem => hdistinct.2.2 _ hmem _ List.mem_cons_self rfl
    obtain ⟨-, -, rfl⟩ := (List.append_cons_inj_of_notMem hnot (List.nodup_cons.mp hdistinct.2.1).1).mp hsplit
    obtain ⟨spot, hspot⟩ := @examined_of_absent _ _ sha256 md5 finds _ _ _ _ habsent
    exact hlater (next.sha256, next, spot)
      (List.mem_filterMap.mpr ⟨next, hnext, entryOf_eq_some.mpr ⟨spot, hspot, rfl⟩⟩) hsame
  · rintro ⟨hmem, hone, hkept⟩
    obtain ⟨before, after, rfl⟩ := List.append_of_mem hmem
    refine ⟨before.filterMap (entryOf sha256 md5 finds world directory boundary),
      after.filterMap (entryOf sha256 md5 finds world directory boundary), ?_, ?_⟩
    · rw [List.filterMap_append, List.filterMap_cons_some (entryOf_eq_some.mpr ⟨root, hone, rfl⟩)]
    · intro later hlater hsame
      obtain ⟨other, hother, hentry⟩ := List.mem_filterMap.mp hlater
      obtain ⟨spot, hspot, rfl⟩ := entryOf_eq_some.mp hentry
      obtain ⟨relative, hpath, hroot, hinside, hexist⟩ := examined_absent hone
      obtain ⟨relative', hpath', hroot', hinside', hexist'⟩ := examined_absent hspot
      exact hkept ⟨⟨relative, root, hpath, hroot, hinside, hexist⟩, before, after, rfl, other, hother,
        ⟨relative', spot, hpath', hroot', hinside', hexist'⟩, hsame⟩

/-- A check goes through exactly when every reference that no later one overwrites resolves on its own. -/
theorem verify_eq_ok {arranged : List Artifact → List Artifact} {receipts : List Receipt} {named : List Artifact}
    (hinside : boundary <+: directory) (hnamed : namedBy receipts = some named) (hnodup : (arranged named).Nodup) :
    verify sha256 md5 finds world arranged directory boundary receipts = .ok () ↔ ∀ artifact ∈ arranged named,
      ¬ Overwritten world directory boundary (arranged named) artifact →
        Resolves sha256 md5 finds world directory boundary artifact := by
  have hpairs := @mem_absent _ _ sha256 md5 finds world directory boundary (arranged named) hnodup
  generalize hkept : OrderedMap.ofPairs ((arranged named).filterMap (entryOf sha256 md5 finds world directory boundary)) =
    kept at hpairs
  have hkeys : ∀ entry ∈ kept, entry.1 = entry.2.1.sha256 := by
    intro entry hentry
    rw [← hkept, OrderedMap.mem_ofPairs] at hentry
    obtain ⟨before, after, hsplit, -⟩ := hentry
    have hmem : entry ∈ (arranged named).filterMap (entryOf sha256 md5 finds world directory boundary) := by
      rw [hsplit]
      exact List.mem_append_right _ List.mem_cons_self
    obtain ⟨artifact, -, hone⟩ := List.mem_filterMap.mp hmem
    obtain ⟨root, -, rfl⟩ := entryOf_eq_some.mp hone
    rfl
  have hvalues : ∀ value, value ∈ kept.map (·.2) ↔ (value.1.sha256, value) ∈ kept := by
    intro value
    constructor
    · intro h
      obtain ⟨entry, hentry, rfl⟩ := List.mem_map.mp h
      rw [← hkeys entry hentry]
      exact hentry
    · exact fun h => List.mem_map.mpr ⟨_, h, rfl⟩
  have hdigests : ((kept.map (·.2)).map fun value : Artifact × Path => value.1.sha256).Nodup := by
    have hsame : (kept.map (·.2)).map (fun value : Artifact × Path => value.1.sha256) = kept.map (·.1) := by
      rw [List.map_map]
      exact List.map_congr_left fun entry hentry => (hkeys entry hentry).symm
    rw [hsame, ← hkept]
    exact OrderedMap.nodup_keys_ofPairs _
  have hstart : boundary.isPrefixOf directory = true := List.isPrefixOf_iff_prefix.mpr hinside
  unfold verify
  rw [hstart, hnamed, if_neg (by decide)]
  dsimp only
  constructor
  · intro h artifact hartifact hlast
    cases habsent : absentOf sha256 md5 finds world directory boundary (arranged named) with
    | error refusal =>
        rw [habsent] at h
        cases h
    | ok absent =>
        rw [habsent] at h
        obtain ⟨hall, rfl⟩ := absentOf_eq_ok.mp habsent
        rw [hkept] at h
        dsimp only [Except.bind] at h
        cases hcollected : (kept.map (·.2)).foldlM (collected sha256 finds world) [] with
        | error refusal =>
            rw [hcollected] at h
            cases h
        | ok recalled =>
            rw [hcollected] at h
            dsimp only at h
            obtain ⟨htaken, rfl⟩ := (collected_eq_ok hdigests).mp hcollected
            have hlakes := (recalled_eq_ok hdigests).mp h
            obtain ⟨answer, hone⟩ := hall artifact hartifact
            cases answer with
            | none =>
                rcases examined_ok.mp ⟨none, hone⟩ with hgone | hresolves
                · obtain ⟨root, hsome⟩ := @examined_of_absent _ _ sha256 md5 finds _ _ _ _ hgone
                  rw [hone] at hsome
                  cases hsome
                · exact hresolves
            | some root =>
                have hin := (hvalues (artifact, root)).mpr (hpairs.mpr ⟨hartifact, hone, hlast⟩)
                exact (resolves_absent hone).mpr ⟨htaken _ hin, hlakes _ hin⟩
  · intro h
    have hall : ∀ artifact ∈ arranged named, ∃ answer,
        examined sha256 md5 finds world directory boundary artifact = .ok answer := by
      intro artifact hartifact
      refine examined_ok.mpr ?_
      by_cases hlast : Overwritten world directory boundary (arranged named) artifact
      · exact .inl hlast.1
      · exact .inr (h artifact hartifact hlast)
    have hboth : ∀ value ∈ kept.map (·.2), (Missing finds world value = true ∨
        ∃ data given, value.1.held finds world value.2 = .ok data ∧ value.1.checked sha256 data = .ok given) ∧
        (Missing finds world value = true → ∃ data, world.recall sha256 md5 value.2 value.1.sha256 = some data ∧
          ∃ given, value.1.checked sha256 data = .ok given) := by
      rintro ⟨artifact, root⟩ hvalue
      obtain ⟨hartifact, hone, hlast⟩ := hpairs.mp ((hvalues _).mp hvalue)
      exact (resolves_absent hone).mp (h artifact hartifact hlast)
    rw [absentOf_eq_ok.mpr ⟨hall, rfl⟩, hkept]
    dsimp only [Except.bind]
    rw [(collected_eq_ok hdigests).mpr ⟨fun value hvalue => (hboth value hvalue).1, rfl⟩]
    exact (recalled_eq_ok hdigests).mpr fun value hvalue => (hboth value hvalue).2

/-- The world with another file tree. -/
def World.reading (world : World Sum) (exist : Path → Bool) (file : Path → Reading) : World Sum :=
  { world with exist := exist, file := file }

section Reading

variable {exist : Path → Bool} {file : Path → Reading}
  (hagree : ∀ path, world.inside directory path = true → exist path = world.exist path ∧ file path = world.file path)

include hagree

omit [DecidableEq Sum] in
theorem held_reading {artifact : Artifact} {relative root : Path} (hpath : relativePath artifact.path = .ok relative)
    (hinside : world.inside directory (root ++ relative) = true) :
    artifact.held finds (world.reading exist file) root = artifact.held finds world root := by
  unfold Artifact.held
  rw [hpath]
  dsimp only [Except.bind, World.reading]
  rw [(hagree _ hinside).2]

theorem examined_reading (artifact : Artifact) : examined sha256 md5 finds (world.reading exist file) directory boundary artifact =
    examined sha256 md5 finds world directory boundary artifact := by
  unfold examined
  cases hpath : relativePath artifact.path with
  | error refusal => rfl
  | ok relative =>
      dsimp only [Except.bind]
      cases rootFor directory boundary relative with
      | none => rfl
      | some root =>
          dsimp only
          change (if (!world.inside directory (root ++ relative)) = true then _ else _) = _
          cases hinside : world.inside directory (root ++ relative) with
          | false => rfl
          | true =>
              have hread : artifact.read sha256 md5 finds (world.reading exist file) root =
                  artifact.read sha256 md5 finds world root := by
                unfold Artifact.read Artifact.found
                rw [held_reading hagree hpath hinside]
                rfl
              have hexist : (world.reading exist file).exist (root ++ relative) = world.exist (root ++ relative) :=
                (hagree _ hinside).1
              rw [hread, hexist]

/-- No check depends on what stands where links leave the fetch. -/
theorem verify_reading (arranged : List Artifact → List Artifact) (receipts : List Receipt) :
    verify sha256 md5 finds (world.reading exist file) arranged directory boundary receipts =
      verify sha256 md5 finds world arranged directory boundary receipts := by
  unfold verify
  cases boundary.isPrefixOf directory with
  | false => rfl
  | true =>
      cases namedBy receipts with
      | none => rfl
      | some named =>
          have habsent : absentOf sha256 md5 finds (world.reading exist file) directory boundary (arranged named) =
              absentOf sha256 md5 finds world directory boundary (arranged named) := by
            refine ListReading.foldlM_congr fun artifact _ state => ?_
            rw [examined_reading hagree]
          rw [if_neg (by decide), if_neg (by decide)]
          dsimp only
          rw [habsent]
          cases hall : absentOf sha256 md5 finds world directory boundary (arranged named) with
          | error refusal => rfl
          | ok absent =>
              dsimp only [Except.bind]
              have hcollected : (absent.map (·.2)).foldlM (collected sha256 finds (world.reading exist file)) [] =
                  (absent.map (·.2)).foldlM (collected sha256 finds world) [] := by
                refine ListReading.foldlM_congr fun value hvalue state => ?_
                obtain ⟨entry, hentry, rfl⟩ := List.mem_map.mp hvalue
                rw [(absentOf_eq_ok.mp hall).2, OrderedMap.mem_ofPairs] at hentry
                obtain ⟨before, after, hsplit, -⟩ := hentry
                have hmem : entry ∈ (arranged named).filterMap (entryOf sha256 md5 finds world directory boundary) := by
                  rw [hsplit]
                  exact List.mem_append_right _ List.mem_cons_self
                obtain ⟨artifact, -, hone⟩ := List.mem_filterMap.mp hmem
                obtain ⟨root, hexamined, rfl⟩ := entryOf_eq_some.mp hone
                obtain ⟨relative, hpath, -, hinside, -⟩ := examined_absent hexamined
                unfold collected
                rw [held_reading hagree hpath hinside]
              rw [hcollected]
              rfl

end Reading

/-- What a check promises: it goes through exactly when every reference that a receipt names is valid and resolves on its
own, and it reads nothing where links leave the fetch. -/
def Verifies (sha256 : Bytes → Text) (md5 : Bytes → Sum) (finds : Folder → Folder → Bool) (world : World Sum)
    (arranged : List Artifact → List Artifact) (directory boundary : Path) (receipts : List Receipt) : Prop :=
  (verify sha256 md5 finds world arranged directory boundary receipts = .ok () ↔
    ∀ receipt ∈ receipts, ∀ value ∈ receipt, value ≠ .other → ∃ fields artifact, value = .reference fields ∧
      Artifact.validated fields = some artifact ∧ Resolves sha256 md5 finds world directory boundary artifact) ∧
  ∀ exist file, (∀ path, world.inside directory path = true → exist path = world.exist path ∧ file path = world.file path) →
    verify sha256 md5 finds (world.reading exist file) arranged directory boundary receipts =
      verify sha256 md5 finds world arranged directory boundary receipts

/-- The order a set of references is gone through in: each of them once. -/
def Arranges (arranged : List Artifact → List Artifact) : Prop :=
  ∀ named, (arranged named).Nodup ∧ ∀ artifact, artifact ∈ arranged named ↔ artifact ∈ named

theorem named_resolve {receipts : List Receipt} {named : List Artifact} {holds : Artifact → Prop}
    (h : namedBy receipts = some named) : (∀ receipt ∈ receipts, ∀ value ∈ receipt, value ≠ .other →
      ∃ fields artifact, value = .reference fields ∧ Artifact.validated fields = some artifact ∧ holds artifact) ↔
        ∀ artifact ∈ named, holds artifact := by
  constructor
  · intro hall artifact hartifact
    obtain ⟨value, hvalue, hread⟩ := ListReading.mem_of_mapM h hartifact
    obtain ⟨hflat, hother⟩ := List.mem_filter.mp hvalue
    obtain ⟨receipt, hreceipt, hin⟩ := List.mem_flatten.mp hflat
    obtain ⟨fields, own, rfl, hvalid, hholds⟩ := hall receipt hreceipt value hin (of_decide_eq_true hother)
    rw [← Option.some.inj (hvalid.symm.trans hread)]
    exact hholds
  · intro hall receipt hreceipt value hvalue hother
    have hin : value ∈ receipts.flatten.filter (· ≠ .other) :=
      List.mem_filter.mpr ⟨List.mem_flatten.mpr ⟨receipt, hreceipt, hvalue⟩, decide_eq_true hother⟩
    obtain ⟨artifact, hartifact, hread⟩ := ListReading.exists_of_mapM h hin
    cases value with
    | other => exact absurd rfl hother
    | malformed => cases hread
    | reference fields => exact ⟨fields, artifact, rfl, hread, hall artifact hartifact⟩

theorem named_none {receipts : List Receipt} {holds : Artifact → Prop} (h : namedBy receipts = none) :
    ¬ ∀ receipt ∈ receipts, ∀ value ∈ receipt, value ≠ .other →
      ∃ fields artifact, value = .reference fields ∧ Artifact.validated fields = some artifact ∧ holds artifact := by
  intro hall
  have hread : ∃ named, (receipts.flatten.filter (· ≠ .other)).mapM Value.artifact = some named := by
    refine ListReading.mapM_exists_iff.mpr fun value hvalue => ?_
    obtain ⟨hflat, hother⟩ := List.mem_filter.mp hvalue
    obtain ⟨receipt, hreceipt, hin⟩ := List.mem_flatten.mp hflat
    obtain ⟨fields, own, rfl, hvalid, -⟩ := hall receipt hreceipt value hin (of_decide_eq_true hother)
    exact ⟨own, hvalid⟩
  obtain ⟨named, hnamed⟩ := hread
  cases h.symm.trans hnamed

/-- A check keeps its promise exactly when, should every other reference resolve, those resolve too that are absent from
the fetch and have the digest of a later absent one. -/
theorem verify_sound_iff (sha256 : Bytes → Text) (md5 : Bytes → Sum) (finds : Folder → Folder → Bool) (world : World Sum)
    {arranged : List Artifact → List Artifact} (harranged : Arranges arranged) {directory boundary : Path}
    (hinside : boundary <+: directory) (receipts : List Receipt) :
    Verifies sha256 md5 finds world arranged directory boundary receipts ↔ ∀ named, namedBy receipts = some named →
      (∀ artifact ∈ named, ¬ Overwritten world directory boundary (arranged named) artifact →
        Resolves sha256 md5 finds world directory boundary artifact) →
      ∀ artifact ∈ named, Overwritten world directory boundary (arranged named) artifact →
        Resolves sha256 md5 finds world directory boundary artifact := by
  have hreading : ∀ exist file, (∀ path, world.inside directory path = true →
      exist path = world.exist path ∧ file path = world.file path) →
        verify sha256 md5 finds (world.reading exist file) arranged directory boundary receipts =
          verify sha256 md5 finds world arranged directory boundary receipts :=
    fun exist file hagree => verify_reading hagree arranged receipts
  unfold Verifies
  rw [and_iff_left hreading]
  cases hnamed : namedBy receipts with
  | none =>
      refine iff_of_true (iff_of_false (fun h => ?_) (named_none hnamed)) fun named h => by cases h
      unfold verify at h
      rw [hnamed] at h
      split at h <;> cases h
  | some named =>
      have hok := @verify_eq_ok _ _ sha256 md5 finds world directory boundary arranged receipts named hinside hnamed
        (harranged named).1
      simp only [(harranged named).2] at hok
      rw [hok, named_resolve hnamed]
      constructor
      · rintro h other hother hrest artifact hartifact -
        obtain rfl := Option.some.inj hother
        exact h.mp hrest artifact hartifact
      · intro h
        refine ⟨fun hrest artifact hartifact => ?_, fun hall artifact hartifact _ => hall artifact hartifact⟩
        by_cases hlast : Overwritten world directory boundary (arranged named) artifact
        · exact h named rfl hrest artifact hartifact hlast
        · exact hrest artifact hartifact hlast

end Check

/-! References with one digest between them -/

section Shelf

/-- Digests as hexadecimal text, of one object in 64 digits. -/
def stamped (bytes : Bytes) : Text := if bytes = [7] then List.replicate 64 '1' else '0' :: Provenance.hexOf bytes

theorem length_hexOf (bytes : Bytes) : (Provenance.hexOf bytes).length = 2 * bytes.length := by
  unfold Provenance.hexOf
  rw [List.length_flatMap]
  simp [List.map_const', mul_comm]

theorem stamped_injective : Function.Injective stamped := by
  intro one other h
  unfold stamped at h
  have hlength := congrArg List.length h
  split at h <;> split at h
  · next hone hother => rw [hone, hother]
  · next hone hother =>
      rw [if_pos hone, if_neg hother, List.length_replicate, List.length_cons, length_hexOf] at hlength
      omega
  · next hone hother =>
      rw [if_neg hone, if_pos hother, List.length_replicate, List.length_cons, length_hexOf] at hlength
      omega
  · exact Provenance.hexOf_injective (List.cons.inj h).2

/-- Nothing on disk, and one lake with one object. -/
def shelf : World ℕ where
  exist := fun _ => false
  file := fun _ => .absent
  resolve := id
  store := ⟨[], [], []⟩
  keepers := fun _ => [⟨[⟨List.replicate 64 '1', some 0, some [7]⟩], [], fun _ h => absurd h List.not_mem_nil⟩]

/-- A reference to the object of the shelf that gives it a size. -/
def claimed (size : ℤ) : Fields := ⟨['a'], List.replicate 64 '1', size, [], [], []⟩

theorem arranges_dedup : Arranges List.dedup := fun named => ⟨List.nodup_dedup named, fun _ => List.mem_dedup⟩

theorem verify_sound_single :
    Verifies stamped List.length (fun _ _ => true) shelf List.dedup [['w'], ['f']] [['w']] [[.reference (claimed 2), .reference (claimed 1)]] ↔
      ∀ named, namedBy [[.reference (claimed 2), .reference (claimed 1)]] = some named →
        (∀ artifact ∈ named, ¬ Overwritten shelf [['w'], ['f']] [['w']] named.dedup artifact →
          Resolves stamped List.length (fun _ _ => true) shelf [['w'], ['f']] [['w']] artifact) →
        ∀ artifact ∈ named, Overwritten shelf [['w'], ['f']] [['w']] named.dedup artifact →
          Resolves stamped List.length (fun _ _ => true) shelf [['w'], ['f']] [['w']] artifact :=
  verify_sound_iff stamped List.length (fun _ _ => true) shelf arranges_dedup ⟨[['f']], rfl⟩ [[.reference (claimed 2), .reference (claimed 1)]]

/-- Two references to one object, the earlier of a size that is not its own. -/
theorem verify_sound_fails : ¬ ∀ (sha256 : Bytes → Text) (md5 : Bytes → ℕ) (finds : Folder → Folder → Bool)
    (world : World ℕ) (arranged : List Artifact → List Artifact) (directory boundary : Path) (receipts : List Receipt),
      Function.Injective sha256 → Arranges arranged → boundary <+: directory →
        Verifies sha256 md5 finds world arranged directory boundary receipts := by
  intro hall
  have hverifies := hall stamped List.length (fun _ _ => true) shelf List.dedup [['w'], ['f']] [['w']]
    [[.reference (claimed 2), .reference (claimed 1)]] stamped_injective arranges_dedup ⟨[['f']], rfl⟩
  have hresolve := hverifies.1.mp (by decide +kernel) _ List.mem_cons_self _ List.mem_cons_self (by decide)
  obtain ⟨fields, artifact, hfields, hvalid, relative, root, data, -, -, -, -, hsize, hdigest⟩ := hresolve
  cases hfields
  have hartifact : Artifact.validated (claimed 2) =
      some ⟨['a'], List.replicate 64 '1', 2, [], [], [], by decide +kernel⟩ := by decide +kernel
  obtain rfl := Option.some.inj (hartifact.symm.trans hvalid)
  -- only the object itself has its digest, and it is one byte long
  have hseven : data = [7] := stamped_injective (hdigest.trans (if_pos rfl).symm)
  rw [hseven] at hsize
  cases hsize

end Shelf

end Mainboard.Artifacts
