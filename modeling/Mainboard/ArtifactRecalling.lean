import Mainboard.ArtifactVerifying
import Mainboard.ListReading

/-! Absent references read back: what the lakes around a root give of the objects wanted there, the first that holds each,
and what becomes of references of distinct digests once each is read under its root or left to those lakes. -/

namespace Mainboard.Artifacts

open Analysis (Text Bytes)

variable {Sum : Type} [DecidableEq Sum] {sha256 : Bytes → Text} {md5 : Bytes → Sum}

/-! Lakes -/

section Lakes

variable {lake : Blobs.Lake Text Sum} {lakes : List (Blobs.Lake Text Sum)} {digest : Text} {data : Bytes}
  {wanted : List (Text × ℕ)}

theorem nodup_keys_read (window : ℕ) (digests : List Text) : ((lake.read md5 sha256 window digests).map (·.1)).Nodup := by
  have hobjects : ((lake.objects md5 window digests).map (·.1)).Nodup := by
    unfold Blobs.Lake.objects
    dsimp only
    rw [List.map_append, List.map_map, List.map_map]
    have hself : ∀ (digests : List Text) (copies : Text → List (Blobs.Copy Text Sum)),
        digests.map ((fun object : Text × List (Blobs.Copy Text Sum) => object.1) ∘ fun digest => (digest, copies digest)) =
          digests := fun digests _ => List.map_id _
    rw [hself, hself]
    have hcounted := (List.nodup_dedup digests).filter fun digest => lake.blobs.any fun row => row.sha256 = digest
    refine List.nodup_append.mpr ⟨hcounted.filter _, hcounted.filter _, fun one hone other hother => ?_⟩
    rintro rfl
    have hsmall := of_decide_eq_true (List.mem_filter.mp hone).2
    have hlarge := of_decide_eq_true (List.mem_filter.mp hother).2
    omega
  refine hobjects.sublist ?_
  unfold Blobs.Lake.read
  generalize lake.objects md5 window digests = objects
  induction objects with
  | nil => exact List.Sublist.slnil
  | cons object objects ih =>
      rw [List.filterMap_cons]
      dsimp only
      cases (Blobs.verify sha256 object.1 object.2).1.intact with
      | true => exact ih.cons_cons _
      | false => exact ih.cons _

theorem held_eq_some : held sha256 md5 lake digest = some data ↔
    ∃ pieces, Blobs.Intact sha256 md5 lake digest pieces ∧ pieces.flatten = data := by
  unfold held
  constructor
  · intro h
    exact (Blobs.mem_read.mp (OrderedMap.mem_of_get h)).2
  · intro h
    exact OrderedMap.get_of_mem (nodup_keys_read _ _) (Blobs.mem_read.mpr ⟨List.mem_singleton_self digest, h⟩)

/-- What one lake gives of the objects wanted. -/
def foundIn (sha256 : Bytes → Text) (md5 : Bytes → Sum) (lake : Blobs.Lake Text Sum) (wanted : List (Text × ℕ)) :
    List (Text × Bytes) :=
  (Grouping.constrainedBatches (fun digest => (OrderedMap.get wanted digest).getD 0) windowBytes
    ((wanted.map (·.1)).insertionSort (· ≤ ·))).flatMap fun window => lake.read md5 sha256 stagedChunks window

theorem recalledFrom_cons : recalledFrom sha256 md5 (lake :: lakes) wanted = foundIn sha256 md5 lake wanted ++
    recalledFrom sha256 md5 lakes (wanted.filter fun entry => !(foundIn sha256 md5 lake wanted).any fun object =>
      object.1 = entry.1) := rfl

/-- A lake gives what is wanted of it and what it holds, however the windows fall. -/
theorem mem_foundIn : (digest, data) ∈ foundIn sha256 md5 lake wanted ↔
    digest ∈ wanted.map (·.1) ∧ held sha256 md5 lake digest = some data := by
  have hwindows : (∃ window ∈ Grouping.constrainedBatches (fun digest => (OrderedMap.get wanted digest).getD 0) windowBytes
      ((wanted.map (·.1)).insertionSort (· ≤ ·)), digest ∈ window) ↔ digest ∈ wanted.map (·.1) := by
    rw [← List.mem_flatten, Grouping.flatten_constrainedBatches, List.mem_insertionSort]
  rw [foundIn, List.mem_flatMap, held_eq_some, ← hwindows]
  simp only [Blobs.mem_read]
  constructor
  · rintro ⟨window, hwindow, hin, hintact⟩
    exact ⟨⟨window, hwindow, hin⟩, hintact⟩
  · rintro ⟨⟨window, hwindow, hin⟩, hintact⟩
    exact ⟨window, hwindow, hin, hintact⟩

theorem nodup_keys_foundIn (hwanted : (wanted.map (·.1)).Nodup) : ((foundIn sha256 md5 lake wanted).map (·.1)).Nodup := by
  have hflatten := Grouping.flatten_constrainedBatches (fun digest => (OrderedMap.get wanted digest).getD 0) windowBytes
    ((wanted.map (·.1)).insertionSort (· ≤ ·))
  have hwindows := (List.perm_insertionSort (· ≤ ·) (wanted.map (·.1))).nodup_iff.mpr hwanted
  rw [← hflatten, List.nodup_flatten] at hwindows
  rw [foundIn, List.map_flatMap, List.nodup_flatMap]
  refine ⟨fun window _ => nodup_keys_read _ _, hwindows.2.imp ?_⟩
  intro one other hdisjoint digest hone hother
  have hin : ∀ window, digest ∈ (lake.read md5 sha256 stagedChunks window).map (·.1) → digest ∈ window := by
    intro window hmem
    obtain ⟨object, hobject, rfl⟩ := List.mem_map.mp hmem
    exact (Blobs.mem_read.mp hobject).1
  exact hdisjoint (hin one hone) (hin other hother)

/-- The objects read back are those the first lake that holds them gives. -/
theorem mem_recalledFrom : (digest, data) ∈ recalledFrom sha256 md5 lakes wanted ↔
    digest ∈ wanted.map (·.1) ∧ (lakes.findSome? fun lake => held sha256 md5 lake digest) = some data := by
  induction lakes generalizing wanted with
  | nil => exact iff_of_false List.not_mem_nil fun h => by cases h.2
  | cons lake lakes ih =>
      have hleft : digest ∈ (wanted.filter fun entry => !(foundIn sha256 md5 lake wanted).any fun object =>
          object.1 = entry.1).map (·.1) ↔ digest ∈ wanted.map (·.1) ∧ held sha256 md5 lake digest = none := by
        have hany : ∀ entry ∈ wanted, ((foundIn sha256 md5 lake wanted).any fun object => object.1 = entry.1) = false ↔
            held sha256 md5 lake entry.1 = none := by
          intro entry hentry
          rw [List.any_eq_false, Option.eq_none_iff_forall_not_mem]
          constructor
          · intro h bytes hbytes
            exact h (entry.1, bytes) (mem_foundIn.mpr ⟨List.mem_map_of_mem hentry, hbytes⟩) (decide_eq_true rfl)
          · rintro h ⟨key, bytes⟩ hobject hkey
            have hsame : key = entry.1 := of_decide_eq_true hkey
            rw [hsame] at hobject
            exact h bytes (mem_foundIn.mp hobject).2
        constructor
        · intro h
          obtain ⟨entry, hentry, rfl⟩ := List.mem_map.mp h
          obtain ⟨hin, hnot⟩ := List.mem_filter.mp hentry
          exact ⟨List.mem_map_of_mem hin, (hany entry hin).mp (by simpa using hnot)⟩
        · rintro ⟨h, hnone⟩
          obtain ⟨entry, hin, rfl⟩ := List.mem_map.mp h
          exact List.mem_map.mpr ⟨entry, List.mem_filter.mpr ⟨hin, by rw [(hany entry hin).mpr hnone]; rfl⟩, rfl⟩
      rw [recalledFrom_cons, List.mem_append, mem_foundIn, ih, hleft, List.findSome?_cons]
      cases held sha256 md5 lake digest with
      | none => simp
      | some own => simp

theorem nodup_keys_recalledFrom (hwanted : (wanted.map (·.1)).Nodup) :
    ((recalledFrom sha256 md5 lakes wanted).map (·.1)).Nodup := by
  induction lakes generalizing wanted with
  | nil => exact List.nodup_nil
  | cons lake lakes ih =>
      rw [recalledFrom_cons, List.map_append]
      refine List.nodup_append.mpr ⟨nodup_keys_foundIn hwanted, ih (hwanted.sublist (List.filter_sublist.map _)), ?_⟩
      intro one hone other hother
      rintro rfl
      obtain ⟨⟨key, bytes⟩, hobject, rfl⟩ := List.mem_map.mp hother
      obtain ⟨entry, hentry, hkey⟩ := List.mem_map.mp (mem_recalledFrom.mp hobject).1
      obtain ⟨object, hobject', hsame⟩ := List.mem_map.mp hone
      have hnot := (List.mem_filter.mp hentry).2
      rw [Bool.not_eq_true', List.any_eq_false] at hnot
      exact hnot object hobject' (decide_eq_true (hsame.trans hkey.symm))

end Lakes

/-! One root's objects checked -/

section Popped

variable {wanted left : List (Text × Artifact)} {found : List (Text × Bytes)} {world : World Sum} {root : Path}
  {artifact : Artifact} {data : Bytes}

theorem checked_eq_ok {given : Bytes} : artifact.checked sha256 data = .ok given ↔
    given = data ∧ data.length = artifact.size ∧ sha256 data = artifact.sha256 := by
  unfold Artifact.checked
  split
  · next h =>
      refine iff_of_false (fun heq => by cases heq) ?_
      rintro ⟨-, hsize, hdigest⟩
      exact h.elim (fun hne => hne hsize) fun hne => hne hdigest
  · next h =>
      rw [not_or, not_not, not_not] at h
      rw [Except.ok.injEq, eq_comm]
      exact (and_iff_left h).symm

/-- The objects found are checked each against the reference of its digest, and what was not found is left. -/
theorem popped_eq_ok (hwanted : (wanted.map (·.1)).Nodup) (hfound : (found.map (·.1)).Nodup)
    (hin : ∀ object ∈ found, object.1 ∈ wanted.map (·.1)) : popped sha256 wanted found = .ok left ↔
      (∀ object ∈ found, ∀ entry ∈ wanted, entry.1 = object.1 → ∃ given, entry.2.checked sha256 object.2 = .ok given) ∧
        left = wanted.filter fun entry => !found.any fun object => object.1 = entry.1 := by
  induction found generalizing wanted with
  | nil =>
      have hall : wanted.filter (fun entry => !([] : List (Text × Bytes)).any fun object => object.1 = entry.1) = wanted :=
        List.filter_eq_self.mpr fun _ _ => rfl
      rw [popped, hall, Except.ok.injEq, eq_comm]
      exact (and_iff_right fun _ h => absurd h List.not_mem_nil).symm
  | cons object found ih =>
      obtain ⟨digest, data⟩ := object
      rw [List.map_cons, List.nodup_cons] at hfound
      obtain ⟨entry, hentry, hkey⟩ := List.mem_map.mp (hin (digest, data) List.mem_cons_self)
      obtain ⟨key, artifact⟩ := entry
      dsimp only at hkey
      subst hkey
      have hget := OrderedMap.get_of_mem hwanted hentry
      dsimp only at hget
      have hothers : ∀ other ∈ found, other.1 ≠ key := fun other hother heq =>
        hfound.1 (heq ▸ List.mem_map.mpr ⟨other, hother, rfl⟩)
      have hrest := @ih (wanted.filter fun entry => entry.1 ≠ key) (hwanted.sublist (List.filter_sublist.map _))
        hfound.2 (fun other hother => by
          obtain ⟨held, hheld, hsame⟩ := List.mem_map.mp (hin other (List.mem_cons_of_mem _ hother))
          refine List.mem_map.mpr ⟨held, List.mem_filter.mpr ⟨hheld, decide_eq_true ?_⟩, hsame⟩
          rw [hsame]
          exact hothers other hother)
      have hleft : (wanted.filter fun entry => entry.1 ≠ key).filter (fun entry => !found.any fun object =>
          object.1 = entry.1) = wanted.filter fun entry => !((key, data) :: found).any fun object => object.1 = entry.1 := by
        rw [List.filter_filter]
        refine List.filter_congr fun entry _ => ?_
        rw [List.any_cons, Bool.not_or, Bool.and_comm]
        by_cases heq : entry.1 = key
        · simp [heq]
        · simp [heq, Ne.symm heq]
      have hchecks : (∀ object ∈ found, ∀ entry ∈ wanted.filter (fun entry => entry.1 ≠ key), entry.1 = object.1 →
          ∃ given, entry.2.checked sha256 object.2 = .ok given) ↔ ∀ object ∈ found, ∀ entry ∈ wanted,
            entry.1 = object.1 → ∃ given, entry.2.checked sha256 object.2 = .ok given := by
        refine forall₂_congr fun object hobject => ⟨fun h entry hentry hsame => ?_, fun h entry hentry => ?_⟩
        · exact h entry (List.mem_filter.mpr ⟨hentry, decide_eq_true (by rw [hsame]; exact hothers object hobject)⟩) hsame
        · exact h entry (List.mem_filter.mp hentry).1
      rw [hchecks, hleft] at hrest
      rw [popped, hget, List.forall_mem_cons]
      have hown : (∀ entry ∈ wanted, entry.1 = key → ∃ given, entry.2.checked sha256 data = .ok given) ↔
          ∃ given, artifact.checked sha256 data = .ok given := by
        constructor
        · intro h
          exact h (key, artifact) hentry rfl
        · rintro h ⟨other, held⟩ hheld hsame
          dsimp only at hsame
          subst hsame
          have hsame := (OrderedMap.get_of_mem hwanted hheld).symm.trans hget
          rw [Option.some.injEq] at hsame
          dsimp only at hsame ⊢
          rw [hsame]
          exact h
      dsimp only
      rw [hown, and_assoc, ← hrest]
      cases artifact.checked sha256 data with
      | error refusal => exact iff_of_false (fun h => by cases h) fun h => by cases h.1.choose_spec
      | ok given => exact (and_iff_right ⟨given, rfl⟩).symm

/-- One root's wanted references pass exactly when a lake around it holds each, in the size it names. -/
theorem recallAt_eq_ok {group : Path × List (Text × Artifact)} (hkeys : (group.2.map (·.1)).Nodup) :
    recallAt sha256 md5 world group = .ok () ↔ ∀ entry ∈ group.2, ∃ data,
      world.recall sha256 md5 group.1 entry.1 = some data ∧ ∃ given, entry.2.checked sha256 data = .ok given := by
  have hsizes : (group.2.map fun entry => (entry.1, entry.2.size)).map (·.1) = group.2.map (·.1) := by
    rw [List.map_map]
    rfl
  have hmem : ∀ object, object ∈ recalledFrom sha256 md5 (world.keepers group.1)
      (group.2.map fun entry => (entry.1, entry.2.size)) ↔ object.1 ∈ group.2.map (·.1) ∧
        world.recall sha256 md5 group.1 object.1 = some object.2 := by
    rintro ⟨digest, data⟩
    rw [mem_recalledFrom, hsizes]
    rfl
  have hpopped := fun left => @popped_eq_ok sha256 group.2 left (recalledFrom sha256 md5 (world.keepers group.1)
    (group.2.map fun entry => (entry.1, entry.2.size))) hkeys (nodup_keys_recalledFrom (by rw [hsizes]; exact hkeys))
    fun object hobject => ((hmem object).mp hobject).1
  unfold recallAt
  dsimp only
  constructor
  · intro h entry hentry
    cases hall : popped sha256 group.2 (recalledFrom sha256 md5 (world.keepers group.1)
        (group.2.map fun entry => (entry.1, entry.2.size))) with
    | error refusal =>
        rw [hall] at h
        cases h
    | ok left =>
        rw [hall] at h
        obtain ⟨hchecked, hleft⟩ := (hpopped left).mp hall
        have hnil : left = [] := by
          by_contra hne
          change (if left = [] then Except.ok () else Except.error Refusal.missing) = .ok () at h
          rw [if_neg hne] at h
          cases h
        rw [hnil] at hleft
        have hfound := List.filter_eq_nil_iff.mp hleft.symm entry hentry
        rw [Bool.not_eq_true', Bool.not_eq_false, List.any_eq_true] at hfound
        obtain ⟨object, hobject, hsame⟩ := hfound
        have hsame := of_decide_eq_true hsame
        have hrecall := ((hmem object).mp hobject).2
        rw [hsame] at hrecall
        exact ⟨object.2, hrecall, hchecked object hobject entry hentry hsame.symm⟩
  · intro h
    have hall := (hpopped (group.2.filter fun entry => !(recalledFrom sha256 md5 (world.keepers group.1)
      (group.2.map fun entry => (entry.1, entry.2.size))).any fun object => object.1 = entry.1)).mpr
      ⟨fun object hobject entry hentry hsame => ?_, rfl⟩
    · rw [hall]
      have hnil : (group.2.filter fun entry => !(recalledFrom sha256 md5 (world.keepers group.1)
          (group.2.map fun entry => (entry.1, entry.2.size))).any fun object => object.1 = entry.1) = [] := by
        refine List.filter_eq_nil_iff.mpr fun entry hentry => ?_
        obtain ⟨data, hrecall, -⟩ := h entry hentry
        rw [Bool.not_eq_true', Bool.not_eq_false, List.any_eq_true]
        exact ⟨(entry.1, data), (hmem _).mpr ⟨List.mem_map_of_mem hentry, hrecall⟩, decide_eq_true rfl⟩
      rw [hnil]
      rfl
    · obtain ⟨data, hrecall, hchecked⟩ := h entry hentry
      have hown := ((hmem object).mp hobject).2
      rw [← hsame, hrecall, Option.some.injEq] at hown
      rw [← hown]
      exact hchecked

end Popped

/-! Absent references -/

section Absent

variable {finds : Folder → Folder → Bool} {world : World Sum} {values : List (Artifact × Path)}
  {recalled : List (Path × List (Text × Artifact))}

/-- A reference that neither its root's tree nor an archive there holds. -/
def Missing (finds : Folder → Folder → Bool) (world : World Sum) (value : Artifact × Path) : Bool :=
  value.1.held finds world value.2 = .error .missing

/-- What is left to the lakes, by root and digest. -/
def leftOf (finds : Folder → Folder → Bool) (world : World Sum) (values : List (Artifact × Path)) :
    List (Path × Text × Artifact) :=
  (values.filter (Missing finds world)).map fun value => (value.2, value.1.sha256, value.1)

section Step

variable {value : Artifact × Path} {data : Bytes} {refusal : Refusal}

omit [DecidableEq Sum] in
theorem collected_held (h : value.1.held finds world value.2 = .ok data) :
    collected sha256 finds world recalled value = (value.1.checked sha256 data).map fun _ => recalled := by
  rw [collected, h]

omit [DecidableEq Sum] in
theorem collected_missing (h : value.1.held finds world value.2 = .error .missing) :
    collected sha256 finds world recalled value = .ok (OrderedMap.put recalled value.2
      (OrderedMap.put ((OrderedMap.get recalled value.2).getD []) value.1.sha256 value.1)) := by
  rw [collected, h]

omit [DecidableEq Sum] in
theorem collected_refused (h : value.1.held finds world value.2 = .error refusal) (hne : refusal ≠ .missing) :
    collected sha256 finds world recalled value = .error refusal := by
  unfold collected
  rw [h]
  cases refusal <;> first | rfl | exact absurd rfl hne

end Step

omit [DecidableEq Sum] in
/-- Absent references of distinct digests are each read under their root or left to the lakes around it. -/
theorem collected_eq_ok (hkeys : (values.map fun value => value.1.sha256).Nodup) :
    values.foldlM (collected sha256 finds world) [] = .ok recalled ↔
      (∀ value ∈ values, Missing finds world value = true ∨
        ∃ data given, value.1.held finds world value.2 = .ok data ∧ value.1.checked sha256 data = .ok given) ∧
      recalled = OrderedMap.gather (leftOf finds world values) := by
  induction values using List.reverseRecOn generalizing recalled with
  | nil =>
      rw [List.foldlM_nil, show (pure [] : Except Refusal (List (Path × List (Text × Artifact)))) = .ok [] from rfl,
        Except.ok.injEq, eq_comm]
      exact (and_iff_right fun _ h => absurd h List.not_mem_nil).symm
  | append_singleton values value ih =>
      rw [List.map_append, List.nodup_append] at hkeys
      have hfresh : ∀ other ∈ values, other.1.sha256 ≠ value.1.sha256 := fun other hother =>
        hkeys.2.2 _ (List.mem_map.mpr ⟨other, hother, rfl⟩) _ List.mem_cons_self
      rw [List.foldlM_append, List.forall_mem_append, List.forall_mem_singleton]
      cases hrun : values.foldlM (collected sha256 finds world) [] with
      | error refusal =>
          refine iff_of_false (fun h => by cases h) fun h => ?_
          have hall := (@ih (OrderedMap.gather (leftOf finds world values)) hkeys.1).mpr ⟨h.1.1, rfl⟩
          rw [hrun] at hall
          cases hall
      | ok before =>
          obtain ⟨hbefore, rfl⟩ := (ih hkeys.1).mp hrun
          change ([value].foldlM (collected sha256 finds world) _) = _ ↔ _
          simp only [List.foldlM_cons, List.foldlM_nil, bind_pure]
          rw [and_assoc, and_iff_right hbefore]
          cases hheld : value.1.held finds world value.2 with
          | ok data =>
              have hmissing : Missing finds world value = false := by
                unfold Missing
                rw [hheld]
                rfl
              have hleft : leftOf finds world (values ++ [value]) = leftOf finds world values := by
                rw [leftOf, List.filter_append, List.filter_cons_of_neg (by rw [hmissing]; decide), List.filter_nil,
                  List.append_nil]
                rfl
              rw [collected_held hheld, hmissing, hleft]
              cases hchecked : value.1.checked sha256 data with
              | error refusal =>
                  refine iff_of_false (fun h => by cases h) ?_
                  rintro ⟨h | ⟨other, given, hother, hgiven⟩, -⟩
                  · cases h
                  · rw [← Except.ok.inj hother, hchecked] at hgiven
                    cases hgiven
              | ok given =>
                  change Except.ok _ = Except.ok _ ↔ _
                  rw [Except.ok.injEq, eq_comm]
                  exact (and_iff_right (.inr ⟨data, given, rfl, hchecked⟩)).symm
          | error refusal =>
              by_cases hsame : refusal = .missing
              · subst hsame
                have hmissing : Missing finds world value = true := by
                  unfold Missing
                  rw [hheld]
                  rfl
                have hleft : leftOf finds world (values ++ [value]) =
                    leftOf finds world values ++ [(value.2, value.1.sha256, value.1)] := by
                  rw [leftOf, List.filter_append, List.filter_cons_of_pos hmissing, List.map_append]
                  rfl
                -- its digest is new to its root
                have hnew : value.1.sha256 ∉ ((OrderedMap.get (OrderedMap.gather (leftOf finds world values)) value.2).getD
                    []).map (·.1) := by
                  rw [OrderedMap.getD_gather, List.map_map]
                  intro hmem
                  obtain ⟨pair, hpair, heq⟩ := List.mem_map.mp hmem
                  obtain ⟨other, hother, rfl⟩ := List.mem_map.mp (List.mem_filter.mp hpair).1
                  exact hfresh other (List.mem_filter.mp hother).1 heq
                rw [collected_missing hheld, hmissing, hleft, OrderedMap.gather_snoc, OrderedMap.put_of_not_mem hnew,
                  Except.ok.injEq, eq_comm]
                exact (and_iff_right (.inl rfl)).symm
              · have hmissing : Missing finds world value = false := by
                  unfold Missing
                  rw [hheld]
                  exact decide_eq_false fun h => hsame (Except.error.inj h)
                rw [collected_refused hheld hsame, hmissing]
                refine iff_of_false (fun h => by cases h) ?_
                rintro ⟨h | ⟨other, given, hother, -⟩, -⟩
                · cases h
                · cases hother

/-- What is left passes exactly when a lake around its root holds each. -/
theorem recalled_eq_ok (hkeys : (values.map fun value => value.1.sha256).Nodup) :
    (OrderedMap.gather (leftOf finds world values)).forM (recallAt sha256 md5 world) = .ok () ↔
      ∀ value ∈ values, Missing finds world value = true → ∃ data,
        world.recall sha256 md5 value.2 value.1.sha256 = some data ∧ ∃ given, value.1.checked sha256 data = .ok given := by
  have hgroup : ∀ group ∈ OrderedMap.gather (leftOf finds world values), (group.2.map (·.1)).Nodup := by
    intro group hgroup
    rw [(OrderedMap.mem_gather _ hgroup).1, List.map_map]
    refine List.Nodup.sublist ?_ hkeys
    have hleft : (leftOf finds world values).map (fun pair => pair.2.1) =
        (values.filter (Missing finds world)).map fun value => value.1.sha256 := by
      rw [leftOf, List.map_map]
      rfl
    refine (List.filter_sublist.map _).trans ?_
    change ((leftOf finds world values).map fun pair => pair.2.1).Sublist _
    rw [hleft]
    exact List.filter_sublist.map _
  rw [ListReading.forM_ok_iff]
  constructor
  · intro h value hvalue hmissing
    have hpair : (value.2, value.1.sha256, value.1) ∈ leftOf finds world values :=
      List.mem_map.mpr ⟨value, List.mem_filter.mpr ⟨hvalue, hmissing⟩, rfl⟩
    obtain ⟨group, hin, hroot⟩ := List.mem_map.mp
      ((OrderedMap.mem_keys_gather _ value.2).mpr (List.mem_map.mpr ⟨_, hpair, rfl⟩))
    have hentry : (value.1.sha256, value.1) ∈ group.2 := by
      rw [(OrderedMap.mem_gather _ hin).1, hroot]
      exact List.mem_map.mpr ⟨_, List.mem_filter.mpr ⟨hpair, decide_eq_true rfl⟩, rfl⟩
    have hone := (recallAt_eq_ok (hgroup group hin)).mp (h group hin) _ hentry
    rwa [hroot] at hone
  · intro h group hin
    refine (recallAt_eq_ok (hgroup group hin)).mpr fun entry hentry => ?_
    rw [(OrderedMap.mem_gather _ hin).1] at hentry
    obtain ⟨pair, hpair, rfl⟩ := List.mem_map.mp hentry
    obtain ⟨hmem, hroot⟩ := List.mem_filter.mp hpair
    obtain ⟨value, hvalue, rfl⟩ := List.mem_map.mp hmem
    obtain ⟨hvalue, hmissing⟩ := List.mem_filter.mp hvalue
    rw [← of_decide_eq_true hroot]
    exact h value hvalue hmissing

end Absent

end Mainboard.Artifacts
