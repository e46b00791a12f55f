import Mainboard.BlobRows

/-! What the verifier calls intact: the rows of an object are the chunks of one byte string, each ordinal
from zero at least once, every copy and every recorded checksum that chunk's own, and the whole hashes
to the object's name. Both ways of reading the copies judge alike. -/

namespace Mainboard.Blobs

variable {Digest Sum : Type}

/-- An object kept whole as `pieces`. -/
structure Intact (sha256 : Bytes → Digest) (md5 : Bytes → Sum) (lake : Lake Digest Sum) (digest : Digest)
    (pieces : List Bytes) : Prop where
  kept : pieces ≠ []
  /-- Every copy is of a chunk of the object, and holds that chunk's bytes. -/
  agree : ∀ row ∈ lake.blobs, row.sha256 = digest →
    ∃ (ordinal : ℕ) (piece : Bytes), row.number = ordinal ∧ pieces[ordinal]? = some piece ∧ row.bytes = some piece
  /-- No chunk is missing. -/
  contiguous : ∀ ordinal < pieces.length, ∃ row ∈ lake.blobs, row.sha256 = digest ∧ row.number = (ordinal : Int)
  /-- Every checksum recorded for a chunk is its own. -/
  checked : ∀ recorded ∈ lake.checksums, recorded.sha256 = digest → ∀ (ordinal : ℕ) (piece : Bytes),
    recorded.ordinal = ordinal → pieces[ordinal]? = some piece → recorded.md5 = md5 piece
  whole : sha256 pieces.flatten = digest

/-- An object the lake holds whole. -/
abbrev Whole (md5 : Bytes → Sum) (sha256 : Bytes → Digest) (lake : Lake Digest Sum) (digest : Digest) : Prop :=
  ∃ pieces, Intact sha256 md5 lake digest pieces

/-- Runs of copies that are `pieces` from ordinal `first` on. -/
inductive Chunked : ℕ → List (Int × List (Copy Digest Sum)) → List Bytes → Prop
  | nil (first : ℕ) : Chunked first [] []
  | cons {first : ℕ} {group : List (Copy Digest Sum)} {groups : List (Int × List (Copy Digest Sum))}
      {piece : Bytes} {pieces : List Bytes} (kept : group ≠ [])
      (sound : ∀ copy ∈ group, copy.bytes = some piece ∧ ∀ recorded ∈ copy.recorded, some recorded = copy.md5)
      (rest : Chunked (first + 1) groups pieces) :
      Chunked first ((first, group) :: groups) (piece :: pieces)

section Runs

variable {groups : List (Int × List (Copy Digest Sum))} {pieces : List Bytes} {judging : Judging}

theorem Judging.next_of_sound [DecidableEq Sum] {group : List (Copy Digest Sum)} {piece : Bytes} (hkept : group ≠ [])
    (hsound : ∀ copy ∈ group, copy.bytes = some piece ∧ ∀ recorded ∈ copy.recorded, some recorded = copy.md5) :
    judging.next ((judging.chunks : Int), group) = ⟨judging.stream ++ piece, judging.size + piece.length,
      judging.chunks + 1, judging.chunks, judging.intact⟩ := by
  obtain ⟨copy, group, rfl⟩ := List.exists_cons_of_ne_nil hkept
  have hhead := (hsound copy List.mem_cons_self).1
  have hall : ((copy :: group).all fun copy => decide (copy.bytes = some piece) &&
      copy.recorded.all fun recorded => decide (some recorded = copy.md5)) = true := by
    rw [List.all_eq_true]
    intro one hone
    obtain ⟨hbytes, hrecorded⟩ := hsound one hone
    simpa [hbytes] using hrecorded
  simp only [Judging.next, List.head?_cons, Option.bind_some, hhead, Option.getD_some, hall, decide_true,
    Bool.and_true]

/-- Over runs that are the pieces the verifier stays as satisfied as it was, and has them written. -/
theorem foldl_of_chunked [DecidableEq Sum] {first : ℕ} (h : Chunked first groups pieces) (hfirst : judging.chunks = first)
    (hlast : judging.last = (first : Int) - 1) :
    groups.foldl Judging.next judging = ⟨judging.stream ++ pieces.flatten,
      judging.size + pieces.flatten.length, first + pieces.length, (first : Int) + pieces.length - 1,
      judging.intact⟩ := by
  induction h generalizing judging with
  | nil first =>
      obtain ⟨stream, size, chunks, last, intact⟩ := judging
      obtain rfl : chunks = first := hfirst
      obtain rfl : last = (chunks : Int) - 1 := hlast
      simp
  | cons hkept hsound _ ih =>
      subst hfirst
      rw [List.foldl_cons, Judging.next_of_sound hkept hsound, ih rfl (by simp)]
      simp only [Judging.mk.injEq, List.flatten_cons, List.append_assoc, List.length_append, List.length_cons]
      exact ⟨trivial, by omega, by omega, by push_cast; omega, trivial⟩

/-- What the verifier is satisfied with is some pieces. -/
theorem chunked_of_foldl [DecidableEq Sum] (hkept : ∀ group ∈ groups, group.2 ≠ [])
    (h : (groups.foldl Judging.next judging).intact) :
    judging.intact ∧ ∃ pieces, Chunked judging.chunks groups pieces := by
  induction groups generalizing judging with
  | nil => exact ⟨h, [], .nil _⟩
  | cons group groups ih =>
      obtain ⟨hintact, pieces, hpieces⟩ := ih (fun other hother => hkept other (List.mem_cons_of_mem _ hother)) h
      obtain ⟨ordinal, group⟩ := group
      simp only [Judging.next, Bool.and_eq_true, decide_eq_true_eq, List.all_eq_true] at hintact hpieces
      obtain ⟨⟨hbefore, hordinal⟩, hsound⟩ := hintact
      subst hordinal
      exact ⟨hbefore, _ :: pieces, .cons (hkept _ List.mem_cons_self) hsound hpieces⟩

/-! Rows and runs -/

/-- The runs of the pieces, from what each copy is: the keys rise, each run is of one piece, and every
piece has one. -/
theorem chunked_of_keys {first : ℕ} (hrise : groups.Pairwise fun group other => group.1 < other.1)
    (hgroups : ∀ group ∈ groups, group.2 ≠ [] ∧ ∃ (ordinal : ℕ) (piece : Bytes), group.1 = ((first + ordinal : ℕ) : Int) ∧
      pieces[ordinal]? = some piece ∧
      ∀ copy ∈ group.2, copy.bytes = some piece ∧ ∀ recorded ∈ copy.recorded, some recorded = copy.md5)
    (hpieces : ∀ ordinal < pieces.length, ∃ group ∈ groups, group.1 = ((first + ordinal : ℕ) : Int)) :
    Chunked first groups pieces := by
  induction pieces generalizing first groups with
  | nil =>
      cases groups with
      | nil => exact .nil first
      | cons group groups =>
          obtain ⟨-, ordinal, piece, -, hpiece, -⟩ := hgroups group List.mem_cons_self
          simp at hpiece
  | cons piece pieces ih =>
      cases groups with
      | nil =>
          obtain ⟨group, hgroup, -⟩ := hpieces 0 (by simp)
          cases hgroup
      | cons group groups =>
          obtain ⟨ordinal, copies⟩ := group
          rw [List.pairwise_cons] at hrise
          obtain ⟨hkept, at', found, hat, hfound, hsound⟩ := hgroups _ List.mem_cons_self
          -- The run of the first piece is the first, for no run starts below it.
          obtain rfl : at' = 0 := by
            obtain ⟨first', hfirst', hkey⟩ := hpieces 0 (by simp)
            rcases List.mem_cons.mp hfirst' with rfl | hlate
            · have : ((first + at' : ℕ) : Int) = ((first + 0 : ℕ) : Int) := hat.symm.trans hkey
              omega
            · have hlt : ordinal < first'.1 := hrise.1 first' hlate
              have hat : ordinal = ((first + at' : ℕ) : Int) := hat
              omega
          obtain rfl : ordinal = (first : Int) := hat
          obtain rfl : piece = found := by simpa using hfound
          refine .cons hkept hsound (ih hrise.2 (fun other hother => ?_) fun next hnext => ?_)
          · obtain ⟨hkept, next, piece, hnext, hpiece, hsound⟩ := hgroups other (List.mem_cons_of_mem _ hother)
            have hlt : (first : Int) < other.1 := hrise.1 other hother
            obtain ⟨before, rfl⟩ : ∃ before, next = before + 1 := ⟨next - 1, by omega⟩
            refine ⟨hkept, before, piece, by rw [hnext]; push_cast; omega, by simpa using hpiece, hsound⟩
          · obtain ⟨other, hother, hkey⟩ := hpieces (next + 1) (by simpa using hnext)
            rcases List.mem_cons.mp hother with rfl | hlate
            · have : (first : Int) = ((first + (next + 1) : ℕ) : Int) := hkey
              omega
            · exact ⟨other, hlate, by rw [hkey]; push_cast; omega⟩

/-- What one run of the pieces is of. -/
theorem Chunked.of_mem {first : ℕ} (h : Chunked first groups pieces) {group : Int × List (Copy Digest Sum)}
    (hgroup : group ∈ groups) : ∃ (ordinal : ℕ) (piece : Bytes), group.1 = ((first + ordinal : ℕ) : Int) ∧
      pieces[ordinal]? = some piece ∧
      ∀ copy ∈ group.2, copy.bytes = some piece ∧ ∀ recorded ∈ copy.recorded, some recorded = copy.md5 := by
  induction h with
  | nil => cases hgroup
  | cons _ hsound _ ih =>
      rcases List.mem_cons.mp hgroup with rfl | hlate
      · exact ⟨0, _, rfl, rfl, hsound⟩
      · obtain ⟨ordinal, piece, hordinal, hpiece, hsound⟩ := ih hlate
        exact ⟨ordinal + 1, piece, by rw [hordinal]; push_cast; omega, by simpa using hpiece, hsound⟩

/-- Every piece has its run. -/
theorem Chunked.exists_mem {first : ℕ} (h : Chunked first groups pieces) {ordinal : ℕ}
    (hordinal : ordinal < pieces.length) :
    ∃ group ∈ groups, group.2 ≠ [] ∧ group.1 = ((first + ordinal : ℕ) : Int) := by
  induction h generalizing ordinal with
  | nil => simp at hordinal
  | cons hkept _ _ ih =>
      cases ordinal with
      | zero => exact ⟨_, List.mem_cons_self, hkept, rfl⟩
      | succ ordinal =>
          obtain ⟨group, hgroup, hkept, hkey⟩ := ih (by simpa using hordinal)
          exact ⟨group, List.mem_cons_of_mem _ hgroup, hkept, by rw [hkey]; push_cast; omega⟩

end Runs

theorem intact_of_fault {audit : Audit} {size : ℕ} (h : audit.fault size = "") : audit.intact ∧ audit.size = size := by
  unfold Audit.fault at h
  split at h
  · exact absurd (String.append_eq_empty_iff.mp h).2 (by decide)
  · split at h
    · exact absurd (String.append_eq_empty_iff.mp h).2 (by decide)
    · rename_i hsize
      refine ⟨?_, not_not.mp hsize⟩
      by_contra hdamaged
      rw [if_neg hdamaged] at h
      exact absurd h (by decide)

section Rows

variable [DecidableEq Digest] [DecidableEq Sum] {sha256 : Bytes → Digest} {md5 : Bytes → Sum}
  {lake : Lake Digest Sum} {digest : Digest} {copies : List (Copy Digest Sum)} {pieces : List Bytes}

/-- The stored copies of one object in ordinal order, each at least once. -/
structure Copies (md5 : Bytes → Sum) (lake : Lake Digest Sum) (digest : Digest)
    (copies : List (Copy Digest Sum)) : Prop where
  sorted : copies.Pairwise fun one other => one.ordinal ≤ other.ordinal
  mem : ∀ copy, copy ∈ copies ↔ ∃ row ∈ lake.blobs, row.sha256 = digest ∧ copy = lake.copyOf md5 row

theorem mem_recorded {row : Row Digest} {sum : Sum} : sum ∈ (lake.copyOf md5 row).recorded ↔
    ∃ recorded ∈ lake.checksums, recorded.sha256 = row.sha256 ∧ recorded.ordinal = row.number ∧
      recorded.md5 = sum := by
  simp only [Lake.copyOf, List.mem_dedup, List.mem_map, List.mem_filter, decide_eq_true_eq, and_assoc]

theorem Intact.chunked (h : Intact sha256 md5 lake digest pieces) (hcopies : Copies md5 lake digest copies) :
    Chunked 0 (Grouping.groupBy (·.ordinal) copies) pieces := by
  refine chunked_of_keys (Grouping.groupBy_pairwise _ hcopies.sorted) (fun group hgroup => ?_) fun ordinal hordinal => ?_
  · obtain ⟨hkept, hkeys⟩ := Grouping.mem_groupBy _ hgroup
    obtain ⟨first, hfirst⟩ := List.exists_mem_of_ne_nil _ hkept
    obtain ⟨row, hrow, hname, hcopy⟩ := (hcopies.mem first).mp (Grouping.mem_keys_groupBy _ hgroup hfirst)
    obtain ⟨ordinal, piece, hnumber, hpiece, -⟩ := h.agree row hrow hname
    have hkey : group.1 = (ordinal : Int) := by
      rw [← hkeys first hfirst, hcopy]
      exact hnumber
    refine ⟨hkept, ordinal, piece, by simpa using hkey, hpiece, fun copy hmem => ?_⟩
    obtain ⟨other, hother, hsame, rfl⟩ := (hcopies.mem copy).mp (Grouping.mem_keys_groupBy _ hgroup hmem)
    obtain ⟨ordinal', piece', hnumber', hpiece', hbytes⟩ := h.agree other hother hsame
    have hordinal : (ordinal' : Int) = ordinal := by
      rw [← hnumber', ← hkey]
      exact hkeys _ hmem
    obtain rfl : ordinal' = ordinal := by exact_mod_cast hordinal
    obtain rfl : piece' = piece := Option.some.inj (hpiece'.symm.trans hpiece)
    refine ⟨hbytes, fun sum hsum => ?_⟩
    obtain ⟨recorded, hrecorded, hname', hat, rfl⟩ := mem_recorded.mp hsum
    rw [h.checked recorded hrecorded (hname'.trans hsame) ordinal' piece' (hat.trans hnumber') hpiece']
    exact (congrArg (Option.map md5) hbytes).symm
  · obtain ⟨row, hrow, hname, hnumber⟩ := h.contiguous ordinal hordinal
    obtain ⟨group, hgroup, -, hkey⟩ := Grouping.exists_groupBy (fun copy : Copy Digest Sum => copy.ordinal)
      ((hcopies.mem _).mpr ⟨row, hrow, hname, rfl⟩)
    exact ⟨group, hgroup, by rw [hkey, Nat.zero_add]; exact hnumber⟩

theorem Chunked.intact (h : Chunked 0 (Grouping.groupBy (·.ordinal) copies) pieces)
    (hcopies : Copies md5 lake digest copies) (hkept : pieces ≠ []) (hwhole : sha256 pieces.flatten = digest) :
    Intact sha256 md5 lake digest pieces := by
  have hcopy : ∀ row ∈ lake.blobs, row.sha256 = digest → ∃ (ordinal : ℕ) (piece : Bytes),
      row.number = ordinal ∧ pieces[ordinal]? = some piece ∧ row.bytes = some piece ∧
        ∀ sum ∈ (lake.copyOf md5 row).recorded, some sum = some (md5 piece) := by
    intro row hrow hname
    obtain ⟨group, hgroup, hmem, hkey⟩ := Grouping.exists_groupBy (fun copy : Copy Digest Sum => copy.ordinal)
      ((hcopies.mem _).mpr ⟨row, hrow, hname, rfl⟩)
    obtain ⟨ordinal, piece, hordinal, hpiece, hsound⟩ := h.of_mem hgroup
    obtain ⟨hbytes, hrecorded⟩ := hsound _ hmem
    have hbytes : row.bytes = some piece := hbytes
    refine ⟨ordinal, piece, ?_, hpiece, hbytes, fun sum hsum => ?_⟩
    · rw [hordinal, Nat.zero_add] at hkey
      exact hkey.symm
    · rw [hrecorded sum hsum]
      exact congrArg (Option.map md5) hbytes
  refine ⟨hkept, fun row hrow hname => ?_, fun ordinal hordinal => ?_, ?_, hwhole⟩
  · obtain ⟨ordinal, piece, hnumber, hpiece, hbytes, -⟩ := hcopy row hrow hname
    exact ⟨ordinal, piece, hnumber, hpiece, hbytes⟩
  · obtain ⟨group, hgroup, hsome, hkey⟩ := h.exists_mem hordinal
    obtain ⟨copy, hmem⟩ := List.exists_mem_of_ne_nil _ hsome
    obtain ⟨row, hrow, hname, rfl⟩ := (hcopies.mem copy).mp (Grouping.mem_keys_groupBy _ hgroup hmem)
    refine ⟨row, hrow, hname, ?_⟩
    have hnumber := (Grouping.mem_groupBy _ hgroup).2 _ hmem
    rw [hkey, Nat.zero_add] at hnumber
    exact hnumber
  · intro recorded hrecorded hname ordinal piece hat hpiece
    obtain ⟨group, hgroup, hsome, hkey⟩ := h.exists_mem (List.getElem?_eq_some_iff.mp hpiece).1
    obtain ⟨copy, hmem⟩ := List.exists_mem_of_ne_nil _ hsome
    obtain ⟨row, hrow, hrowName, rfl⟩ := (hcopies.mem copy).mp (Grouping.mem_keys_groupBy _ hgroup hmem)
    have hnumber : row.number = ordinal := by
      have hnumber := (Grouping.mem_groupBy _ hgroup).2 _ hmem
      rw [hkey, Nat.zero_add] at hnumber
      exact hnumber
    obtain ⟨ordinal', piece', hnumber', hpiece', -, hsums⟩ := hcopy row hrow hrowName
    obtain rfl : ordinal' = ordinal := by exact_mod_cast hnumber'.symm.trans hnumber
    obtain rfl : piece' = piece := Option.some.inj (hpiece'.symm.trans hpiece)
    exact Option.some.inj (hsums _ (mem_recorded.mpr
      ⟨recorded, hrecorded, hname.trans hrowName.symm, hat.trans hnumber.symm, rfl⟩))

omit [DecidableEq Digest] in
theorem judge_of_chunked (h : Chunked 0 (Grouping.groupBy (·.ordinal) copies) pieces) :
    judge copies = ⟨pieces.flatten, pieces.flatten.length, pieces.length, (pieces.length : Int) - 1, true⟩ := by
  have hfold : judge copies = _ := @foldl_of_chunked _ _ _ _ .start _ _ h rfl rfl
  rw [hfold]
  simp [Judging.start]

/-- What the verifier answers of an object kept whole, and the bytes it writes. -/
theorem verify_of_intact (h : Intact sha256 md5 lake digest pieces) (hcopies : Copies md5 lake digest copies) :
    verify sha256 digest copies =
      (⟨pieces.length, (pieces.length : Int) - 1, pieces.flatten.length, true⟩, pieces.flatten) := by
  have hjudged := judge_of_chunked (h.chunked hcopies)
  have hpos : 0 < pieces.length := List.length_pos_iff.mpr h.kept
  unfold verify
  simp only [hjudged, h.whole, hpos, decide_true, Bool.and_true]

/-- Only an object kept whole is called intact. -/
theorem intact_of_verify (hcopies : Copies md5 lake digest copies)
    (h : (verify sha256 digest copies).1.intact) : ∃ pieces, Intact sha256 md5 lake digest pieces := by
  simp only [verify, Bool.and_eq_true, decide_eq_true_eq] at h
  obtain ⟨⟨hintact, hcounted⟩, hhashed⟩ := h
  obtain ⟨-, pieces, hchunked⟩ := chunked_of_foldl (fun group hgroup => (Grouping.mem_groupBy _ hgroup).1) hintact
  rw [judge_of_chunked hchunked] at hhashed hcounted
  refine ⟨pieces, hchunked.intact hcopies ?_ hhashed⟩
  rintro rfl
  exact absurd hcounted (Nat.lt_irrefl 0)

/-! The two ways of reading -/

theorem mem_copies {digests : List Digest} {ordinal : Option Int} {copy : Copy Digest Sum} :
    copy ∈ lake.copies md5 digests ordinal ↔ ∃ row ∈ lake.blobs, row.sha256 ∈ digests ∧
      (∀ number ∈ ordinal, row.number = number) ∧ copy = lake.copyOf md5 row := by
  unfold Lake.copies
  simp only [List.mem_map, List.mem_filter, Bool.and_eq_true, decide_eq_true_eq, Option.all_eq_true]
  constructor
  · rintro ⟨row, ⟨hrow, hname, hnumber⟩, rfl⟩
    exact ⟨row, hrow, hname, hnumber, rfl⟩
  · rintro ⟨row, hrow, hname, hnumber, rfl⟩
    exact ⟨row, ⟨hrow, hname, hnumber⟩, rfl⟩

theorem ordinal_of_mem_copies {digests : List Digest} {number : Int} {copy : Copy Digest Sum}
    (h : copy ∈ lake.copies md5 digests (some number)) : copy.ordinal = number := by
  obtain ⟨row, -, -, hnumber, rfl⟩ := mem_copies.mp h
  exact hnumber number rfl

omit [DecidableEq Sum] in
theorem mem_ordinals {number : Int} :
    number ∈ lake.ordinals digest ↔ ∃ row ∈ lake.blobs, row.sha256 = digest ∧ row.number = number := by
  unfold Lake.ordinals
  simp only [List.mem_insertionSort, List.mem_dedup, List.mem_map, List.mem_filter, decide_eq_true_eq, and_assoc]

/-- Read in one query with others. -/
theorem copies_windowed {digests : List Digest} (hdigest : digest ∈ digests) :
    Copies md5 lake digest (((lake.copies md5 digests none).filter fun copy => copy.sha256 = digest).insertionSort
      fun one other => one.ordinal ≤ other.ordinal) where
  sorted := List.pairwise_insertionSort _ _
  mem copy := by
    simp only [List.mem_insertionSort, List.mem_filter, mem_copies, decide_eq_true_eq]
    constructor
    · rintro ⟨⟨row, hrow, -, -, rfl⟩, hname⟩
      exact ⟨row, hrow, hname, rfl⟩
    · rintro ⟨row, hrow, hname, rfl⟩
      exact ⟨⟨row, hrow, hname ▸ hdigest, fun _ hnone => (Option.not_mem_none _ hnone).elim, rfl⟩, hname⟩

/-- Read a chunk at a time. -/
theorem copies_streamed : Copies md5 lake digest (lake.streamed md5 digest) where
  sorted := by
    unfold Lake.streamed
    rw [List.pairwise_flatMap]
    refine ⟨fun number _ => List.pairwise_of_forall_mem_list fun one hone other hother => ?_, ?_⟩
    · rw [ordinal_of_mem_copies hone, ordinal_of_mem_copies hother]
    · refine (List.pairwise_insertionSort (· ≤ ·) _).imp fun hle one hone other hother => ?_
      rw [ordinal_of_mem_copies hone, ordinal_of_mem_copies hother]
      exact hle
  mem copy := by
    unfold Lake.streamed
    simp only [List.mem_flatMap, mem_ordinals, mem_copies, List.mem_singleton, Option.mem_def,
      Option.some.injEq, forall_eq']
    constructor
    · rintro ⟨number, -, row, hrow, hname, -, rfl⟩
      exact ⟨row, hrow, hname, rfl⟩
    · rintro ⟨row, hrow, hname, rfl⟩
      exact ⟨row.number, ⟨row, hrow, hname, rfl⟩, row, hrow, hname, rfl, rfl⟩

theorem mem_objects {window : ℕ} {digests : List Digest} {object : Digest × List (Copy Digest Sum)}
    (h : object ∈ lake.objects md5 window digests) :
    object.1 ∈ digests ∧ (∃ row ∈ lake.blobs, row.sha256 = object.1) ∧ Copies md5 lake object.1 object.2 := by
  unfold Lake.objects at h
  rcases List.mem_append.mp h with hstored | hlarge
  · obtain ⟨digest, hdigest, rfl⟩ := List.mem_map.mp hstored
    obtain ⟨hasked, hrow⟩ := List.mem_filter.mp (List.mem_filter.mp hdigest).1
    exact ⟨List.mem_dedup.mp hasked, by simpa using hrow, copies_windowed hdigest⟩
  · obtain ⟨digest, hdigest, rfl⟩ := List.mem_map.mp hlarge
    obtain ⟨hasked, hrow⟩ := List.mem_filter.mp (List.mem_filter.mp hdigest).1
    exact ⟨List.mem_dedup.mp hasked, by simpa using hrow, copies_streamed⟩

theorem exists_objects (md5 : Bytes → Sum) (window : ℕ) {digests : List Digest} (hasked : digest ∈ digests)
    (hrow : ∃ row ∈ lake.blobs, row.sha256 = digest) :
    ∃ copies, (digest, copies) ∈ lake.objects md5 window digests := by
  have hcounted : digest ∈ digests.dedup.filter fun digest => lake.blobs.any fun row => row.sha256 = digest :=
    List.mem_filter.mpr ⟨List.mem_dedup.mpr hasked, by simpa using hrow⟩
  unfold Lake.objects
  rcases Nat.lt_or_ge window (lake.ordinals digest).length with hlarge | hsmall
  · exact ⟨_, List.mem_append_right _ (List.mem_map.mpr
      ⟨digest, List.mem_filter.mpr ⟨hcounted, by simpa using hlarge⟩, rfl⟩)⟩
  · exact ⟨_, List.mem_append_left _ (List.mem_map.mpr
      ⟨digest, List.mem_filter.mpr ⟨hcounted, by simpa using hsmall⟩, rfl⟩)⟩

omit [DecidableEq Digest] [DecidableEq Sum] in
theorem Intact.exists_row (h : Intact sha256 md5 lake digest pieces) : ∃ row ∈ lake.blobs, row.sha256 = digest := by
  obtain ⟨row, hrow, hname, -⟩ := h.contiguous 0 (List.length_pos_iff.mpr h.kept)
  exact ⟨row, hrow, hname⟩

/-- The digests held are those asked for whose object is kept whole. -/
theorem mem_held {window : ℕ} {digests : List Digest} : digest ∈ lake.held md5 sha256 window digests ↔
    digest ∈ digests ∧ ∃ pieces, Intact sha256 md5 lake digest pieces := by
  unfold Lake.held Lake.audit
  simp only [List.mem_map, List.mem_filter]
  constructor
  · rintro ⟨_, ⟨⟨object, hobject, rfl⟩, hintact⟩, rfl⟩
    obtain ⟨hasked, -, hcopies⟩ := mem_objects hobject
    exact ⟨hasked, intact_of_verify hcopies hintact⟩
  · rintro ⟨hasked, pieces, hpieces⟩
    obtain ⟨copies, hobject⟩ := exists_objects md5 window hasked hpieces.exists_row
    refine ⟨_, ⟨⟨_, hobject, rfl⟩, ?_⟩, rfl⟩
    rw [verify_of_intact hpieces (mem_objects hobject).2.2]

/-- An audit without a fault is of an object kept whole in its size. -/
theorem sized_of_audit {window size : ℕ} {digests : List Digest} {audit : Audit}
    (h : (digest, audit) ∈ lake.audit md5 sha256 window digests) (hfault : audit.fault size = "") :
    ∃ pieces, Intact sha256 md5 lake digest pieces ∧ pieces.flatten.length = size := by
  obtain ⟨object, hobject, hsame⟩ := List.mem_map.mp h
  obtain ⟨rfl, rfl⟩ := Prod.mk.inj hsame
  obtain ⟨hintact, hsize⟩ := intact_of_fault hfault
  obtain ⟨-, -, hcopies⟩ := mem_objects hobject
  obtain ⟨pieces, hpieces⟩ := intact_of_verify hcopies hintact
  rw [verify_of_intact hpieces hcopies] at hsize
  exact ⟨pieces, hpieces, hsize⟩

/-- What is read of an object is its bytes. -/
theorem mem_read {window : ℕ} {digests : List Digest} {bytes : Bytes} :
    (digest, bytes) ∈ lake.read md5 sha256 window digests ↔
      digest ∈ digests ∧ ∃ pieces, Intact sha256 md5 lake digest pieces ∧ pieces.flatten = bytes := by
  unfold Lake.read
  simp only [List.mem_filterMap]
  constructor
  · rintro ⟨object, hobject, hread⟩
    split at hread
    · rename_i hintact
      cases hread
      obtain ⟨hasked, -, hcopies⟩ := mem_objects hobject
      obtain ⟨pieces, hpieces⟩ := intact_of_verify hcopies hintact
      exact ⟨hasked, pieces, hpieces, by rw [verify_of_intact hpieces hcopies]⟩
    · cases hread
  · rintro ⟨hasked, pieces, hpieces, rfl⟩
    obtain ⟨copies, hobject⟩ := exists_objects md5 window hasked hpieces.exists_row
    refine ⟨_, hobject, ?_⟩
    rw [verify_of_intact hpieces (mem_objects hobject).2.2]
    rfl

/-- Inspecting an object kept whole finds it so, and writes its bytes. -/
theorem inspect_of_intact (window : ℕ) (h : Intact sha256 md5 lake digest pieces) :
    lake.inspect md5 sha256 window digest =
      (⟨pieces.length, (pieces.length : Int) - 1, pieces.flatten.length, true⟩, pieces.flatten) := by
  obtain ⟨copies, hobject⟩ := exists_objects md5 window (List.mem_singleton.mpr rfl) h.exists_row
  unfold Lake.inspect
  split
  · rename_i object rest hobjects
    have hmem : object ∈ lake.objects md5 window [digest] := by
      rw [hobjects]
      exact List.mem_cons_self
    obtain ⟨hasked, -, hcopies⟩ := mem_objects hmem
    rw [List.mem_singleton.mp hasked] at hcopies
    exact verify_of_intact h hcopies
  · rename_i hnil
    rw [hnil] at hobject
    cases hobject

/-- An object that is intact on inspection is kept whole. -/
theorem intact_of_inspect {window : ℕ} (h : (lake.inspect md5 sha256 window digest).1.intact) :
    ∃ pieces, Intact sha256 md5 lake digest pieces := by
  unfold Lake.inspect at h
  split at h
  · rename_i object rest hobjects
    have hmem : object ∈ lake.objects md5 window [digest] := by
      rw [hobjects]
      exact List.mem_cons_self
    obtain ⟨hasked, -, hcopies⟩ := mem_objects hmem
    rw [List.mem_singleton.mp hasked] at hcopies
    exact intact_of_verify hcopies h
  · cases h

end Rows

end Mainboard.Blobs
