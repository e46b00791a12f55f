import Mathlib
import Mainboard.BlobVerifying

/-! Staging objects: a damaged one is dropped first, then the chunks of all of them wait in batches and
land in inserts, with a checksum each. Whatever the batches were, the lake holds what it held of every
other object and exactly the chunks of those staged. -/

namespace Mainboard.Blobs

/-- The sizes a lake is written by: of a chunk, of a row group, of an ordinary vector in rows, and of the
chunks one insert stages. -/
structure Sizes where
  chunk : ℕ
  group : ℕ
  vector : ℕ
  staged : ℕ
  chunk_pos : 0 < chunk

/-- The most chunks of an object read in one query with others. -/
def Sizes.window (sizes : Sizes) : ℕ := sizes.staged / sizes.chunk

/-- An object to stage: bytes already read, or a file streamed from disk. -/
inductive Source
  | bytes (contents : Bytes)
  | file (contents : Bytes)
  deriving DecidableEq, Repr

def Source.contents : Source → Bytes
  | bytes contents => contents
  | file contents => contents

section Pieces

variable (sizes : Sizes)

/-- What is left of a file's stream, read a chunk at a time until nothing is. -/
def readOn (stream : Bytes) : List Bytes :=
  if stream = [] then [] else stream.take sizes.chunk :: readOn (stream.drop sizes.chunk)
termination_by stream.length
decreasing_by
  have := List.length_pos_iff.mpr ‹stream ≠ []›
  have := sizes.chunk_pos
  rw [List.length_drop]
  omega

/-- An object's bytes in chunks; an empty one is one empty chunk. -/
def Source.pieces : Source → List Bytes
  | bytes contents => (List.range ((max contents.length 1 + sizes.chunk - 1) / sizes.chunk)).map fun at' =>
      (contents.drop (at' * sizes.chunk)).take sizes.chunk
  | file contents => contents.take sizes.chunk :: readOn sizes (contents.drop sizes.chunk)

theorem flatten_readOn (stream : Bytes) : (readOn sizes stream).flatten = stream := by
  rw [readOn]
  split
  · rename_i hempty
    rw [hempty]
    rfl
  · rename_i hsome
    have := List.length_pos_iff.mpr hsome
    have := sizes.chunk_pos
    rw [List.flatten_cons, flatten_readOn, List.take_append_drop]
termination_by stream.length
decreasing_by
  rw [List.length_drop]
  omega

/-- Bytes already read are cut as a file of them is. -/
theorem pieces_bytes (contents : Bytes) :
    (Source.bytes contents).pieces sizes = (Source.file contents).pieces sizes := by
  have hpos := sizes.chunk_pos
  simp only [Source.pieces]
  rcases Nat.lt_or_ge sizes.chunk contents.length with hlong | hshort
  · have hcount : (max contents.length 1 + sizes.chunk - 1) / sizes.chunk =
        (max (contents.drop sizes.chunk).length 1 + sizes.chunk - 1) / sizes.chunk + 1 := by
      rw [List.length_drop, ← Nat.add_div_right _ hpos]
      congr 1
      omega
    have hrest := pieces_bytes (contents.drop sizes.chunk)
    simp only [Source.pieces] at hrest
    rw [hcount, List.range_succ_eq_map, List.map_cons, List.map_map, Nat.zero_mul, List.drop_zero, readOn, if_neg]
    · rw [← hrest]
      refine congrArg (List.cons _) (List.map_congr_left fun at' _ => ?_)
      rw [Function.comp_apply, List.drop_drop, Nat.succ_mul, Nat.add_comm]
    · exact List.ne_nil_of_length_pos (by rw [List.length_drop]; omega)
  · have hcount : (max contents.length 1 + sizes.chunk - 1) / sizes.chunk = 1 := by
      rw [Nat.div_eq_iff hpos]
      omega
    rw [hcount, List.drop_eq_nil_of_le hshort, readOn, if_pos rfl]
    simp
termination_by contents.length
decreasing_by
  rw [List.length_drop]
  omega

/-- The chunks of a byte string. -/
def cut (contents : Bytes) : List Bytes := (Source.file contents).pieces sizes

theorem pieces_eq_cut (source : Source) : source.pieces sizes = cut sizes source.contents := by
  cases source with
  | bytes contents => exact pieces_bytes sizes contents
  | file contents => rfl

theorem cut_ne_nil (contents : Bytes) : cut sizes contents ≠ [] := List.cons_ne_nil _ _

@[simp] theorem flatten_cut (contents : Bytes) : (cut sizes contents).flatten = contents := by
  simp only [cut, Source.pieces]
  rw [List.flatten_cons, flatten_readOn, List.take_append_drop]

end Pieces

variable {Digest Sum : Type}

namespace Lake

/-- Drop every chunk and checksum of some objects. -/
def delete [DecidableEq Digest] (lake : Lake Digest Sum) (digests : List Digest) : Lake Digest Sum where
  blobs := lake.blobs.filter fun row => row.sha256 ∉ digests
  checksums := lake.checksums.filter fun recorded => recorded.sha256 ∉ digests
  vouched recorded hrecorded := by
    obtain ⟨hmem, hstays⟩ := List.mem_filter.mp hrecorded
    obtain ⟨row, hrow, hname⟩ := lake.vouched recorded hmem
    exact ⟨row, List.mem_filter.mpr ⟨hrow, by rw [hname]; exact hstays⟩, hname⟩

end Lake

/-- One chunk on its way into an insert. -/
structure Piece (Digest : Type) where
  sha256 : Digest
  ordinal : ℕ
  bytes : Bytes
  deriving DecidableEq, Repr

def Piece.row (piece : Piece Digest) : Row Digest := ⟨piece.sha256, some piece.ordinal, some piece.bytes⟩

def Piece.checksum (md5 : Bytes → Sum) (piece : Piece Digest) : Checksum Digest Sum :=
  ⟨piece.sha256, piece.ordinal, md5 piece.bytes⟩

/-- Chunks on their way into one insert, and how many bytes they hold. -/
structure Batch (Digest Sum : Type) where
  lake : Lake Digest Sum
  rows : List (Piece Digest)
  size : ℕ

/-- What keeps an object from being staged. -/
inductive Fault (Digest : Type)
  | rehashed (source : Source) (digest : Digest)
  deriving DecidableEq

namespace Batch

variable (sizes : Sizes) (md5 : Bytes → Sum) (sha256 : Bytes → Digest) (batch : Batch Digest Sum)

/-- The waiting chunks cut into runs of positions, each run weighing at most a row group. -/
def groups (rows : List (Piece Digest)) : List (List (Piece Digest)) :=
  let weight := fun position => (rows[position]?.map (·.bytes.length)).getD 0
  (Grouping.constrainedBatches weight sizes.group (List.range rows.length)).map fun run =>
    (rows.zipIdx.filter fun placed => run.headD 0 ≤ placed.2 ∧ placed.2 ≤ run.getLastD 0).map (·.1)

/-- One scan for small chunks; byte-sized windows for large or mixed chunks. -/
def source : List (Piece Digest) :=
  if sizes.vector ≤ sizes.group / max 1 ((batch.rows.map (·.bytes.length)).foldl max 0) then batch.rows
  else Grouping.union (groups sizes batch.rows)

/-- A position of a rising run lies between its first and its last. -/
theorem within_run {run : List ℕ} {position : ℕ} (hsorted : run.Pairwise (· < ·)) (hin : position ∈ run) :
    run.headD 0 ≤ position ∧ position ≤ run.getLastD 0 := by
  obtain ⟨before, after, rfl⟩ := List.append_of_mem hin
  rw [List.pairwise_append, List.pairwise_cons] at hsorted
  obtain ⟨-, ⟨hafter, -⟩, hbefore⟩ := hsorted
  constructor
  · cases before with
    | nil => exact Nat.le_refl _
    | cons first before => exact (hbefore first List.mem_cons_self position List.mem_cons_self).le
  · rcases List.eq_nil_or_concat after with rfl | ⟨rest, last, rfl⟩
    · rw [List.getLastD_concat]
    · rw [List.concat_eq_append] at hafter ⊢
      rw [← List.cons_append, ← List.append_assoc, List.getLastD_concat]
      exact (hafter last (List.mem_append_right _ (List.mem_singleton.mpr rfl))).le

theorem mem_groups {rows : List (Piece Digest)} {piece : Piece Digest} :
    piece ∈ (groups sizes rows).flatten ↔ piece ∈ rows := by
  simp only [groups, List.mem_flatten, List.mem_map]
  constructor
  · rintro ⟨_, ⟨run, -, rfl⟩, hmem⟩
    obtain ⟨placed, hplaced, rfl⟩ := List.mem_map.mp hmem
    exact List.fst_mem_of_mem_zipIdx (List.mem_filter.mp hplaced).1
  · intro hmem
    obtain ⟨position, hposition, rfl⟩ := List.getElem_of_mem hmem
    have hflatten := Grouping.flatten_constrainedBatches
      (fun position => (rows[position]?.map (·.bytes.length)).getD 0) sizes.group (List.range rows.length)
    obtain ⟨run, hrun, hin⟩ := List.mem_flatten.mp (hflatten.symm ▸ List.mem_range.mpr hposition)
    have hsorted : run.Pairwise (· < ·) := by
      have hrange := @List.pairwise_lt_range rows.length
      rw [← hflatten, List.pairwise_flatten] at hrange
      exact hrange.1 run hrun
    refine ⟨_, ⟨run, hrun, rfl⟩, List.mem_map.mpr ⟨(rows[position], position), List.mem_filter.mpr ⟨?_, ?_⟩, rfl⟩⟩
    · exact List.mk_mem_zipIdx_iff_getElem?.mpr (List.getElem?_eq_getElem hposition)
    · exact decide_eq_true (within_run hsorted hin)

/-- Every waiting chunk is inserted, and nothing else. -/
theorem mem_source {piece : Piece Digest} : piece ∈ batch.source sizes ↔ piece ∈ batch.rows := by
  unfold source
  split
  · rfl
  · rw [Grouping.union_eq_flatten, mem_groups]

/-- Insert every waiting chunk and its checksum. -/
def flush : Batch Digest Sum :=
  if batch.rows.isEmpty then batch
  else
    { lake :=
        { blobs := batch.lake.blobs ++ (batch.source sizes).map Piece.row
          checksums := batch.lake.checksums ++ batch.rows.map (Piece.checksum md5)
          vouched := fun recorded hrecorded => by
            rcases List.mem_append.mp hrecorded with hold | hnew
            · obtain ⟨row, hrow, hname⟩ := batch.lake.vouched recorded hold
              exact ⟨row, List.mem_append_left _ hrow, hname⟩
            · obtain ⟨piece, hpiece, rfl⟩ := List.mem_map.mp hnew
              exact ⟨piece.row, List.mem_append_right _
                (List.mem_map_of_mem ((batch.mem_source sizes).mpr hpiece)), rfl⟩ }
      rows := []
      size := 0 }

/-- Let one more chunk wait, inserting once enough do. -/
def wait (batch : Batch Digest Sum) (piece : Piece Digest) : Batch Digest Sum :=
  let waiting := { batch with rows := batch.rows ++ [piece], size := batch.size + piece.bytes.length }
  if sizes.staged ≤ waiting.size then waiting.flush sizes md5 else waiting

/-- Add an object's chunks as its digest's, with the bytes it held. -/
def keep [DecidableEq Digest] (object : Digest × Source) : Except (Fault Digest) (Batch Digest Sum × ℕ) :=
  let pieces := object.2.pieces sizes
  let kept := (pieces.zipIdx.map fun piece => ⟨object.1, piece.2, piece.1⟩).foldl (wait sizes md5) batch
  if sha256 pieces.flatten = object.1 then .ok (kept, pieces.flatten.length)
  else .error (.rehashed object.2 object.1)

/-! What a batch holds, inserted or waiting -/

/-- The chunks a batch holds. -/
def Holds (row : Row Digest) : Prop := row ∈ batch.lake.blobs ∨ ∃ piece ∈ batch.rows, row = piece.row

/-- The checksums a batch holds or will insert. -/
def Vouches (recorded : Checksum Digest Sum) : Prop :=
  recorded ∈ batch.lake.checksums ∨ ∃ piece ∈ batch.rows, recorded = piece.checksum md5

theorem flush_rows : (batch.flush sizes md5).rows = [] := by
  unfold flush
  split
  · exact List.isEmpty_iff.mp ‹batch.rows.isEmpty = true›
  · rfl

theorem holds_flush {row : Row Digest} : (batch.flush sizes md5).Holds row ↔ batch.Holds row := by
  unfold flush Holds
  split
  · rfl
  · simp only [List.mem_append, List.mem_map, List.not_mem_nil, false_and, exists_false, or_false,
      mem_source, eq_comm]

theorem vouches_flush {recorded : Checksum Digest Sum} :
    (batch.flush sizes md5).Vouches md5 recorded ↔ batch.Vouches md5 recorded := by
  unfold flush Vouches
  split
  · rfl
  · simp only [List.mem_append, List.mem_map, List.not_mem_nil, false_and, exists_false, or_false, eq_comm]

theorem holds_wait {piece : Piece Digest} {row : Row Digest} :
    (batch.wait sizes md5 piece).Holds row ↔ batch.Holds row ∨ row = piece.row := by
  have hwaiting : Holds { batch with rows := batch.rows ++ [piece], size := batch.size + piece.bytes.length } row ↔
      batch.Holds row ∨ row = piece.row := by
    simp only [Holds, List.mem_append, List.mem_singleton, or_and_right, exists_or, exists_eq_left, or_assoc]
  unfold wait
  dsimp only
  split
  · rw [holds_flush, hwaiting]
  · exact hwaiting

theorem vouches_wait {piece : Piece Digest} {recorded : Checksum Digest Sum} :
    (batch.wait sizes md5 piece).Vouches md5 recorded ↔ batch.Vouches md5 recorded ∨ recorded = piece.checksum md5 := by
  have hwaiting : Vouches md5 { batch with rows := batch.rows ++ [piece], size := batch.size + piece.bytes.length }
      recorded ↔ batch.Vouches md5 recorded ∨ recorded = piece.checksum md5 := by
    simp only [Vouches, List.mem_append, List.mem_singleton, or_and_right, exists_or, exists_eq_left, or_assoc]
  unfold wait
  dsimp only
  split
  · rw [vouches_flush, hwaiting]
  · exact hwaiting

theorem holds_waitAll {pieces : List (Piece Digest)} {row : Row Digest} :
    (pieces.foldl (wait sizes md5) batch).Holds row ↔ batch.Holds row ∨ ∃ piece ∈ pieces, row = piece.row := by
  induction pieces generalizing batch with
  | nil => simp
  | cons piece pieces ih =>
      rw [List.foldl_cons, ih, holds_wait]
      simp only [List.mem_cons, or_and_right, exists_or, exists_eq_left, or_assoc]

theorem vouches_waitAll {pieces : List (Piece Digest)} {recorded : Checksum Digest Sum} :
    (pieces.foldl (wait sizes md5) batch).Vouches md5 recorded ↔
      batch.Vouches md5 recorded ∨ ∃ piece ∈ pieces, recorded = piece.checksum md5 := by
  induction pieces generalizing batch with
  | nil => simp
  | cons piece pieces ih =>
      rw [List.foldl_cons, ih, vouches_wait]
      simp only [List.mem_cons, or_and_right, exists_or, exists_eq_left, or_assoc]

end Batch

/-- The chunks of an object as rows. -/
def ChunkRow (sizes : Sizes) (object : Digest × Source) (row : Row Digest) : Prop :=
  ∃ (ordinal : ℕ) (piece : Bytes), (cut sizes object.2.contents)[ordinal]? = some piece ∧
    row = ⟨object.1, some (ordinal : Int), some piece⟩

/-- The checksums of an object's chunks. -/
def ChunkSum (sizes : Sizes) (md5 : Bytes → Sum) (object : Digest × Source) (recorded : Checksum Digest Sum) : Prop :=
  ∃ (ordinal : ℕ) (piece : Bytes), (cut sizes object.2.contents)[ordinal]? = some piece ∧
    recorded = ⟨object.1, ordinal, md5 piece⟩

variable [DecidableEq Digest] {sizes : Sizes} {md5 : Bytes → Sum} {sha256 : Bytes → Digest}

/-- What keeping one object adds to a batch: its chunks, once they are known to hash to its name. -/
structure Keeps (sizes : Sizes) (md5 : Bytes → Sum) (sha256 : Bytes → Digest) (objects : List (Digest × Source))
    (batch kept : Batch Digest Sum) : Prop where
  hashed : ∀ object ∈ objects, sha256 object.2.contents = object.1
  holds : ∀ row, kept.Holds row ↔ batch.Holds row ∨ ∃ object ∈ objects, ChunkRow sizes object row
  vouches : ∀ recorded, kept.Vouches md5 recorded ↔
    batch.Vouches md5 recorded ∨ ∃ object ∈ objects, ChunkSum sizes md5 object recorded

theorem keeps_of_keep {object : Digest × Source} {batch kept : Batch Digest Sum} {held : ℕ}
    (h : batch.keep sizes md5 sha256 object = .ok (kept, held)) :
    Keeps sizes md5 sha256 [object] batch kept ∧ held = object.2.contents.length := by
  unfold Batch.keep at h
  dsimp only at h
  rw [pieces_eq_cut, flatten_cut] at h
  split at h
  · rename_i hhashed
    cases h
    refine ⟨⟨?_, fun row => ?_, fun recorded => ?_⟩, rfl⟩
    · rintro one hone
      rw [List.mem_singleton.mp hone]
      exact hhashed
    · rw [Batch.holds_waitAll]
      simp only [ChunkRow, Piece.row, List.mem_map, List.mem_zipIdx_iff_getElem?, Prod.exists,
        List.mem_singleton, exists_eq_left]
      rw [@exists_comm ℕ]
      simp
    · rw [Batch.vouches_waitAll]
      simp only [ChunkSum, Piece.checksum, List.mem_map, List.mem_zipIdx_iff_getElem?, Prod.exists,
        List.mem_singleton, exists_eq_left]
      rw [@exists_comm ℕ]
      simp
  · cases h

omit [DecidableEq Digest] in
theorem Keeps.append {objects others : List (Digest × Source)} {batch middle kept : Batch Digest Sum}
    (h : Keeps sizes md5 sha256 objects batch middle) (h' : Keeps sizes md5 sha256 others middle kept) :
    Keeps sizes md5 sha256 (objects ++ others) batch kept where
  hashed object hobject := (List.mem_append.mp hobject).elim (h.hashed object) (h'.hashed object)
  holds row := by
    rw [h'.holds, h.holds]
    simp only [List.mem_append, or_and_right, exists_or, or_assoc]
  vouches recorded := by
    rw [h'.vouches, h.vouches]
    simp only [List.mem_append, or_and_right, exists_or, or_assoc]

/-- Keep one more object, adding up the bytes. -/
def Batch.keepNext (sizes : Sizes) (md5 : Bytes → Sum) (sha256 : Bytes → Digest) (state : Batch Digest Sum × ℕ)
    (object : Digest × Source) : Except (Fault Digest) (Batch Digest Sum × ℕ) :=
  (state.1.keep sizes md5 sha256 object).map fun kept => (kept.1, state.2 + kept.2)

variable [DecidableEq Sum]

/-- The digests among `digests` whose object is kept but not whole. -/
def Lake.damaged (sizes : Sizes) (md5 : Bytes → Sum) (sha256 : Bytes → Digest) (lake : Lake Digest Sum)
    (digests : List Digest) : List Digest :=
  ((lake.audit md5 sha256 sizes.window digests).filter fun found => !found.2.intact).map (·.1)

/-- Stage each digest's object as its chunks and checksums, answering the bytes staged. -/
def Lake.stage (sizes : Sizes) (md5 : Bytes → Sum) (sha256 : Bytes → Digest) (lake : Lake Digest Sum)
    (objects : List (Digest × Source)) : Except (Fault Digest) (Lake Digest Sum × ℕ) :=
  let dropped := lake.delete (lake.damaged sizes md5 sha256 (objects.map (·.1)))
  (objects.foldlM (Batch.keepNext sizes md5 sha256) (⟨dropped, [], 0⟩, 0)).map fun done =>
    ((done.1.flush sizes md5).lake, done.2)

variable {lake staged : Lake Digest Sum} {objects : List (Digest × Source)} {digest : Digest}

theorem mem_damaged {digests : List Digest} : digest ∈ lake.damaged sizes md5 sha256 digests ↔
    digest ∈ digests ∧ (∃ row ∈ lake.blobs, row.sha256 = digest) ∧
      ¬ ∃ pieces, Intact sha256 md5 lake digest pieces := by
  unfold Lake.damaged Lake.audit
  simp only [List.mem_map, List.mem_filter]
  constructor
  · rintro ⟨_, ⟨⟨object, hobject, rfl⟩, hdamaged⟩, rfl⟩
    obtain ⟨hasked, hrow, hcopies⟩ := mem_objects hobject
    refine ⟨hasked, hrow, ?_⟩
    rintro ⟨pieces, hpieces⟩
    rw [verify_of_intact hpieces hcopies] at hdamaged
    cases hdamaged
  · rintro ⟨hasked, hrow, hlost⟩
    obtain ⟨copies, hobject⟩ := exists_objects md5 sizes.window hasked hrow
    refine ⟨_, ⟨⟨_, hobject, rfl⟩, ?_⟩, rfl⟩
    rw [Bool.not_eq_true']
    by_contra hintact
    rw [Bool.not_eq_false] at hintact
    exact hlost (intact_of_verify (mem_objects hobject).2.2 hintact)

/-- What a staging that went through leaves of a lake. -/
structure Stages (sizes : Sizes) (md5 : Bytes → Sum) (sha256 : Bytes → Digest) (lake : Lake Digest Sum)
    (objects : List (Digest × Source)) (staged : Lake Digest Sum) : Prop where
  hashed : ∀ object ∈ objects, sha256 object.2.contents = object.1
  blobs : ∀ row, row ∈ staged.blobs ↔
    (row ∈ lake.blobs ∧ row.sha256 ∉ lake.damaged sizes md5 sha256 (objects.map (·.1))) ∨
      ∃ object ∈ objects, ChunkRow sizes object row
  checksums : ∀ recorded, recorded ∈ staged.checksums ↔
    (recorded ∈ lake.checksums ∧ recorded.sha256 ∉ lake.damaged sizes md5 sha256 (objects.map (·.1))) ∨
      ∃ object ∈ objects, ChunkSum sizes md5 object recorded

omit [DecidableEq Sum] in
theorem keeps_of_foldlM {state done : Batch Digest Sum × ℕ}
    (h : objects.foldlM (Batch.keepNext sizes md5 sha256) state = .ok done) :
    Keeps sizes md5 sha256 objects state.1 done.1 ∧
      done.2 = state.2 + (objects.map fun object => object.2.contents.length).sum := by
  induction objects generalizing state with
  | nil =>
      cases h
      exact ⟨⟨by simp, by simp, by simp⟩, rfl⟩
  | cons object objects ih =>
      rw [List.foldlM_cons] at h
      cases hkept : state.1.keep sizes md5 sha256 object with
      | error fault =>
          rw [Batch.keepNext, hkept] at h
          cases h
      | ok kept =>
          rw [Batch.keepNext, hkept] at h
          obtain ⟨hkeeps, hheld⟩ := keeps_of_keep hkept
          obtain ⟨hrest, hsize⟩ := ih h
          refine ⟨hkeeps.append hrest, ?_⟩
          rw [hsize, List.map_cons, List.sum_cons, ← hheld, Nat.add_assoc]

theorem stages_of_stage {size : ℕ} (h : lake.stage sizes md5 sha256 objects = .ok (staged, size)) :
    Stages sizes md5 sha256 lake objects staged ∧
      size = (objects.map fun object => object.2.contents.length).sum := by
  unfold Lake.stage at h
  dsimp only at h
  cases hkept : objects.foldlM (Batch.keepNext sizes md5 sha256)
      (⟨lake.delete (lake.damaged sizes md5 sha256 (objects.map (·.1))), [], 0⟩, 0) with
  | error fault =>
      rw [hkept] at h
      cases h
  | ok done =>
      obtain ⟨hkeeps, hsize⟩ := keeps_of_foldlM hkept
      rw [hkept] at h
      cases h
      refine ⟨⟨hkeeps.hashed, fun row => ?_, fun recorded => ?_⟩, by rw [hsize, Nat.zero_add]⟩
      · have hflushed : (done.1.flush sizes md5).Holds row ↔ done.1.Holds row := done.1.holds_flush sizes md5
        rw [hkeeps.holds] at hflushed
        simpa [Batch.Holds, Batch.flush_rows, Lake.delete] using hflushed
      · have hflushed : (done.1.flush sizes md5).Vouches md5 recorded ↔ done.1.Vouches md5 recorded :=
          done.1.vouches_flush sizes md5
        rw [hkeeps.vouches] at hflushed
        simpa [Batch.Vouches, Batch.flush_rows, Lake.delete] using hflushed

/-- What hashes to its name is staged. -/
theorem exists_stage (lake : Lake Digest Sum) (h : ∀ object ∈ objects, sha256 object.2.contents = object.1) :
    ∃ staged size, lake.stage sizes md5 sha256 objects = .ok (staged, size) := by
  have hkept : ∀ state : Batch Digest Sum × ℕ, ∃ done,
      objects.foldlM (Batch.keepNext sizes md5 sha256) state = .ok done := by
    induction objects with
    | nil => exact fun state => ⟨state, rfl⟩
    | cons object objects ih =>
        intro state
        have hone : ∃ kept, state.1.keep sizes md5 sha256 object = .ok kept := by
          unfold Batch.keep
          dsimp only
          rw [pieces_eq_cut, flatten_cut, if_pos (h object List.mem_cons_self)]
          exact ⟨_, rfl⟩
        obtain ⟨kept, hone⟩ := hone
        rw [List.foldlM_cons, Batch.keepNext, hone]
        exact ih (fun other hother => h other (List.mem_cons_of_mem _ hother)) _
  unfold Lake.stage
  dsimp only
  obtain ⟨done, hdone⟩ := hkept (⟨lake.delete (lake.damaged sizes md5 sha256 (objects.map (·.1))), [], 0⟩, 0)
  rw [hdone]
  exact ⟨_, _, rfl⟩

/-! What staging leaves of each object -/

/-- An object kept in the chunks of `contents` and no others. -/
structure Kept (sizes : Sizes) (md5 : Bytes → Sum) (lake : Lake Digest Sum) (digest : Digest) (contents : Bytes) :
    Prop where
  blobs : ∀ row : Row Digest, row.sha256 = digest →
    (row ∈ lake.blobs ↔ ChunkRow sizes (digest, .bytes contents) row)
  checksums : ∀ recorded : Checksum Digest Sum, recorded.sha256 = digest →
    (recorded ∈ lake.checksums ↔ ChunkSum sizes md5 (digest, .bytes contents) recorded)

/-- Two lakes with the same rows of one object. -/
def SameOf (digest : Digest) (lake other : Lake Digest Sum) : Prop :=
  (∀ row : Row Digest, row.sha256 = digest → (row ∈ other.blobs ↔ row ∈ lake.blobs)) ∧
    ∀ recorded : Checksum Digest Sum, recorded.sha256 = digest →
      (recorded ∈ other.checksums ↔ recorded ∈ lake.checksums)

variable {contents : Bytes}

omit [DecidableEq Digest] [DecidableEq Sum] in
theorem Kept.intact (h : Kept sizes md5 lake digest contents) (hhashed : sha256 contents = digest) :
    Intact sha256 md5 lake digest (cut sizes contents) where
  kept := cut_ne_nil sizes contents
  agree row hrow hname := by
    obtain ⟨ordinal, piece, hpiece, rfl⟩ := (h.blobs row hname).mp hrow
    exact ⟨ordinal, piece, rfl, hpiece, rfl⟩
  contiguous ordinal hordinal := ⟨⟨digest, some (ordinal : Int), some (cut sizes contents)[ordinal]⟩,
    (h.blobs _ rfl).mpr ⟨ordinal, _, List.getElem?_eq_getElem hordinal, rfl⟩, rfl, rfl⟩
  checked recorded hrecorded hname ordinal piece hat hpiece := by
    obtain ⟨ordinal', piece', hpiece', rfl⟩ := (h.checksums recorded hname).mp hrecorded
    have hat : (ordinal' : Int) = ordinal := hat
    obtain rfl : ordinal' = ordinal := by exact_mod_cast hat
    exact congrArg md5 (Option.some.inj (hpiece'.symm.trans hpiece))
  whole := by rw [flatten_cut, hhashed]

omit [DecidableEq Digest] [DecidableEq Sum] in
theorem SameOf.intact {pieces : List Bytes} {other : Lake Digest Sum} (h : SameOf digest lake other)
    (hintact : Intact sha256 md5 lake digest pieces) : Intact sha256 md5 other digest pieces where
  kept := hintact.kept
  agree row hrow hname := hintact.agree row ((h.1 row hname).mp hrow) hname
  contiguous ordinal hordinal := by
    obtain ⟨row, hrow, hname, hnumber⟩ := hintact.contiguous ordinal hordinal
    exact ⟨row, (h.1 row hname).mpr hrow, hname, hnumber⟩
  checked recorded hrecorded hname := hintact.checked recorded ((h.2 recorded hname).mp hrecorded) hname
  whole := hintact.whole

/-- What was not staged is as it was, unless it was to be and was damaged. -/
theorem Stages.same (h : Stages sizes md5 sha256 lake objects staged) (hother : digest ∉ objects.map (·.1)) :
    SameOf digest lake staged := by
  have hnot : ∀ object ∈ objects, object.1 ≠ digest := fun object hobject hsame =>
    hother (List.mem_map.mpr ⟨object, hobject, hsame⟩)
  have hsound : digest ∉ lake.damaged sizes md5 sha256 (objects.map (·.1)) := fun hmem =>
    hother (mem_damaged.mp hmem).1
  constructor
  · intro row hname
    rw [h.blobs, hname]
    refine ⟨fun hrow => ?_, fun hrow => .inl ⟨hrow, hsound⟩⟩
    rcases hrow with ⟨hrow, -⟩ | ⟨object, hobject, ordinal, piece, -, rfl⟩
    · exact hrow
    · exact absurd hname (hnot object hobject)
  · intro recorded hname
    rw [h.checksums, hname]
    refine ⟨fun hrecorded => ?_, fun hrecorded => .inl ⟨hrecorded, hsound⟩⟩
    rcases hrecorded with ⟨hrecorded, -⟩ | ⟨object, hobject, ordinal, piece, -, rfl⟩
    · exact hrecorded
    · exact absurd hname (hnot object hobject)

/-- An object staged where the lake held none whole, or the same in the same chunks, is kept in its
chunks and no others. -/
theorem Stages.kept (hinjective : Function.Injective sha256) (h : Stages sizes md5 sha256 lake objects staged)
    {object : Digest × Source} (hobject : object ∈ objects)
    (hfree : (¬ ∃ pieces, Intact sha256 md5 lake object.1 pieces) ∨ Kept sizes md5 lake object.1 object.2.contents) :
    Kept sizes md5 staged object.1 object.2.contents := by
  have hsame : ∀ other ∈ objects, other.1 = object.1 → other.2.contents = object.2.contents :=
    fun other hother hname => hinjective (by rw [h.hashed other hother, h.hashed object hobject, hname])
  -- Nothing else stays of the object: a damaged one is dropped, and an absent one has no checksum.
  have hrest : object.1 ∉ lake.damaged sizes md5 sha256 (objects.map (·.1)) →
      (∀ row ∈ lake.blobs, row.sha256 = object.1 → ChunkRow sizes (object.1, .bytes object.2.contents) row) ∧
        ∀ recorded ∈ lake.checksums, recorded.sha256 = object.1 →
          ChunkSum sizes md5 (object.1, .bytes object.2.contents) recorded := by
    intro hstays
    rcases hfree with hlost | hkept
    · have hnone : ∀ row ∈ lake.blobs, row.sha256 ≠ object.1 := fun row hrow hname =>
        hstays (mem_damaged.mpr ⟨List.mem_map_of_mem hobject, ⟨row, hrow, hname⟩, hlost⟩)
      refine ⟨fun row hrow hname => absurd hname (hnone row hrow), fun recorded hrecorded hname => ?_⟩
      obtain ⟨row, hrow, hrowName⟩ := lake.vouched recorded hrecorded
      exact absurd (hrowName.trans hname) (hnone row hrow)
    · exact ⟨fun row hrow hname => (hkept.blobs row hname).mp hrow,
        fun recorded hrecorded hname => (hkept.checksums recorded hname).mp hrecorded⟩
  constructor
  · intro row hname
    rw [h.blobs]
    constructor
    · rintro (⟨hrow, hstays⟩ | ⟨other, hother, ordinal, piece, hpiece, rfl⟩)
      · exact (hrest (hname ▸ hstays)).1 row hrow hname
      · refine ⟨ordinal, piece, ?_, congrArg (fun digest => (⟨digest, _, _⟩ : Row Digest)) hname⟩
        rw [← hsame other hother hname]
        exact hpiece
    · rintro ⟨ordinal, piece, hpiece, rfl⟩
      exact .inr ⟨object, hobject, ordinal, piece, hpiece, rfl⟩
  · intro recorded hname
    rw [h.checksums]
    constructor
    · rintro (⟨hrecorded, hstays⟩ | ⟨other, hother, ordinal, piece, hpiece, rfl⟩)
      · exact (hrest (hname ▸ hstays)).2 recorded hrecorded hname
      · refine ⟨ordinal, piece, ?_, congrArg (fun digest => (⟨digest, _, _⟩ : Checksum Digest Sum)) hname⟩
        rw [← hsame other hother hname]
        exact hpiece
    · rintro ⟨ordinal, piece, hpiece, rfl⟩
      exact .inr ⟨object, hobject, ordinal, piece, hpiece, rfl⟩

end Mainboard.Blobs
