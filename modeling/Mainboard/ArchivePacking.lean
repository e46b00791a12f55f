import Mainboard.ArtifactArchive

/-! What packing leaves in a tree. Each archive holds every object once, cut into chunks that count up, in the bucket of
its digest, its paths those it was packed under; and an archive is packed once. -/

namespace Mainboard.Artifacts

open Analysis (Text Bytes utf8)

/-! Chunks -/

section Chunks

variable {digest : Text} {paths : List Path} {data : Bytes} {chunk : Chunk} {count : ℕ}

theorem pieceCount_pos (length : ℕ) : 0 < pieceCount length := by
  unfold pieceCount chunkSize
  omega

/-- Fewer pieces than there are do not reach the end. -/
theorem lt_of_lt_pieceCount {length : ℕ} (hpos : 0 < count) (h : count < pieceCount length) : count * chunkSize < length := by
  unfold pieceCount chunkSize at h
  unfold chunkSize
  omega

theorem le_pieceCount_mul (length : ℕ) : length ≤ pieceCount length * chunkSize := by
  unfold pieceCount chunkSize
  omega

theorem chunksOf_ne_nil : chunksOf digest paths data ≠ [] := fun h => by
  have hlength := congrArg List.length h
  have hpos := pieceCount_pos data.length
  rw [chunksOf, List.length_map, List.length_range, List.length_nil] at hlength
  omega

theorem ordinals_chunksOf : (chunksOf digest paths data).map Chunk.ordinal = List.range' 0 (pieceCount data.length) := by
  rw [chunksOf, List.map_map, ← List.range_eq_range']
  exact List.map_id _

theorem digest_of_mem (h : chunk ∈ chunksOf digest paths data) : chunk.sha256 = digest := by
  obtain ⟨ordinal, -, rfl⟩ := List.mem_map.mp h
  rfl

/-- Chunks with the first so many ordinals are the first so many chunks. -/
theorem eq_take_of_ordinals {rows : List Chunk} (hrows : rows.Sublist (chunksOf digest paths data))
    (h : rows.map Chunk.ordinal = List.range count) : rows = (chunksOf digest paths data).take count := by
  have hcount : count ≤ pieceCount data.length := by
    have hlength := hrows.length_le
    have hordinals := congrArg List.length h
    rw [List.length_map, List.length_range] at hordinals
    rwa [hordinals, chunksOf, List.length_map, List.length_range] at hlength
  have hself : ∀ row ∈ rows, chunkAt digest paths data row.ordinal = row := by
    intro row hrow
    obtain ⟨ordinal, -, rfl⟩ := List.mem_map.mp (hrows.subset hrow)
    rfl
  calc rows = rows.map fun row => chunkAt digest paths data row.ordinal :=
        ((List.map_congr_left hself).trans (List.map_id rows)).symm
    _ = (rows.map Chunk.ordinal).map (chunkAt digest paths data) := by rw [List.map_map]; rfl
    _ = (chunksOf digest paths data).take count := by
        rw [h, chunksOf, ← List.map_take, List.take_range, Nat.min_eq_left hcount]

theorem payload_take : ((chunksOf digest paths data).take count).flatMap Chunk.payload =
    data.take (min count (pieceCount data.length) * chunkSize) := by
  rw [← Grouping.pieces_flatten, chunksOf, ← List.map_take, List.take_range, List.flatMap_map]
  rfl

/-- All the chunks of an object are its bytes. -/
theorem payload_chunksOf : (chunksOf digest paths data).flatMap Chunk.payload = data := by
  have hall := @payload_take digest paths data (pieceCount data.length)
  rwa [List.take_of_length_le (by rw [chunksOf, List.length_map, List.length_range]), Nat.min_self,
    List.take_of_length_le (le_pieceCount_mul _)] at hall

/-- The first chunks of an object, not all of them, are not its bytes. -/
theorem payload_take_ne (hpos : 0 < count) (h : count < pieceCount data.length) :
    ((chunksOf digest paths data).take count).flatMap Chunk.payload ≠ data := by
  intro heq
  have hlength := congrArg List.length heq
  have hlt := lt_of_lt_pieceCount hpos h
  rw [payload_take, Nat.min_eq_left h.le, List.length_take] at hlength
  omega

end Chunks

/-! What one packing writes -/

section Packing

variable {sha256 : Bytes → Text} {written : List Chunk → ℕ} {disk : Path → Option Bytes} {root path relative : Path}
  {paths : List Path} {digest : Text} {store packed : Store} {objects : List (Text × List Path)}

theorem relativeTo_eq_some : relativeTo path root = some relative ↔ path = root ++ relative := by
  unfold relativeTo
  constructor
  · intro h
    split at h
    · next hprefix =>
        obtain ⟨rest, rfl⟩ := List.isPrefixOf_iff_prefix.mp hprefix
        rw [Option.some.injEq, List.drop_left] at h
        rw [h]
    · cases h
  · rintro rfl
    rw [if_pos (List.isPrefixOf_iff_prefix.mpr (List.prefix_append _ _)), List.drop_left]

/-- What a file is packed under: its own digest, and its path below the root. -/
theorem listed_eq_some (h : listed sha256 disk root path = some (digest, relative)) :
    path = root ++ relative ∧ ∃ data, disk path = some data ∧ sha256 data = digest := by
  obtain ⟨below, hbelow, h⟩ := Option.bind_eq_some_iff.mp h
  obtain ⟨data, hdata, h⟩ := Option.bind_eq_some_iff.mp h
  split at h
  · cases h
  · obtain ⟨hdigest, rfl⟩ := Prod.mk.inj (Option.some.inj h)
    exact ⟨relativeTo_eq_some.mp hbelow, data, hdata, hdigest⟩

/-- The chunks of one object, none where there are not any. -/
def objectOf (disk : Path → Option Bytes) (root : Path) (objects : List (Text × List Path)) (digest : Text) : List Chunk :=
  (objectChunks disk root objects digest).getD []

theorem objectChunks_digest {chunks : List Chunk} (h : objectChunks disk root objects digest = some chunks)
    {chunk : Chunk} (hchunk : chunk ∈ chunks) : chunk.sha256 = digest := by
  obtain ⟨paths, -, h⟩ := Option.bind_eq_some_iff.mp h
  obtain ⟨first, -, h⟩ := Option.bind_eq_some_iff.mp h
  obtain ⟨data, -, rfl⟩ := Option.map_eq_some_iff.mp h
  exact digest_of_mem hchunk

theorem objectOf_digest {chunk : Chunk} (hchunk : chunk ∈ objectOf disk root objects digest) : chunk.sha256 = digest := by
  cases h : objectChunks disk root objects digest with
  | none =>
      rw [objectOf, h] at hchunk
      exact absurd hchunk List.not_mem_nil
  | some chunks =>
      rw [objectOf, h] at hchunk
      exact objectChunks_digest h hchunk

theorem mapM_getD {α β : Type} {f : α → Option (List β)} {list : List α} {answers : List (List β)}
    (h : list.mapM f = some answers) : answers.flatten = list.flatMap fun one => (f one).getD [] := by
  have hall := ListReading.mapM_eq_some_iff.mp h
  clear h
  induction hall with
  | nil => rfl
  | cons hone _ ih => rw [List.flatten_cons, List.flatMap_cons, ih, hone]; rfl

/-- The part files of a bucket: all in it, none empty, and together the chunks of its objects. -/
theorem packBucket_spec {bucket : Text × List Text} {files : List PartFile}
    (h : packBucket written disk root objects bucket = some files) :
    (∀ file ∈ files, file.folder = ⟨root, bucket.1⟩ ∧ file.chunks ≠ []) ∧
      files.flatMap PartFile.chunks = bucket.2.flatMap (objectOf disk root objects) ∧
      ∀ digest ∈ bucket.2, ∃ chunks, objectChunks disk root objects digest = some chunks := by
  obtain ⟨found, hfound, h⟩ := Option.bind_eq_some_iff.mp h
  have heach := ListReading.mapM_exists_iff.mp ⟨found, hfound⟩
  dsimp only at h
  split at h
  · rw [Option.some.injEq] at h
    subst h
    refine ⟨fun file hfile => ?_, ?_, heach⟩
    · obtain ⟨part, hpart, rfl⟩ := List.mem_map.mp hfile
      have hmem := List.mem_map_of_mem (f := Prod.fst) hpart
      rw [List.zipIdx_map_fst] at hmem
      exact ⟨rfl, Grouping.filled_ne_nil _ _ hmem⟩
    · rw [List.flatMap_map]
      have hfst : ∀ parts : List (List Chunk), (parts.zipIdx.flatMap fun part => part.1) = parts.flatten := fun parts => by
        rw [List.flatMap_def]
        exact congrArg List.flatten (List.zipIdx_map_fst 0 parts)
      rw [hfst, Grouping.flatten_filled, mapM_getD hfound]
      rfl
  · cases h

theorem chunks_of_lists {buckets : List (Text × List Text)} {lists : List (List PartFile)}
    (h : buckets.mapM (packBucket written disk root objects) = some lists) :
    lists.flatten.flatMap PartFile.chunks = buckets.flatMap fun bucket => bucket.2.flatMap (objectOf disk root objects) := by
  have hall := ListReading.mapM_eq_some_iff.mp h
  clear h
  induction hall with
  | nil => rfl
  | cons hone _ ih => rw [List.flatten_cons, List.flatMap_append, List.flatMap_cons, ih, (packBucket_spec hone).2.1]

/-- What a packing adds to the tree. -/
structure Adds (sha256 : Bytes → Text) (disk : Path → Option Bytes) (root : Path) (paths : List Path) (store packed : Store)
    (folders : List Folder) (files : List PartFile) : Prop where
  fresh : root ∉ store.archives
  of_archives : packed.archives = store.archives ++ [root]
  of_folders : packed.folders = store.folders ++ folders
  of_files : packed.files = store.files ++ files
  placed : ∀ file ∈ files, file.folder ∈ folders ∧ ∀ chunk ∈ file.chunks, file.folder = ⟨root, chunk.sha256.take 2⟩
  rooted : ∀ folder ∈ folders, folder.root = root
  holding : ∀ folder ∈ folders, ∃ file ∈ files, file.folder = folder
  rows : ∀ digest, ((files.flatMap PartFile.chunks).filter (·.sha256 = digest) = [] ∧
      ∀ path ∈ paths, (disk path).map sha256 ≠ some digest) ∨
    ∃ listing data, (files.flatMap PartFile.chunks).filter (·.sha256 = digest) = chunksOf digest listing data ∧
      sha256 data = digest ∧ listing ≠ [] ∧
      ∀ path, (∃ relative ∈ listing, path = root ++ relative) ↔ path ∈ paths ∧ (disk path).map sha256 = some digest

section Buckets

variable {pairs : List (Text × Path)}

theorem mem_digestsOf : digest ∈ digestsOf (OrderedMap.gather pairs) ↔ digest ∈ pairs.map (·.1) := by
  rw [digestsOf, List.mem_insertionSort, OrderedMap.mem_keys_gather]

theorem nodup_digestsOf : (digestsOf (OrderedMap.gather pairs)).Nodup :=
  (List.perm_insertionSort _ _).nodup_iff.mpr (OrderedMap.nodup_keys_gather pairs)

/-- A bucket holds the digests that begin with its name. -/
theorem mem_bucket {bucket : Text × List Text} (h : bucket ∈ bucketsOf objects) :
    bucket.2 = (digestsOf objects).filter fun digest => digest.take 2 = bucket.1 := by
  have hvalues := (OrderedMap.mem_gather _ h).1
  rw [hvalues, List.filter_map, List.map_map]
  exact List.map_id _

theorem exists_bucket (h : digest ∈ digestsOf objects) : ∃ bucket ∈ bucketsOf objects, bucket.1 = digest.take 2 := by
  have hkey : digest.take 2 ∈ (bucketsOf objects).map (·.1) := by
    refine (OrderedMap.mem_keys_gather _ _).mpr ?_
    rw [List.map_map]
    exact List.mem_map.mpr ⟨digest, h, rfl⟩
  exact List.mem_map.mp hkey

theorem bucket_ne_nil {bucket : Text × List Text} (h : bucket ∈ bucketsOf objects) : bucket.2 ≠ [] :=
  (OrderedMap.mem_gather _ h).2

/-- Of all that the buckets hold, a digest's rows are its own object. -/
theorem filter_buckets (hnodup : (digestsOf objects).Nodup) (digest : Text) :
    ((bucketsOf objects).flatMap fun bucket => bucket.2.flatMap (objectOf disk root objects)).filter (·.sha256 = digest) =
      if digest ∈ digestsOf objects then objectOf disk root objects digest else [] := by
  have hown : ∀ other, (objectOf disk root objects other).filter (·.sha256 = digest) =
      if other = digest then objectOf disk root objects digest else [] := by
    intro other
    split
    · next heq =>
        subst heq
        exact List.filter_eq_self.mpr fun chunk hchunk => decide_eq_true (objectOf_digest hchunk)
    · next hne =>
        exact List.filter_eq_nil_iff.mpr fun chunk hchunk hdigest =>
          hne ((objectOf_digest hchunk).symm.trans (of_decide_eq_true hdigest))
  simp only [List.filter_flatMap, hown]
  by_cases hmem : digest ∈ digestsOf objects
  · rw [if_pos hmem]
    obtain ⟨bucket, hbucket, hname⟩ := exists_bucket hmem
    have hkeys : ((bucketsOf objects).map (·.1)).Nodup := OrderedMap.nodup_keys_gather _
    rw [ListReading.flatMap_single hkeys.of_map hbucket]
    · have hin : digest ∈ bucket.2 := by
        rw [mem_bucket hbucket]
        exact List.mem_filter.mpr ⟨hmem, decide_eq_true hname.symm⟩
      have hbucketNodup : bucket.2.Nodup := by
        rw [mem_bucket hbucket]
        exact hnodup.filter _
      rw [ListReading.flatMap_single hbucketNodup hin fun other _ hne => if_neg hne, if_pos rfl]
    · intro other hother hne
      refine List.flatMap_eq_nil_iff.mpr fun one hone => if_neg ?_
      rintro rfl
      rw [mem_bucket hother] at hone
      have hsame := of_decide_eq_true (List.mem_filter.mp hone).2
      exact hne (List.inj_on_of_nodup_map hkeys hother hbucket (hsame.symm.trans hname.symm))
  · rw [if_neg hmem]
    refine List.flatMap_eq_nil_iff.mpr fun bucket hbucket => List.flatMap_eq_nil_iff.mpr fun one hone => if_neg ?_
    rintro rfl
    rw [mem_bucket hbucket] at hone
    exact hmem (List.mem_filter.mp hone).1

end Buckets

/-- What a packing adds holds each object once, in the bucket of its digest. -/
theorem adds_of_pack (h : pack sha256 written disk root paths store = some packed) :
    ∃ folders files, Adds sha256 disk root paths store packed folders files := by
  obtain ⟨found, hfound, h⟩ := Option.bind_eq_some_iff.mp h
  dsimp only at h
  split at h
  · cases h
  next hfresh =>
  obtain ⟨lists, hlists, rfl⟩ := Option.map_eq_some_iff.mp h
  have hnodup : (digestsOf (OrderedMap.gather found)).Nodup := nodup_digestsOf
  have hlisted : ∀ {one : Text × Path}, one ∈ found → ∃ path ∈ paths, path = root ++ one.2 ∧
      (disk path).map sha256 = some one.1 := by
    intro one hone
    obtain ⟨path, hpath, hlist⟩ := ListReading.mem_of_mapM hfound hone
    obtain ⟨digest, relative⟩ := one
    obtain ⟨hroot, data, hdata, hdigest⟩ := listed_eq_some hlist
    exact ⟨path, (List.mem_insertionSort _).mp hpath, hroot, by rw [hdata, ← hdigest]; rfl⟩
  have hfind : ∀ path ∈ paths, ∃ one ∈ found, path = root ++ one.2 ∧ (disk path).map sha256 = some one.1 := by
    intro path hpath
    obtain ⟨one, hone, hlist⟩ := ListReading.exists_of_mapM hfound ((List.mem_insertionSort _).mpr hpath)
    obtain ⟨digest, relative⟩ := one
    obtain ⟨hroot, data, hdata, hdigest⟩ := listed_eq_some hlist
    exact ⟨(digest, relative), hone, hroot, by rw [hdata, ← hdigest]; rfl⟩
  have hbucket : ∀ file ∈ lists.flatten, ∃ bucket ∈ bucketsOf (OrderedMap.gather found), file.folder = ⟨root, bucket.1⟩ ∧
      ∀ chunk ∈ file.chunks, ∃ digest ∈ bucket.2, chunk.sha256 = digest := by
    intro file hfile
    obtain ⟨list, hlist, hfile⟩ := List.mem_flatten.mp hfile
    obtain ⟨bucket, hbucket, hpack⟩ := ListReading.mem_of_mapM hlists hlist
    obtain ⟨hfiles, hchunks, -⟩ := packBucket_spec hpack
    refine ⟨bucket, hbucket, (hfiles file hfile).1, fun chunk hchunk => ?_⟩
    have hmem : chunk ∈ list.flatMap PartFile.chunks := List.mem_flatMap.mpr ⟨file, hfile, hchunk⟩
    rw [hchunks] at hmem
    obtain ⟨digest, hdigest, hmem⟩ := List.mem_flatMap.mp hmem
    exact ⟨digest, hdigest, objectOf_digest hmem⟩
  have hall : lists.flatten.flatMap PartFile.chunks = (bucketsOf (OrderedMap.gather found)).flatMap fun bucket =>
      bucket.2.flatMap (objectOf disk root (OrderedMap.gather found)) :=
    chunks_of_lists hlists
  refine ⟨_, lists.flatten, ⟨?_, rfl, rfl, rfl, ?_, ?_, ?_, ?_⟩⟩
  · intro hroot
    exact hfresh (List.any_eq_true.mpr ⟨root, hroot, decide_eq_true rfl⟩)
  · intro file hfile
    obtain ⟨bucket, hin, hfolder, hchunks⟩ := hbucket file hfile
    refine ⟨List.mem_map.mpr ⟨bucket, hin, hfolder.symm⟩, fun chunk hchunk => ?_⟩
    obtain ⟨digest, hdigest, hsame⟩ := hchunks chunk hchunk
    rw [mem_bucket hin] at hdigest
    rw [hfolder, hsame, of_decide_eq_true (List.mem_filter.mp hdigest).2]
  · intro folder hfolder
    obtain ⟨bucket, -, rfl⟩ := List.mem_map.mp hfolder
    rfl
  · intro folder hfolder
    obtain ⟨bucket, hin, rfl⟩ := List.mem_map.mp hfolder
    obtain ⟨list, hlist, hpack⟩ := ListReading.exists_of_mapM hlists hin
    obtain ⟨hfiles, hchunks, heach⟩ := packBucket_spec hpack
    obtain ⟨digest, hdigest⟩ := List.exists_mem_of_ne_nil _ (bucket_ne_nil hin)
    obtain ⟨chunks, hobject⟩ := heach digest hdigest
    have hne : list ≠ [] := by
      rintro rfl
      have hnil : objectOf disk root (OrderedMap.gather found) digest = [] :=
        List.flatMap_eq_nil_iff.mp hchunks.symm digest hdigest
      rw [objectOf, hobject, Option.getD_some] at hnil
      subst hnil
      obtain ⟨listing, -, hrest⟩ := Option.bind_eq_some_iff.mp hobject
      obtain ⟨first, -, hrest⟩ := Option.bind_eq_some_iff.mp hrest
      obtain ⟨data, -, hempty⟩ := Option.map_eq_some_iff.mp hrest
      exact chunksOf_ne_nil hempty
    obtain ⟨file, hfile⟩ := List.exists_mem_of_ne_nil _ hne
    exact ⟨file, List.mem_flatten.mpr ⟨list, hlist, hfile⟩, (hfiles file hfile).1⟩
  · intro digest
    rw [hall, filter_buckets hnodup]
    by_cases hmem : digest ∈ digestsOf (OrderedMap.gather found)
    · rw [if_pos hmem]
      obtain ⟨bucket, hin, hname⟩ := exists_bucket hmem
      obtain ⟨list, -, hpack⟩ := ListReading.exists_of_mapM hlists hin
      obtain ⟨chunks, hobject⟩ := (packBucket_spec hpack).2.2 digest (by
        rw [mem_bucket hin]
        exact List.mem_filter.mpr ⟨hmem, decide_eq_true hname.symm⟩)
      obtain ⟨listing, hlisting, hrest⟩ := Option.bind_eq_some_iff.mp hobject
      obtain ⟨first, hfirst, hrest⟩ := Option.bind_eq_some_iff.mp hrest
      obtain ⟨data, hdata, rfl⟩ := Option.map_eq_some_iff.mp hrest
      have hvalues : listing = (found.filter fun one => one.1 = digest).map (·.2) := by
        rw [← OrderedMap.getD_gather, hlisting]
        rfl
      have hin : ∀ relative, relative ∈ listing ↔ (digest, relative) ∈ found := by
        intro relative
        rw [hvalues]
        constructor
        · intro hmem
          obtain ⟨one, hone, rfl⟩ := List.mem_map.mp hmem
          obtain ⟨hone, hdigest⟩ := List.mem_filter.mp hone
          rw [← of_decide_eq_true hdigest]
          exact hone
        · intro hmem
          exact List.mem_map.mpr ⟨(digest, relative), List.mem_filter.mpr ⟨hmem, decide_eq_true rfl⟩, rfl⟩
      refine .inr ⟨listing, data, by rw [objectOf, hobject, Option.getD_some], ?_, ?_, fun path => ?_⟩
      · obtain ⟨path, -, hroot, hdigest⟩ := hlisted ((hin first).mp (List.mem_of_head? hfirst))
        dsimp only at hroot hdigest
        rw [hroot, hdata, Option.map_some, Option.some.injEq] at hdigest
        exact hdigest
      · rintro rfl
        cases hfirst
      · constructor
        · rintro ⟨relative, hrelative, rfl⟩
          obtain ⟨path, hpath, hroot, hdigest⟩ := hlisted ((hin relative).mp hrelative)
          dsimp only at hroot hdigest
          rw [← hroot]
          exact ⟨hpath, hdigest⟩
        · rintro ⟨hpath, hdigest⟩
          obtain ⟨one, hone, hroot, hsame⟩ := hfind path hpath
          rw [hdigest, Option.some.injEq] at hsame
          exact ⟨one.2, (hin one.2).mpr (hsame ▸ hone), hroot⟩
    · rw [if_neg hmem]
      refine .inl ⟨rfl, fun path hpath hdigest => hmem ?_⟩
      obtain ⟨one, hone, -, hsame⟩ := hfind path hpath
      rw [hdigest, Option.some.injEq] at hsame
      rw [mem_digestsOf, hsame]
      exact List.mem_map_of_mem hone

end Packing

/-! A tree after many packings -/

section Packings

variable {sha256 : Bytes → Text} {written : List Chunk → ℕ} {store packed : Store} {root path : Path} {digest : Text}
  {data : Bytes}

/-- One packing: the files as they stood, the root, which is not a file itself, and the paths packed. -/
structure Packing where
  disk : Path → Option Bytes
  root : Path
  paths : List Path
  folder : disk root = none

/-- The tree after one packing after the other. -/
def packAll (sha256 : Bytes → Text) (written : List Chunk → ℕ) (packings : List Packing) (store : Store) : Option Store :=
  packings.foldlM (fun store packing => pack sha256 written packing.disk packing.root packing.paths store) store

/-- A path was packed under a root and a digest, with these bytes. -/
def Listed (sha256 : Bytes → Text) (packings : List Packing) (root path : Path) (digest : Text) (data : Bytes) : Prop :=
  ∃ packing ∈ packings, packing.root = root ∧ path ∈ packing.paths ∧ packing.disk path = some data ∧ sha256 data = digest

/-- A part file's chunks of one digest. -/
def block (digest : Text) (file : PartFile) : List Chunk := file.chunks.filter (·.sha256 = digest)

/-- The part files that hold chunks of a digest in the archive of a root. -/
def holders (store : Store) (root : Path) (digest : Text) : List PartFile :=
  store.files.filter fun file => file.folder = ⟨root, digest.take 2⟩ ∧ block digest file ≠ []

/-- The rows of a digest in the archive of a root, as its part files come. -/
def rowsAt (store : Store) (root : Path) (digest : Text) : List Chunk :=
  (holders store root digest).flatMap (block digest)

/-- What a tree that was only ever packed into holds. -/
structure Laid (sha256 : Bytes → Text) (packings : List Packing) (store : Store) : Prop where
  archived : ∀ folder ∈ store.folders, folder.root ∈ store.archives
  packed : ∀ root, root ∈ store.archives ↔ ∃ packing ∈ packings, packing.root = root
  placed : ∀ file ∈ store.files, file.folder ∈ store.folders
  holding : ∀ folder ∈ store.folders, ∃ file ∈ store.files, file.folder = folder
  rows : ∀ root digest, (rowsAt store root digest = [] ∧ ∀ path data, ¬ Listed sha256 packings root path digest data) ∨
    ∃ listing data, rowsAt store root digest = chunksOf digest listing data ∧ sha256 data = digest ∧ listing ≠ [] ∧
      ∀ path, (∃ relative ∈ listing, path = root ++ relative) ↔ ∃ data, Listed sha256 packings root path digest data

/-- The rows of a digest in its folder are the folder's rows of it. -/
theorem rowsAt_eq_filter (store : Store) (root : Path) (digest : Text) : rowsAt store root digest =
    ((store.files.filter fun file => file.folder = ⟨root, digest.take 2⟩).flatMap PartFile.chunks).filter
      (·.sha256 = digest) := by
  have hholders : holders store root digest =
      (store.files.filter fun file => file.folder = ⟨root, digest.take 2⟩).filter fun file => block digest file ≠ [] := by
    rw [holders, List.filter_filter]
    exact List.filter_congr fun file _ => by rw [Bool.decide_and, Bool.and_comm]
  rw [rowsAt, hholders, ListReading.flatMap_filter, List.filter_flatMap]
  · rfl
  · exact fun file _ hblock => by simpa using hblock

/-- What one packing does to the rows of a digest: none of another root's, and all of its own. -/
theorem rowsAt_adds {disk : Path → Option Bytes} {target : Path} {paths : List Path} {folders : List Folder}
    {files : List PartFile} (hadds : Adds sha256 disk target paths store packed folders files)
    (harchived : ∀ file ∈ store.files, file.folder.root ∈ store.archives) :
    rowsAt packed root digest = if root = target then (files.flatMap PartFile.chunks).filter (·.sha256 = digest)
      else rowsAt store root digest := by
  rw [rowsAt_eq_filter, rowsAt_eq_filter, hadds.of_files, List.filter_append, List.flatMap_append, List.filter_append]
  split
  · next heq =>
      subst heq
      have hold : store.files.filter (fun file => file.folder = ⟨root, digest.take 2⟩) = [] :=
        List.filter_eq_nil_iff.mpr fun file hfile hfolder =>
          hadds.fresh (by
            have hin := harchived file hfile
            rwa [of_decide_eq_true hfolder] at hin)
      rw [hold, List.flatMap_nil, List.filter_nil, List.nil_append, List.filter_flatMap, List.filter_flatMap]
      -- what is of the digest is in the digest's folder
      have hown : ∀ file ∈ files, file.folder ≠ ⟨root, digest.take 2⟩ →
          file.chunks.filter (·.sha256 = digest) = [] := by
        intro file hfile hne
        refine List.filter_eq_nil_iff.mpr fun chunk hchunk hdigest => hne ?_
        rw [(hadds.placed file hfile).2 chunk hchunk, of_decide_eq_true hdigest]
      exact ListReading.flatMap_filter fun file hfile hfolder => hown file hfile (of_decide_eq_false hfolder)
  · next hne =>
      have hnew : files.filter (fun file => file.folder = ⟨root, digest.take 2⟩) = [] :=
        List.filter_eq_nil_iff.mpr fun file hfile hfolder => by
          have hroot := hadds.rooted _ (hadds.placed file hfile).1
          rw [of_decide_eq_true hfolder] at hroot
          exact hne hroot
      rw [hnew, List.flatMap_nil, List.filter_nil, List.append_nil]

/-- One more packing. -/
theorem Laid.step {packings : List Packing} {packing : Packing} (h : Laid sha256 packings store)
    (hpack : pack sha256 written packing.disk packing.root packing.paths store = some packed) :
    Laid sha256 (packings ++ [packing]) packed := by
  obtain ⟨folders, files, hadds⟩ := adds_of_pack hpack
  have hroot : ∀ {root : Path}, (∃ one ∈ packings ++ [packing], one.root = root) ↔
      (∃ one ∈ packings, one.root = root) ∨ packing.root = root := by
    intro root
    simp [List.mem_append, or_and_right, exists_or]
  have hfiles : ∀ file ∈ store.files, file.folder.root ∈ store.archives := fun file hfile =>
    h.archived _ (h.placed file hfile)
  refine ⟨?_, ?_, ?_, ?_, ?_⟩
  · intro folder hfolder
    rw [hadds.of_archives]
    rw [hadds.of_folders] at hfolder
    rcases List.mem_append.mp hfolder with hold | hnew
    · exact List.mem_append_left _ (h.archived folder hold)
    · exact List.mem_append_right _ (List.mem_singleton.mpr (hadds.rooted folder hnew))
  · intro root
    rw [hadds.of_archives, List.mem_append, List.mem_singleton, h.packed, hroot, @eq_comm _ root]
  · intro file hfile
    rw [hadds.of_files] at hfile
    rw [hadds.of_folders]
    rcases List.mem_append.mp hfile with hold | hnew
    · exact List.mem_append_left _ (h.placed file hold)
    · exact List.mem_append_right _ (hadds.placed file hnew).1
  · intro folder hfolder
    rw [hadds.of_folders] at hfolder
    rw [hadds.of_files]
    rcases List.mem_append.mp hfolder with hold | hnew
    · obtain ⟨file, hfile, hsame⟩ := h.holding folder hold
      exact ⟨file, List.mem_append_left _ hfile, hsame⟩
    · obtain ⟨file, hfile, hsame⟩ := hadds.holding folder hnew
      exact ⟨file, List.mem_append_right _ hfile, hsame⟩
  · intro root digest
    rw [rowsAt_adds hadds hfiles]
    by_cases hsame : root = packing.root
    · -- the packing's own root held nothing before
      subst hsame
      have hnone : ¬ ∃ one ∈ packings, one.root = packing.root := fun hone => hadds.fresh ((h.packed _).mpr hone)
      have hlisted : ∀ path data, Listed sha256 (packings ++ [packing]) packing.root path digest data ↔
          path ∈ packing.paths ∧ packing.disk path = some data ∧ sha256 data = digest := by
        intro path data
        constructor
        · rintro ⟨one, hone, hone', hrest⟩
          rcases List.mem_append.mp hone with hold | hnew
          · exact absurd ⟨one, hold, hone'⟩ hnone
          · rw [List.mem_singleton.mp hnew] at hrest
            exact hrest
        · intro hrest
          exact ⟨packing, List.mem_append_right _ List.mem_cons_self, rfl, hrest⟩
      have hdigest : ∀ path, (packing.disk path).map sha256 = some digest ↔
          ∃ data, packing.disk path = some data ∧ sha256 data = digest := fun path => Option.map_eq_some_iff
      rw [if_pos rfl]
      rcases hadds.rows digest with ⟨hnil, hpaths⟩ | ⟨listing, data, hrows, hdata, hne, hpaths⟩
      · refine .inl ⟨hnil, fun path data hin => ?_⟩
        obtain ⟨hpath, hdisk, hsha⟩ := (hlisted path data).mp hin
        exact hpaths path hpath ((hdigest path).mpr ⟨data, hdisk, hsha⟩)
      · refine .inr ⟨listing, data, hrows, hdata, hne, fun path => (hpaths path).trans ?_⟩
        rw [hdigest]
        constructor
        · rintro ⟨hpath, data, hdisk, hsha⟩
          exact ⟨data, (hlisted path data).mpr ⟨hpath, hdisk, hsha⟩⟩
        · rintro ⟨data, hin⟩
          obtain ⟨hpath, hdisk, hsha⟩ := (hlisted path data).mp hin
          exact ⟨hpath, data, hdisk, hsha⟩
    · have hlisted : ∀ path data, Listed sha256 (packings ++ [packing]) root path digest data ↔
          Listed sha256 packings root path digest data := by
        intro path data
        constructor
        · rintro ⟨one, hone, hone', hrest⟩
          rcases List.mem_append.mp hone with hold | hnew
          · exact ⟨one, hold, hone', hrest⟩
          · rw [List.mem_singleton.mp hnew] at hone'
            exact absurd hone'.symm hsame
        · rintro ⟨one, hone, hrest⟩
          exact ⟨one, List.mem_append_left _ hone, hrest⟩
      rw [if_neg hsame]
      simp only [hlisted]
      exact h.rows root digest

theorem Laid.run {packings before : List Packing} (h : Laid sha256 before store)
    (hpack : packAll sha256 written packings store = some packed) : Laid sha256 (before ++ packings) packed := by
  induction packings generalizing before store with
  | nil =>
      rw [List.append_nil]
      exact Option.some.inj hpack ▸ h
  | cons packing packings ih =>
      obtain ⟨middle, hone, hrest⟩ := Option.bind_eq_some_iff.mp hpack
      rw [← List.singleton_append, ← List.append_assoc]
      exact ih (h.step hone) hrest

/-- A tree without archives. -/
def Store.none : Store := ⟨[], [], []⟩

theorem laid_none : Laid sha256 [] Store.none where
  archived _ h := absurd h List.not_mem_nil
  packed _ := ⟨fun h => absurd h List.not_mem_nil, fun ⟨_, h, _⟩ => absurd h List.not_mem_nil⟩
  placed _ h := absurd h List.not_mem_nil
  holding _ h := absurd h List.not_mem_nil
  rows _ _ := .inl ⟨rfl, fun _ _ ⟨_, h, _⟩ => absurd h List.not_mem_nil⟩

end Packings

end Mainboard.Artifacts
