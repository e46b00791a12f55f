import Mainboard.ArchivePacking
import Mainboard.ArchivedListing

/-! What an archive gives back once some of its part files are gone. A path is on the first chunk of its object only, so
without that chunk nothing is found, and a gap in the ordinals is an error; but nothing says how many chunks an object
has, and one whose last part files are lost reads as its beginning. -/

namespace Mainboard.Artifacts

open Analysis (Text Bytes utf8)

/-! Part files lost -/

section Losses

variable {sha256 : Bytes → Text} {finds : Folder → Folder → Bool} {packings : List Packing} {store : Store}
  {lost : PartFile → Bool} {root path relative : Path} {digest : Text} {listing : List Path} {data bytes : Bytes}

/-- A lowercase hexadecimal digest. -/
def IsDigest (digest : Text) : Prop := 2 ≤ digest.length ∧ ∀ char ∈ digest, char ∈ Provenance.hexDigits

/-- A path none of whose names has a character that a file pattern gives a meaning. -/
def Plain (path : Path) : Prop := ∀ name ∈ path, ∀ char ∈ name, char ∉ ['*', '?', '[', '\\']

/-- A pattern of part files finds those of the folder it names, where nothing in the folder's own path is a pattern. -/
def Matching (finds : Folder → Folder → Bool) : Prop :=
  ∀ folder other : Folder, Plain (folder.root ++ [folder.bucket]) → (finds folder other = true ↔ other = folder)

theorem plain_bucket (hroot : Plain root) (hdigest : IsDigest digest) : Plain (root ++ [digest.take 2]) := by
  have hplain : Provenance.hexDigits.all fun char => !(['*', '?', '[', '\\'].any (· = char)) := by decide +kernel
  intro name hname char hchar hspecial
  rcases List.mem_append.mp hname with hname | hname
  · exact hroot name hname char hchar hspecial
  · rw [List.mem_singleton.mp hname] at hchar
    have hdigit := List.all_eq_true.mp hplain char (hdigest.2 char (List.mem_of_mem_take hchar))
    rw [Bool.not_eq_true', ← Bool.not_eq_true, List.any_eq_true] at hdigit
    exact hdigit ⟨char, hspecial, decide_eq_true rfl⟩

theorem without_none (h : ∀ file ∈ store.files, lost file = false) : store.without lost = store := by
  have hfiles : store.files.filter (fun file => !lost file) = store.files :=
    List.filter_eq_self.mpr fun file hfile => by rw [h file hfile]; rfl
  rw [Store.without, hfiles]

theorem holders_without : holders (store.without lost) root digest = (holders store root digest).filter fun file => !lost file := by
  rw [holders, holders, Store.without, List.filter_filter, List.filter_filter]
  exact List.filter_congr fun file _ => Bool.and_comm _ _

/-- What is left of the rows of a digest stands in their order. -/
theorem rowsAt_without : (rowsAt (store.without lost) root digest).Sublist (rowsAt store root digest) := by
  rw [rowsAt, rowsAt, holders_without]
  generalize holders store root digest = files
  induction files with
  | nil => exact List.Sublist.slnil
  | cons file files ih =>
      rw [List.flatMap_cons]
      cases hlost : lost file with
      | true =>
          rw [List.filter_cons_of_neg (by rw [hlost]; decide)]
          exact ih.trans (List.sublist_append_right _ _)
      | false =>
          rw [List.filter_cons_of_pos (by rw [hlost]; rfl), List.flatMap_cons]
          exact (List.Sublist.refl _).append ih

theorem rising_chunksOf : StableSort.Rising Chunk.ordinal (chunksOf digest listing data) := by
  have hordinals : (List.range' 0 (pieceCount data.length)).Pairwise (· ≤ ·) :=
    (List.pairwise_lt_range' 1).imp fun hlt => hlt.le
  rw [← @ordinals_chunksOf digest listing data] at hordinals
  exact (List.pairwise_map (f := Chunk.ordinal)).mp hordinals

/-- What the pattern of a digest's folder finds of it are its rows. -/
theorem rowsIn_eq (hfinds : Matching finds) (hplain : Plain (root ++ [digest.take 2]))
    (hrows : StableSort.Rising Chunk.ordinal (rowsAt store root digest)) :
    rowsIn finds store ⟨root, digest.take 2⟩ digest = rowsAt store root digest := by
  rw [rowsIn, ← StableSort.sortOn_of_rising Chunk.ordinal hrows, rowsAt_eq_filter]
  refine congrArg _ (congrArg _ (congrArg _ (List.filter_congr fun file _ => ?_)))
  rw [Bool.eq_iff_iff, hfinds _ _ hplain, decide_eq_true_eq]

/-- Rows that rebuild bytes begin with a chunk that lists the path, and count up from nothing. -/
theorem rebuilt_ok {rows : List Chunk} (h : rebuilt root path rows = .ok (some bytes)) : ∃ first rest relative,
    rows = first :: rest ∧ path = root ++ relative ∧ relative ∈ first.paths ∧
      rows.map Chunk.ordinal = List.range rows.length ∧ bytes = rows.flatMap Chunk.payload := by
  cases rows with
  | nil => cases h
  | cons first rest =>
      rw [rebuilt] at h
      split at h
      · cases h
      · next relative hrelative =>
          split at h
          · cases h
          · next hlists =>
              split at h
              · cases h
              · next hordinals =>
                  obtain ⟨listed, hlisted, heq⟩ := List.any_eq_true.mp (by simpa using hlists :
                    (first.paths.any fun listed => listed = relative) = true)
                  rw [of_decide_eq_true heq] at hlisted
                  exact ⟨first, rest, relative, rfl, relativeTo_eq_some.mp hrelative, hlisted,
                    Classical.not_not.mp hordinals, (Option.some.inj (Except.ok.inj h)).symm⟩

/-- The first chunks of an object rebuild what they hold of it, under every path it was packed under. -/
theorem rebuilt_take {count : ℕ} (hpos : 0 < count) : rebuilt root (root ++ relative) ((chunksOf digest listing data).take count) =
    if relative ∈ listing then .ok (some (((chunksOf digest listing data).take count).flatMap Chunk.payload)) else .ok none := by
  have hordinals : ((chunksOf digest listing data).take count).map Chunk.ordinal =
      List.range ((chunksOf digest listing data).take count).length := by
    rw [chunksOf, ← List.map_take, List.take_range, List.map_map, List.length_map, List.length_range]
    exact List.map_id _
  obtain ⟨first, rest, hcons⟩ := List.exists_cons_of_ne_nil (l := (chunksOf digest listing data).take count) (by
    rw [Ne, List.take_eq_nil_iff]
    exact fun h => h.elim (Nat.ne_of_gt hpos) chunksOf_ne_nil)
  have hfirst : first.paths = listing := by
    have hhead := congrArg List.head? hcons
    obtain ⟨more, hcount⟩ := Nat.exists_eq_succ_of_ne_zero (Nat.ne_of_gt (pieceCount_pos data.length))
    rw [List.head?_take, if_neg (Nat.ne_of_gt hpos), chunksOf, hcount, List.range_succ_eq_map, List.map_cons,
      List.head?_cons, List.head?_cons, Option.some.injEq] at hhead
    rw [← hhead]
    rfl
  rw [hcons] at hordinals ⊢
  rw [rebuilt, relativeTo_eq_some.mpr rfl]
  dsimp only
  rw [hfirst]
  by_cases hin : relative ∈ listing
  · rw [if_pos hin, if_neg (by simpa using hin), if_neg (fun hne => hne hordinals)]
  · have hnone : listing.any (· = relative) = false := List.any_eq_false.mpr fun other hother heq =>
      hin (of_decide_eq_true heq ▸ hother)
    rw [if_neg hin, hnone]
    rfl

/-- An object that has lost its last part files and kept its first ones. -/
def TailLost (store : Store) (lost : PartFile → Bool) : Prop :=
  ∃ root digest early late, holders store root digest = early ++ late ∧ early ≠ [] ∧ late ≠ [] ∧
    (∀ file ∈ early, lost file = false) ∧ ∀ file ∈ late, lost file = true

/-- What the archives of a tree promise: with every part file there, a path reads as its bytes under its digest wherever
the boundary lets its archive be seen, and is not found elsewhere; and whatever is lost, no other bytes are given. -/
def Lossless (sha256 : Bytes → Text) (finds : Folder → Folder → Bool) (packings : List Packing) (store : Store)
    (lost : PartFile → Bool) : Prop :=
  ((∀ file ∈ store.files, lost file = false) → ∀ boundary path digest, IsDigest digest → boundary <+: path →
    (∀ root data, boundary <+: root → Listed sha256 packings root path digest data →
      read finds (store.without lost) boundary path digest = .ok data) ∧
    ((∀ root data, boundary <+: root → ¬ Listed sha256 packings root path digest data) →
      read finds (store.without lost) boundary path digest = .error .missing)) ∧
  ∀ root path digest bytes, IsDigest digest → lookup finds (store.without lost) root path digest = .ok (some bytes) →
    Listed sha256 packings root path digest bytes

/-- A lookup in a folder that is there, where one of its part files still is. -/
theorem lookup_eq (hfinds : Matching finds) (hplain : Plain (root ++ [digest.take 2]))
    (hrows : StableSort.Rising Chunk.ordinal (rowsAt store root digest))
    (hfolder : (⟨root, digest.take 2⟩ : Folder) ∈ store.folders)
    (hfile : ∃ file ∈ store.files, file.folder = ⟨root, digest.take 2⟩) :
    lookup finds store root path digest = rebuilt root path (rowsAt store root digest) := by
  obtain ⟨file, hfile, hsame⟩ := hfile
  have hfound : (store.files.any fun file => finds ⟨root, digest.take 2⟩ file.folder) = true :=
    List.any_eq_true.mpr ⟨file, hfile, (hfinds _ _ hplain).mpr hsame⟩
  have hany : (store.folders.any (· = (⟨root, digest.take 2⟩ : Folder))) = true :=
    List.any_eq_true.mpr ⟨_, hfolder, decide_eq_true rfl⟩
  rw [lookup, hany, hfound, rowsIn_eq hfinds hplain hrows]
  rfl

/-- The first chunks of an object, left without the others, are what is left of an object whose tail is lost. -/
theorem tail_of_short {count : ℕ} (hrows : rowsAt store root digest = chunksOf digest listing data)
    (hkept : rowsAt (store.without lost) root digest = (chunksOf digest listing data).take count) (hpos : 0 < count)
    (hcount : count < pieceCount data.length) : TailLost store lost := by
  have hordinals : ∀ files : List PartFile, (files.flatMap fun file => (block digest file).map Chunk.ordinal) =
      (files.flatMap (block digest)).map Chunk.ordinal := fun files => List.map_flatMap.symm
  have hblock : ∀ file ∈ holders store root digest, (block digest file).map Chunk.ordinal ≠ [] := by
    intro file hfile hnil
    exact (of_decide_eq_true (List.mem_filter.mp hfile).2).2 (List.map_eq_nil_iff.mp hnil)
  have hall : (holders store root digest).flatMap (fun file => (block digest file).map Chunk.ordinal) =
      List.range' 0 (pieceCount data.length) := by
    rw [hordinals, ← rowsAt, hrows, ordinals_chunksOf]
  have hleft : ((holders store root digest).filter fun file => !lost file).flatMap
      (fun file => (block digest file).map Chunk.ordinal) = List.range' 0 count := by
    rw [hordinals, ← holders_without, ← rowsAt, hkept, chunksOf, ← List.map_take, List.take_range, List.map_map,
      Nat.min_eq_left hcount.le, ← List.range_eq_range']
    exact List.map_id _
  obtain ⟨early, late, hholders, hearly, hlate⟩ := Grouping.early_late hblock hall hleft
  have hearlyLost : ∀ file ∈ early, lost file = false := fun file hfile => by simpa using hearly file hfile
  have hlateLost : ∀ file ∈ late, lost file = true := fun file hfile => by simpa using hlate file hfile
  refine ⟨root, digest, early, late, hholders, ?_, ?_, hearlyLost, hlateLost⟩
  · rintro rfl
    rw [hholders, List.nil_append, List.filter_eq_nil_iff.mpr fun file hfile => by simp [hlateLost file hfile]] at hleft
    have hlength := congrArg List.length hleft
    rw [List.flatMap_nil, List.length_nil, List.length_range'] at hlength
    omega
  · rintro rfl
    rw [hholders, List.append_nil] at hleft hall
    rw [List.filter_eq_self.mpr fun file hfile => by simp [hearlyLost file hfile], hall] at hleft
    have hlength := congrArg List.length hleft
    rw [List.length_range', List.length_range'] at hlength
    omega

section Laid

variable (h : Laid sha256 packings store) (hinjective : Function.Injective sha256) (hfinds : Matching finds)
  (hplain : ∀ packing ∈ packings, Plain packing.root)

include h in
theorem Laid.rising : StableSort.Rising Chunk.ordinal (rowsAt (store.without lost) root digest) := by
  refine List.Pairwise.sublist rowsAt_without ?_
  rcases h.rows root digest with ⟨hnil, -⟩ | ⟨listing, data, hrows, -⟩
  · rw [hnil]
    exact List.Pairwise.nil
  · rw [hrows]
    exact rising_chunksOf

include h hplain in
theorem Laid.plain_of_folder (hfolder : (⟨root, digest.take 2⟩ : Folder) ∈ store.folders) (hdigest : IsDigest digest) :
    Plain (root ++ [digest.take 2]) := by
  obtain ⟨packing, hpacking, rfl⟩ := (h.packed root).mp (h.archived _ hfolder)
  exact plain_bucket (hplain packing hpacking) hdigest

include h hfinds hplain in
/-- Bytes a lookup gives are rebuilt from what is left of the digest's rows. -/
theorem Laid.lookup_ok (hdigest : IsDigest digest)
    (hlookup : lookup finds (store.without lost) root path digest = .ok (some bytes)) :
    rebuilt root path (rowsAt (store.without lost) root digest) = .ok (some bytes) := by
  by_cases hfolder : (⟨root, digest.take 2⟩ : Folder) ∈ store.folders
  · have hrows := rowsIn_eq hfinds (h.plain_of_folder hplain hfolder hdigest) (@Laid.rising _ _ _ lost root digest h)
    rw [← hrows]
    unfold lookup at hlookup
    dsimp only at hlookup
    split at hlookup
    · cases hlookup
    · split at hlookup
      · cases hlookup
      · exact hlookup
  · have hnone : store.folders.any (· = (⟨root, digest.take 2⟩ : Folder)) = false :=
      List.any_eq_false.mpr fun other hother heq => hfolder (of_decide_eq_true heq ▸ hother)
    rw [lookup, Store.without, hnone] at hlookup
    cases hlookup

include h in
/-- Where bytes are packed under a path, their digest's rows are theirs. -/
theorem Laid.rows_of_listed (hinjective : Function.Injective sha256) (hlisted : Listed sha256 packings root path digest data) :
    ∃ listing, rowsAt store root digest = chunksOf digest listing data ∧
      ∃ relative ∈ listing, path = root ++ relative := by
  rcases h.rows root digest with ⟨-, hnone⟩ | ⟨listing, other, hrows, hdigest, -, hpaths⟩
  · exact absurd hlisted (hnone path data)
  · obtain ⟨packing, -, -, -, -, hsame⟩ := id hlisted
    have hdata : other = data := hinjective (hdigest.trans hsame.symm)
    exact ⟨listing, hdata ▸ hrows, (hpaths path).mpr ⟨data, hlisted⟩⟩

include h hinjective hfinds hplain in
/-- While no object has lost its tail, a lookup gives the bytes packed under its path or none. -/
theorem Laid.lookup_exact (hkept : ¬ TailLost store lost) (hdigest : IsDigest digest)
    (hlookup : lookup finds (store.without lost) root path digest = .ok (some bytes)) :
    Listed sha256 packings root path digest bytes := by
  obtain ⟨first, rest, relative, hcons, hpath, hlists, hordinals, hbytes⟩ :=
    rebuilt_ok (h.lookup_ok hfinds hplain hdigest hlookup)
  have hsub := @rowsAt_without store lost root digest
  rcases h.rows root digest with ⟨hnil, -⟩ | ⟨listing, data, hrows, hsame, -, hpaths⟩
  · rw [hnil, hcons] at hsub
    exact absurd (List.sublist_nil.mp hsub) (List.cons_ne_nil _ _)
  · rw [hrows] at hsub
    have htake := eq_take_of_ordinals hsub hordinals
    have hfirst : relative ∈ listing := by
      have hmem := hsub.subset (hcons ▸ List.mem_cons_self : first ∈ rowsAt (store.without lost) root digest)
      obtain ⟨ordinal, -, rfl⟩ := List.mem_map.mp hmem
      rw [chunkAt] at hlists
      dsimp only at hlists
      split at hlists
      · exact hlists
      · exact absurd hlists List.not_mem_nil
    obtain ⟨own, hlisted⟩ := (hpaths path).mp ⟨relative, hfirst, hpath⟩
    have hown : own = data := by
      obtain ⟨packing, -, -, -, -, hown⟩ := id hlisted
      exact hinjective (hown.trans hsame.symm)
    have hpos : 0 < (rowsAt (store.without lost) root digest).length := by
      rw [hcons]
      exact Nat.succ_pos _
    have hall : pieceCount data.length ≤ (rowsAt (store.without lost) root digest).length :=
      not_lt.mp fun hlt => hkept (tail_of_short hrows htake hpos hlt)
    rw [List.take_of_length_le (by rw [chunksOf, List.length_map, List.length_range]; exact hall)] at htake
    rw [htake, payload_chunksOf] at hbytes
    rw [hbytes, ← hown]
    exact hlisted

include h hinjective hfinds hplain in
/-- An object that has lost its tail reads as its beginning. -/
theorem Laid.lookup_torn (hsha : ∀ data, IsDigest (sha256 data)) (htail : TailLost store lost) :
    ∃ root path digest bytes, IsDigest digest ∧ lookup finds (store.without lost) root path digest = .ok (some bytes) ∧
      ¬ Listed sha256 packings root path digest bytes := by
  obtain ⟨root, digest, early, late, hholders, hearly, hlate, hkept, hgone⟩ := htail
  have hblock : ∀ file ∈ early ++ late, file ∈ store.files ∧ file.folder = ⟨root, digest.take 2⟩ ∧
      block digest file ≠ [] := by
    intro file hfile
    rw [← hholders] at hfile
    obtain ⟨hin, hboth⟩ := List.mem_filter.mp hfile
    exact ⟨hin, of_decide_eq_true hboth⟩
  have hne : ∀ files : List PartFile, files ≠ [] → (∀ file ∈ files, file ∈ early ++ late) → files.flatMap (block digest) ≠ [] := by
    intro files hfiles hin hnil
    obtain ⟨file, hfile⟩ := List.exists_mem_of_ne_nil _ hfiles
    exact (hblock file (hin file hfile)).2.2 (List.flatMap_eq_nil_iff.mp hnil file hfile)
  have hearlyNe := hne early hearly fun file hfile => List.mem_append_left _ hfile
  have hlateNe := hne late hlate fun file hfile => List.mem_append_right _ hfile
  have hleft : rowsAt (store.without lost) root digest = early.flatMap (block digest) := by
    rw [rowsAt, holders_without, hholders, List.filter_append,
      List.filter_eq_self.mpr fun file hfile => by simp [hkept file hfile],
      List.filter_eq_nil_iff.mpr fun file hfile => by simp [hgone file hfile], List.append_nil]
  have hwhole : rowsAt store root digest = early.flatMap (block digest) ++ late.flatMap (block digest) := by
    rw [rowsAt, hholders, List.flatMap_append]
  rcases h.rows root digest with ⟨hnil, -⟩ | ⟨listing, data, hrows, hsame, hlisting, hpaths⟩
  · rw [hwhole] at hnil
    exact absurd (List.append_eq_nil_iff.mp hnil).1 hearlyNe
  · obtain ⟨relative, hrelative⟩ := List.exists_mem_of_ne_nil _ hlisting
    have hdigest : IsDigest digest := hsame ▸ hsha data
    have htake : rowsAt (store.without lost) root digest =
        (chunksOf digest listing data).take (early.flatMap (block digest)).length := by
      rw [hleft, ← hrows, hwhole, List.take_left]
    have hpos : 0 < (early.flatMap (block digest)).length := List.length_pos_of_ne_nil hearlyNe
    have hcount : (early.flatMap (block digest)).length < pieceCount data.length := by
      have hlength := congrArg List.length (hwhole.symm.trans hrows)
      have hmore := List.length_pos_of_ne_nil hlateNe
      rw [List.length_append, chunksOf, List.length_map, List.length_range] at hlength
      omega
    obtain ⟨file, hfile⟩ := List.exists_mem_of_ne_nil _ hearly
    obtain ⟨hstored, hfolder, -⟩ := hblock file (List.mem_append_left _ hfile)
    have hin : (⟨root, digest.take 2⟩ : Folder) ∈ store.folders := hfolder ▸ h.placed file hstored
    have hlookup := @lookup_eq finds (store.without lost) root (root ++ relative) digest hfinds
      (h.plain_of_folder hplain hin hdigest) h.rising hin
      ⟨file, List.mem_filter.mpr ⟨hstored, by rw [hkept file hfile]; rfl⟩, hfolder⟩
    rw [htake, rebuilt_take hpos, if_pos hrelative] at hlookup
    refine ⟨root, root ++ relative, digest, _, hdigest, hlookup, ?_⟩
    rintro ⟨packing, -, -, -, -, hown⟩
    exact payload_take_ne hpos hcount (hinjective (hown.trans hsame.symm))

include h hinjective hfinds hplain in
/-- With every part file there, a root's archive gives what was packed under a path below it, and nothing else. -/
theorem Laid.lookup_intact (hdigest : IsDigest digest) (hpath : root <+: path) :
    (∃ data, Listed sha256 packings root path digest data ∧ lookup finds store root path digest = .ok (some data)) ∨
      (∀ data, ¬ Listed sha256 packings root path digest data) ∧ lookup finds store root path digest = .ok none := by
  obtain ⟨relative, rfl⟩ := hpath
  by_cases hfolder : (⟨root, digest.take 2⟩ : Folder) ∈ store.folders
  · have hwithout : store.without (fun _ => false) = store := without_none fun _ _ => rfl
    have hrising : StableSort.Rising Chunk.ordinal (rowsAt store root digest) := by
      have hkept := @Laid.rising _ _ _ (fun _ => false) root digest h
      rwa [hwithout] at hkept
    rw [lookup_eq hfinds (h.plain_of_folder hplain hfolder hdigest) hrising hfolder (h.holding _ hfolder)]
    rcases h.rows root digest with ⟨hnil, hnone⟩ | ⟨listing, data, hrows, hsame, -, hpaths⟩
    · rw [hnil]
      exact .inr ⟨hnone _, rfl⟩
    · have hall : (chunksOf digest listing data).take (pieceCount data.length) = chunksOf digest listing data :=
        List.take_of_length_le (by rw [chunksOf, List.length_map, List.length_range])
      have hrebuilt := @rebuilt_take root relative digest listing data _ (pieceCount_pos data.length)
      rw [hall, payload_chunksOf, ← hrows] at hrebuilt
      rw [hrebuilt]
      by_cases hin : relative ∈ listing
      · obtain ⟨own, hlisted⟩ := (hpaths _).mp ⟨relative, hin, rfl⟩
        have hown : own = data := by
          obtain ⟨packing, -, -, -, -, hown⟩ := id hlisted
          exact hinjective (hown.trans hsame.symm)
        rw [if_pos hin]
        exact .inl ⟨data, hown ▸ hlisted, rfl⟩
      · rw [if_neg hin]
        refine .inr ⟨fun own hlisted => hin ?_, rfl⟩
        obtain ⟨other, hother, heq⟩ := (hpaths _).mpr ⟨own, hlisted⟩
        rwa [List.append_cancel_left heq]
  · have hnone : store.folders.any (· = (⟨root, digest.take 2⟩ : Folder)) = false :=
      List.any_eq_false.mpr fun other hother heq => hfolder (of_decide_eq_true heq ▸ hother)
    refine .inr ⟨fun data hlisted => hfolder ?_, by rw [lookup, hnone]; rfl⟩
    obtain ⟨listing, hrows, -⟩ := h.rows_of_listed hinjective hlisted
    obtain ⟨file, hfile⟩ : ∃ file, file ∈ holders store root digest := by
      refine List.exists_mem_of_ne_nil _ fun hnil => ?_
      rw [rowsAt, hnil] at hrows
      exact chunksOf_ne_nil hrows.symm
    obtain ⟨hstored, hboth⟩ := List.mem_filter.mp hfile
    rw [← (of_decide_eq_true hboth).1]
    exact h.placed file hstored

include h hinjective in
/-- A path is packed under a root that it goes on from. -/
theorem Laid.root_of_listed (hlisted : Listed sha256 packings root path digest data) :
    ∃ length < path.length, root = path.take length := by
  obtain ⟨listing, -, relative, -, rfl⟩ := h.rows_of_listed hinjective hlisted
  refine ⟨root.length, ?_, List.take_left.symm⟩
  have hne : relative ≠ [] := by
    rintro rfl
    obtain ⟨packing, -, hroot, -, hdisk, -⟩ := hlisted
    rw [List.append_nil, ← hroot, packing.folder] at hdisk
    cases hdisk
  have hpos := List.length_pos_of_ne_nil hne
  rw [List.length_append]
  omega

include h hinjective hfinds hplain in
/-- Reading goes up through the folders above a path, as far as the boundary. -/
theorem Laid.readUp_intact {boundary : Path} (hdigest : IsDigest digest) (count : ℕ) :
    (∀ length < count, ∀ data, boundary <+: path.take length → Listed sha256 packings (path.take length) path digest data →
      readUp finds store boundary path digest ((List.range count).reverse.map path.take) = .ok data) ∧
    ((∀ length < count, ∀ data, boundary <+: path.take length → ¬ Listed sha256 packings (path.take length) path digest data) →
      readUp finds store boundary path digest ((List.range count).reverse.map path.take) = .error .missing) := by
  induction count with
  | zero => exact ⟨fun length hlength => absurd hlength (Nat.not_lt_zero length), fun _ => rfl⟩
  | succ count ih =>
      rw [List.range_succ, List.reverse_append, List.reverse_singleton, List.singleton_append, List.map_cons, readUp]
      by_cases hboundary : boundary <+: path.take count
      · rw [if_neg (by simpa using List.isPrefixOf_iff_prefix.mpr hboundary)]
        rcases h.lookup_intact hinjective hfinds hplain hdigest (List.take_prefix count path) with
          ⟨own, hlisted, hlookup⟩ | ⟨hnone, hlookup⟩
        · rw [hlookup]
          refine ⟨fun length _ data _ hdata => ?_, fun hnone => ?_⟩
          · obtain ⟨packing, -, -, -, -, hown⟩ := hlisted
            obtain ⟨other, -, -, -, -, hsame⟩ := hdata
            rw [hinjective (hown.trans hsame.symm)]
          · exact absurd hlisted (hnone count (Nat.lt_succ_self count) own hboundary)
        · rw [hlookup]
          refine ⟨fun length hlength data hbefore hdata => ?_, fun hnever => ?_⟩
          · rcases Nat.lt_succ_iff_lt_or_eq.mp hlength with hlt | rfl
            · exact ih.1 length hlt data hbefore hdata
            · exact absurd hdata (hnone data)
          · exact ih.2 fun length hlength => hnever length (Nat.lt_succ_of_lt hlength)
      · have hnot : boundary.isPrefixOf (path.take count) = false :=
          Bool.eq_false_iff.mpr fun hprefix => hboundary (List.isPrefixOf_iff_prefix.mp hprefix)
        rw [hnot]
        refine ⟨fun length hlength data hbefore _ => ?_, fun _ => rfl⟩
        -- the folders further up are not inside the boundary either
        have hle : path.take length <+: path.take count := List.take_prefix_take_left (Nat.le_of_lt_succ hlength)
        exact absurd (hbefore.trans hle) hboundary

include h hinjective hfinds hplain in
/-- With every part file there, a path reads as what it was packed as, and as nothing else. -/
theorem Laid.read_intact {boundary : Path} (hdigest : IsDigest digest) (hboundary : boundary <+: path) :
    (∀ root data, boundary <+: root → Listed sha256 packings root path digest data →
      read finds store boundary path digest = .ok data) ∧
    ((∀ root data, boundary <+: root → ¬ Listed sha256 packings root path digest data) →
      read finds store boundary path digest = .error .missing) := by
  have hinside : boundary.isPrefixOf path = true := List.isPrefixOf_iff_prefix.mpr hboundary
  obtain ⟨hfound, hmissing⟩ := @Laid.readUp_intact _ _ _ _ path digest h hinjective hfinds hplain boundary hdigest path.length
  rw [read, hinside]
  refine ⟨fun root data hroot hlisted => ?_, fun hnone => hmissing fun length _ data hroot => hnone _ data hroot⟩
  obtain ⟨length, hlength, rfl⟩ := h.root_of_listed hinjective hlisted
  exact hfound length hlength data hroot hlisted

end Laid

/-- The archives of a tree keep their promise, whatever part files are lost, exactly when no object has lost its last
part files and kept its first ones. -/
theorem lossless_iff {written : List Chunk → ℕ} (hinjective : Function.Injective sha256)
    (hsha : ∀ data, IsDigest (sha256 data)) (hfinds : Matching finds) (hplain : ∀ packing ∈ packings, Plain packing.root)
    (hpacked : packAll sha256 written packings Store.none = some store) (lost : PartFile → Bool) :
    Lossless sha256 finds packings store lost ↔ ¬ TailLost store lost := by
  have h : Laid sha256 packings store := laid_none.run hpacked
  constructor
  · intro hlossless htail
    obtain ⟨root, path, digest, bytes, hdigest, hlookup, hnot⟩ := h.lookup_torn hinjective hfinds hplain hsha htail
    exact hnot (hlossless.2 root path digest bytes hdigest hlookup)
  · intro hkept
    refine ⟨fun hnone boundary path digest hdigest hboundary => ?_, fun root path digest bytes hdigest hlookup =>
      h.lookup_exact hinjective hfinds hplain hkept hdigest hlookup⟩
    rw [without_none hnone]
    exact h.read_intact hinjective hfinds hplain hdigest hboundary

end Losses

/-! One packed file -/

section Single

/-- Two digits and the bytes after them, in hexadecimal. -/
def spelled (bytes : Bytes) : Text := '0' :: '0' :: Provenance.hexOf bytes

theorem spelled_injective : Function.Injective spelled := fun _ _ h =>
  Provenance.hexOf_injective (List.cons.inj (List.cons.inj h).2).2

theorem spelled_digest (data : Bytes) : IsDigest (spelled data) := by
  have hzero : '0' ∈ Provenance.hexDigits := by decide +kernel
  refine ⟨by simp [spelled], fun char hchar => ?_⟩
  rcases List.mem_cons.mp hchar with rfl | hchar
  · exact hzero
  · rcases List.mem_cons.mp hchar with rfl | hchar
    · exact hzero
    · exact Provenance.mem_hexOf data char hchar

/-- A pattern that is its folder's own spelling. -/
def exact (folder other : Folder) : Bool := other = folder

theorem exact_matching : Matching exact := fun _ _ _ => decide_eq_true_iff

/-- A directory `/r` with one file `d` in it, packed. -/
def single (data : Bytes) : Packing where
  disk path := if path = [['r'], ['d']] then some data else none
  root := [['r']]
  paths := [[['r'], ['d']]]
  folder := if_neg (by decide)

theorem single_plain (data : Bytes) : ∀ packing ∈ [single data], Plain packing.root := by
  intro packing hpacking name hname char hchar
  rw [List.mem_singleton.mp hpacking] at hname
  rw [List.mem_singleton.mp hname] at hchar
  rw [List.mem_singleton.mp hchar]
  decide

/-- The tree with that archive. -/
def singleStore (data : Bytes) : Store where
  archives := [[['r']]]
  folders := [⟨[['r']], ['0', '0']⟩]
  files := (Grouping.filled Chunk.weight flushThreshold (chunksOf (spelled data) [[['d']]] data)).zipIdx.map
    fun part => ⟨⟨[['r']], ['0', '0']⟩, part.2, part.1⟩

theorem pack_single (data : Bytes) : packAll spelled (fun _ => 0) [single data] Store.none = some (singleStore data) := by
  have hdisk : (single data).disk [['r'], ['d']] = some data := by simp [single]
  have hfound : [[['r'], ['d']]].mapM (listed spelled (single data).disk [['r']]) = some [(spelled data, [['d']])] := by
    have hobjects : [['r'], ['d']].dropLast.getLast? ≠ some "objects".toList := by decide +kernel
    have hrelative : relativeTo [['r'], ['d']] [['r']] = some [['d']] := rfl
    have hlisted : listed spelled (single data).disk [['r']] [['r'], ['d']] = some (spelled data, [['d']]) := by
      rw [listed, hdisk, hrelative, Option.bind_some, Option.bind_some, if_neg fun h => hobjects h.1]
    rw [List.mapM_cons, hlisted]
    rfl
  have hobject : objectChunks (single data).disk [['r']] [(spelled data, [[['d']]])] (spelled data) =
      some (chunksOf (spelled data) [[['d']]] data) := by
    have hget : OrderedMap.get [(spelled data, [[['d']]])] (spelled data) = some [[['d']]] := by simp [OrderedMap.get]
    rw [objectChunks, hget, Option.bind_some, List.head?_cons, Option.bind_some, List.singleton_append, hdisk]
    rfl
  have hbucket : packBucket (fun _ => 0) (single data).disk [['r']] [(spelled data, [[['d']]])]
      (['0', '0'], [spelled data]) = some (singleStore data).files := by
    have hmapM : [spelled data].mapM (objectChunks (single data).disk [['r']] [(spelled data, [[['d']]])]) =
        some [chunksOf (spelled data) [[['d']]] data] := by
      rw [List.mapM_cons, hobject]
      rfl
    rw [packBucket, hmapM, Option.bind_some]
    dsimp only
    rw [List.flatten_cons, List.flatten_nil, List.append_nil]
    exact if_pos (List.all_eq_true.mpr fun _ _ => decide_eq_true (by decide))
  have hbuckets : [(['0', '0'], [spelled data])].mapM (packBucket (fun _ => 0) (single data).disk [['r']]
      [(spelled data, [[['d']]])]) = some [(singleStore data).files] := by
    rw [List.mapM_cons, hbucket]
    rfl
  have hpack : pack spelled (fun _ => 0) (single data).disk [['r']] [[['r'], ['d']]] Store.none =
      some (singleStore data) := by
    have hgather : OrderedMap.gather [(spelled data, [['d']])] = [(spelled data, [[['d']]])] := rfl
    rw [pack, List.insertionSort_cons, List.insertionSort_nil, List.orderedInsert_nil, hfound, Option.bind_some, hgather]
    change Option.map _ ([(['0', '0'], [spelled data])].mapM _) = _
    rw [hbuckets, Option.map_some, List.flatten_cons, List.flatten_nil, List.append_nil]
    rfl
  rw [packAll, List.foldlM_cons]
  change (pack spelled (fun _ => 0) (single data).disk [['r']] [[['r'], ['d']]] Store.none >>= _) = _
  rw [hpack]
  rfl

theorem payload_le_total (chunks : List Chunk) :
    (chunks.flatMap Chunk.payload).length ≤ Grouping.total Chunk.weight chunks := by
  induction chunks with
  | nil => exact Nat.le_refl _
  | cons chunk chunks ih =>
      have hweight : chunk.payload.length ≤ chunk.weight := Nat.le_add_right _ _
      have htotal := Grouping.total_append Chunk.weight [chunk] chunks
      rw [List.flatMap_cons, List.length_append]
      exact (Nat.add_le_add hweight ih).trans_eq htotal.symm

/-- A file too large for one part takes several, and what is left without those after the first is its beginning. -/
theorem single_torn {data : Bytes} (h : flushThreshold < data.length) :
    TailLost (singleStore data) fun file => file.part ≠ 0 := by
  -- the chunks before the last reach the threshold by themselves
  have hweight : flushThreshold ≤ Grouping.total Chunk.weight (chunksOf (spelled data) [[['d']]] data).dropLast := by
    refine le_trans ?_ (payload_le_total _)
    rw [List.dropLast_eq_take, payload_take, List.length_take, chunksOf, List.length_map, List.length_range,
      Nat.min_eq_left (Nat.sub_le _ _)]
    unfold pieceCount chunkSize
    unfold flushThreshold at h ⊢
    omega
  obtain ⟨first, next, more, hparts⟩ :=
    Grouping.exists_filled_parts Chunk.weight flushThreshold (by decide) chunksOf_ne_nil hweight
  have hheld : holders (singleStore data) [['r']] (spelled data) = (singleStore data).files := by
    refine List.filter_eq_self.mpr fun file hfile => decide_eq_true ?_
    obtain ⟨part, hpart, rfl⟩ := List.mem_map.mp hfile
    have hin : part.1 ∈ Grouping.filled Chunk.weight flushThreshold (chunksOf (spelled data) [[['d']]] data) := by
      have hmem := List.mem_map_of_mem (f := Prod.fst) hpart
      rwa [List.zipIdx_map_fst] at hmem
    obtain ⟨chunk, hchunk⟩ := List.exists_mem_of_ne_nil _ (Grouping.filled_ne_nil _ _ hin)
    have howned : chunk ∈ chunksOf (spelled data) [[['d']]] data := by
      rw [← Grouping.flatten_filled Chunk.weight flushThreshold (chunksOf (spelled data) [[['d']]] data)]
      exact List.mem_flatten.mpr ⟨part.1, hin, hchunk⟩
    refine ⟨rfl, fun hnil => ?_⟩
    exact List.filter_eq_nil_iff.mp hnil chunk hchunk (decide_eq_true (digest_of_mem howned))
  refine ⟨[['r']], spelled data, [⟨⟨[['r']], ['0', '0']⟩, 0, first⟩], ((next :: more).zipIdx 1).map fun part =>
    ⟨⟨[['r']], ['0', '0']⟩, part.2, part.1⟩, ?_, List.cons_ne_nil _ _, List.cons_ne_nil _ _, ?_, ?_⟩
  · rw [hheld, singleStore, hparts, List.zipIdx_cons, List.map_cons]
    rfl
  · intro file hfile
    rw [List.mem_singleton.mp hfile]
    rfl
  · intro file hfile
    obtain ⟨part, hpart, rfl⟩ := List.mem_map.mp hfile
    have hlater := List.le_snd_of_mem_zipIdx hpart
    exact decide_eq_true (Nat.ne_of_gt hlater)

/-- A file of eight full chunks and one byte, in two parts. -/
def spanning : Bytes := List.replicate 524289 0

theorem lossless_single : Lossless spelled exact [single spanning] (singleStore spanning) (fun _ => false) ↔
    ¬ TailLost (singleStore spanning) fun _ => false :=
  lossless_iff spelled_injective spelled_digest exact_matching (single_plain spanning) (pack_single spanning) _

/-- Its second part lost. -/
theorem lossless_fails : ¬ ∀ (sha256 : Bytes → Text) (finds : Folder → Folder → Bool) (written : List Chunk → ℕ)
    (packings : List Packing) (store : Store) (lost : PartFile → Bool), Function.Injective sha256 →
      (∀ data, IsDigest (sha256 data)) → Matching finds → (∀ packing ∈ packings, Plain packing.root) →
        packAll sha256 written packings Store.none = some store → Lossless sha256 finds packings store lost := by
  intro hall
  have hlossless := hall spelled exact (fun _ => 0) [single spanning] _ (fun file => file.part ≠ 0)
    spelled_injective spelled_digest exact_matching (single_plain _) (pack_single _)
  have htail : TailLost (singleStore spanning) fun file => file.part ≠ 0 :=
    single_torn (by rw [spanning, List.length_replicate]; decide)
  obtain ⟨root, path, digest, bytes, hdigest, hlookup, hnot⟩ := (laid_none.run (pack_single _)).lookup_torn
    spelled_injective exact_matching (single_plain _) spelled_digest htail
  exact hnot (hlossless.2 root path digest bytes hdigest hlookup)

end Single

end Mainboard.Artifacts
