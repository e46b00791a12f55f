import Mainboard.ListingRoundTrip

/-! Archiving a sealed listing and restoring it. The lake keeps one listing's rows under the first digits of its digest,
and what was archived once stays there whatever other listings are archived, before and after. -/

namespace Mainboard.Provenance

open Analysis (Text textLines breaksLine splitLines utf8)
open Blobs (Bytes Whole Stages)
open ListReading OrderedMap Runs

variable {Sum : Type} [DecidableEq Sum] {sizes : Blobs.Sizes} {md5 : Bytes → Sum} {sha256 : Bytes → Text}

/-- One archive of a listing as the files stand, the lake as it was where the archive is refused. -/
def Lake.step (sizes : Blobs.Sizes) (md5 : Bytes → Sum) (sha256 : Bytes → Text) (lake : Lake Sum)
    (label : Disk × Text) : Lake Sum :=
  match archive sizes md5 sha256 label.1 lake label.2 with
  | some answer => answer.2
  | none => lake

/-- The rows of a listing as the lake is to keep them. -/
def closureRows (sha256 : Bytes → Text) (rows : List Row) : List Kept :=
  rows.map (Row.kept (closureOf sha256 (listing rows)))

section Archiving

variable {disk : Disk} {lake kept : Lake Sum} {manifest digest : Text} {rows : List Row}

theorem mem_missing {objects : List (Text × Blobs.Source)} (h : missing sizes md5 sha256 disk lake rows = some objects)
    {blob : Text} : blob ∈ objects.map (·.1) ↔
      blob ∈ rows.map Row.blob ∧ ¬ Whole md5 sha256 lake.objects blob := by
  have hkeys : ∀ {entries : List (Text × Text)} {found : List (Text × Blobs.Source)},
      (entries.mapM fun entry => (disk.read entry.2).map fun bytes => (entry.1, Blobs.Source.file bytes)) = some found →
        found.map (·.1) = entries.map (·.1) := by
    intro entries found hfound
    have hall := mapM_eq_some_iff.mp hfound
    clear hfound
    induction hall with
    | nil => rfl
    | cons hhead htail ih =>
        obtain ⟨bytes, -, rfl⟩ := Option.map_eq_some_iff.mp hhead
        rw [List.map_cons, List.map_cons, ih]
  have hheld : ∀ row ∈ rows, (!(lake.objects.held md5 sha256 sizes.window (rows.map Row.blob)).any fun blob =>
      blob = row.blob) = true ↔ ¬ Whole md5 sha256 lake.objects row.blob := by
    intro row hrow
    rw [Bool.not_eq_true', Bool.eq_false_iff, Ne, List.any_eq_true, not_iff_not]
    constructor
    · rintro ⟨found, hfound, hsame⟩
      rw [← of_decide_eq_true hsame]
      exact (Blobs.mem_held.mp hfound).2
    · intro hwhole
      exact ⟨row.blob, Blobs.mem_held.mpr ⟨List.mem_map_of_mem hrow, hwhole⟩, decide_eq_true rfl⟩
  rw [hkeys h, mem_keys_ofPairs, List.map_map]
  simp only [List.mem_map, List.mem_filter, Function.comp_apply]
  constructor
  · rintro ⟨row, ⟨hrow, hlost⟩, rfl⟩
    exact ⟨⟨row, hrow, rfl⟩, (hheld row hrow).mp hlost⟩
  · rintro ⟨⟨row, hrow, rfl⟩, hlost⟩
    exact ⟨row, ⟨hrow, (hheld row hrow).mpr hlost⟩, rfl⟩

/-- What an archive that went through did: its rows read, their bytes all kept, nothing kept before lost, and the rows
kept where none of the same name were. -/
theorem archive_spec (hinjective : Function.Injective sha256)
    (h : archive sizes md5 sha256 disk lake manifest = some (digest, kept)) :
    ∃ rows, parsed manifest = some rows ∧ digest = sha256 (utf8 manifest) ∧
      (∀ blob, Whole md5 sha256 lake.objects blob → Whole md5 sha256 kept.objects blob) ∧
      (∀ row ∈ rows, Whole md5 sha256 kept.objects row.blob) ∧
      kept.closures = if lake.closures.any fun kept => kept.closure = closureOf sha256 manifest then lake.closures
        else lake.closures ++ rows.map (Row.kept (closureOf sha256 manifest)) := by
  obtain ⟨rows, hparsed, h⟩ := Option.bind_eq_some_iff.mp h
  obtain ⟨objects, hmissing, h⟩ := Option.bind_eq_some_iff.mp h
  split at h
  · cases h
  · rename_i staged hstaged
    obtain ⟨hdigest, hkept⟩ := Prod.mk.inj (Option.some.inj h)
    subst hkept
    have hstages : Stages sizes md5 sha256 lake.objects objects staged.1 := (Blobs.stages_of_stage hstaged).1
    have hstays : ∀ blob, Whole md5 sha256 lake.objects blob → Whole md5 sha256 staged.1 blob := by
      rintro blob hwhole
      have hother : blob ∉ objects.map (·.1) := fun hmem => ((mem_missing hmissing).mp hmem).2 hwhole
      obtain ⟨pieces, hpieces⟩ := hwhole
      exact ⟨pieces, (hstages.same hother).intact hpieces⟩
    refine ⟨rows, hparsed, hdigest.symm, hstays, fun row hrow => ?_, rfl⟩
    by_cases hwhole : Whole md5 sha256 lake.objects row.blob
    · exact hstays _ hwhole
    · have hmem : row.blob ∈ objects.map (·.1) := (mem_missing hmissing).mpr ⟨List.mem_map_of_mem hrow, hwhole⟩
      obtain ⟨object, hobject, hname⟩ := List.mem_map.mp hmem
      rw [← hname] at hwhole ⊢
      exact ⟨_, (hstages.kept hinjective hobject (Or.inl hwhole)).intact (hstages.hashed object hobject)⟩

/-- The lake keeps a listing's rows and every byte of its files. -/
structure Holds (md5 : Bytes → Sum) (sha256 : Bytes → Text) (lake : Lake Sum) (rows : List Row) : Prop where
  listed : (lake.closures.filter fun kept => kept.closure = closureOf sha256 (listing rows)) = closureRows sha256 rows
  objects : ∀ row ∈ rows, Whole md5 sha256 lake.objects row.blob

/-- The lake keeps nothing under a listing's name, or that listing. -/
def Free (md5 : Bytes → Sum) (sha256 : Bytes → Text) (lake : Lake Sum) (rows : List Row) : Prop :=
  (lake.closures.filter fun kept => kept.closure = closureOf sha256 (listing rows)) = [] ∨ Holds md5 sha256 lake rows

theorem filter_closureRows (sha256 : Bytes → Text) (rows : List Row) :
    ((closureRows sha256 rows).filter fun kept => kept.closure = closureOf sha256 (listing rows)) =
      closureRows sha256 rows := by
  refine List.filter_eq_self.mpr fun one hone => ?_
  obtain ⟨row, -, rfl⟩ := List.mem_map.mp hone
  exact decide_eq_true rfl

/-- An archive adds rows under its own name alone. -/
theorem filter_archived (hinjective : Function.Injective sha256) {closure : Text}
    (h : archive sizes md5 sha256 disk lake manifest = some (digest, kept)) (hother : closureOf sha256 manifest ≠ closure) :
    (kept.closures.filter fun one => one.closure = closure) = lake.closures.filter fun one => one.closure = closure := by
  obtain ⟨rows, -, -, -, -, hclosures⟩ := archive_spec hinjective h
  rw [hclosures]
  split
  · rfl
  · have hnone : ((rows.map (Row.kept (closureOf sha256 manifest))).filter fun one => one.closure = closure) = [] := by
      refine List.filter_eq_nil_iff.mpr fun one hone => ?_
      obtain ⟨row, -, rfl⟩ := List.mem_map.mp hone
      exact fun hsame => hother (of_decide_eq_true hsame)
    rw [List.filter_append, hnone, List.append_nil]

/-- Archived where the lake keeps nothing else under its name, a listing is held. -/
theorem holds_archived (hinjective : Function.Injective sha256) (hplain : ∀ row ∈ rows, row.Plain)
    (h : archive sizes md5 sha256 disk lake (listing rows) = some (digest, kept))
    (hfree : Free md5 sha256 lake rows) : Holds md5 sha256 kept rows := by
  obtain ⟨found, hparsed, -, hstays, hobjects, hclosures⟩ := archive_spec hinjective h
  obtain rfl : rows = found := Option.some.inj ((parsed_listing hplain).symm.trans hparsed)
  refine ⟨?_, hobjects⟩
  rw [hclosures]
  split
  · rename_i hlisted
    rcases hfree with hnone | hholds
    · obtain ⟨one, hone, hsame⟩ := List.any_eq_true.mp hlisted
      exact absurd hsame (List.filter_eq_nil_iff.mp hnone one hone)
    · exact hholds.listed
  · rename_i hunlisted
    have hnone : (lake.closures.filter fun one => one.closure = closureOf sha256 (listing rows)) = [] :=
      List.filter_eq_nil_iff.mpr fun one hone hsame => hunlisted (List.any_eq_true.mpr ⟨one, hone, hsame⟩)
    rw [List.filter_append, hnone, List.nil_append]
    exact filter_closureRows sha256 rows

/-- Archives that do not share a listing's name without being that listing. -/
def Apart (sha256 : Bytes → Text) (rows : List Row) (label : Disk × Text) : Prop :=
  closureOf sha256 label.2 = closureOf sha256 (listing rows) → label.2 = listing rows

theorem holds_step (hinjective : Function.Injective sha256) (hplain : ∀ row ∈ rows, row.Plain) {label : Disk × Text}
    (hholds : Holds md5 sha256 lake rows) (hapart : Apart sha256 rows label) :
    Holds md5 sha256 (lake.step sizes md5 sha256 label) rows := by
  unfold Lake.step
  split
  · rename_i answer hanswer
    by_cases hsame : closureOf sha256 label.2 = closureOf sha256 (listing rows)
    · rw [hapart hsame] at hanswer
      exact holds_archived hinjective hplain hanswer (Or.inr hholds)
    · refine ⟨(filter_archived hinjective hanswer hsame).trans hholds.listed, fun row hrow => ?_⟩
      obtain ⟨found, -, -, hstays, -⟩ := archive_spec hinjective hanswer
      exact hstays _ (hholds.objects row hrow)
  · exact hholds

theorem free_step (hinjective : Function.Injective sha256) (hplain : ∀ row ∈ rows, row.Plain) {label : Disk × Text}
    (hfree : Free md5 sha256 lake rows) (hapart : Apart sha256 rows label) :
    Free md5 sha256 (lake.step sizes md5 sha256 label) rows := by
  rcases hfree with hnone | hholds
  · unfold Lake.step
    split
    · rename_i answer hanswer
      by_cases hsame : closureOf sha256 label.2 = closureOf sha256 (listing rows)
      · rw [hapart hsame] at hanswer
        exact Or.inr (holds_archived hinjective hplain hanswer (Or.inl hnone))
      · exact Or.inl ((filter_archived hinjective hanswer hsame).trans hnone)
    · exact Or.inl hnone
  · exact Or.inr (holds_step hinjective hplain hholds hapart)

/-- A sealed row: its file was read, and its digest taken from those bytes. -/
structure Row.SealedFrom (sha256 : Bytes → Text) (disk : Disk) (row : Row) : Prop where
  accepted : refused disk row.path = false
  read : ∃ bytes, disk.read row.path = some bytes ∧ sha256 bytes = row.blob

theorem sealed_of_mapM {paths built : List Text} (h : (paths.mapM fun path =>
      if refused disk path then none
      else (disk.read path).map fun bytes =>
        (⟨path, sha256 bytes, if built.any fun marked => marked = path then .built else .source⟩ : Row)) = some rows) :
    rows.map Row.path = paths ∧ ∀ row ∈ rows, row.SealedFrom sha256 disk := by
  have hall := mapM_eq_some_iff.mp h
  clear h
  induction hall with
  | nil => exact ⟨rfl, fun row hrow => (List.not_mem_nil hrow).elim⟩
  | cons hhead htail ih =>
      split at hhead
      · cases hhead
      · rename_i haccepted
        obtain ⟨bytes, hread, rfl⟩ := Option.map_eq_some_iff.mp hhead
        refine ⟨by rw [List.map_cons, ih.1], fun row hrow => ?_⟩
        rcases List.mem_cons.mp hrow with rfl | hrow
        · exact ⟨Bool.eq_false_iff.mpr haccepted, bytes, hread, rfl⟩
        · exact ih.2 row hrow

theorem sealed_rows {names built : List Text} {source : Source} (h : sealFiles sha256 disk names built = some (source, rows)) :
    source = sourceOf sha256 rows ∧ (rows.Pairwise fun one other => one.path ≤ other.path) ∧
      ∀ row ∈ rows, row.SealedFrom sha256 disk := by
  unfold sealFiles at h
  split at h
  · cases h
  · obtain ⟨found, hfound, hpair⟩ := Option.map_eq_some_iff.mp h
    obtain ⟨hsource, rfl⟩ := Prod.mk.inj hpair
    obtain ⟨hpaths, hsealed⟩ := sealed_of_mapM hfound
    refine ⟨hsource.symm, ?_, hsealed⟩
    have hsorted := List.pairwise_insertionSort (· ≤ ·) names.dedup
    rw [← hpaths] at hsorted
    exact List.pairwise_map.mp hsorted

/-- The listed paths with the bytes they were sealed from. -/
def sealedTree (disk : Disk) (rows : List Row) : List (Text × Bytes) :=
  rows.map fun row => (row.path, (disk.read row.path).getD [])

/-- What a lake that holds a sealed listing restores is the bytes the listing was sealed from. -/
theorem restore_of_holds (hinjective : Function.Injective sha256) (hholds : Holds md5 sha256 lake rows)
    (hsorted : rows.Pairwise fun one other => one.path ≤ other.path)
    (hsealed : ∀ row ∈ rows, row.SealedFrom sha256 disk) :
    restore sizes md5 sha256 lake (sha256 (utf8 (listing rows))) =
      if rows = [] then none else some (sealedTree disk rows) := by
  have hlisted : (lake.closures.filter fun kept => kept.closure = (sha256 (utf8 (listing rows))).take 12).insertionSort
      (fun one other => one.path ≤ other.path) = closureRows sha256 rows := by
    refine (congrArg _ hholds.listed).trans (List.Pairwise.insertionSort_eq ?_)
    exact List.pairwise_map.mpr hsorted
  unfold restore
  dsimp only
  rw [hlisted]
  by_cases hrows : rows = []
  · rw [if_pos hrows, hrows]
    exact if_pos rfl
  · rw [if_neg hrows, if_neg fun hnil : closureRows sha256 rows = [] => hrows (List.map_eq_nil_iff.mp hnil)]
    have hmem : ∀ row ∈ rows, row.blob ∈ (closureRows sha256 rows).map Kept.blob := fun row hrow =>
      List.mem_map.mpr ⟨_, List.mem_map_of_mem hrow, rfl⟩
    generalize (closureRows sha256 rows).map Kept.blob = asked at hmem
    rw [closureRows, List.mapM_map]
    refine mapM_map_some fun row hrow => ?_
    obtain ⟨bytes, hread, hhashed⟩ := (hsealed row hrow).read
    have hgot : get (lake.objects.read md5 sha256 sizes.window asked) row.blob = some bytes := by
      cases hget : get (lake.objects.read md5 sha256 sizes.window asked) row.blob with
      | none =>
          obtain ⟨pieces, hpieces⟩ := hholds.objects row hrow
          have hin : (row.blob, pieces.flatten) ∈ lake.objects.read md5 sha256 sizes.window asked :=
            Blobs.mem_read.mpr ⟨hmem row hrow, pieces, hpieces, rfl⟩
          exact absurd (List.mem_map.mpr ⟨_, hin, rfl⟩) ((get_eq_none_iff _ _).mp hget)
      | some found =>
          obtain ⟨-, pieces, hpieces, rfl⟩ := Blobs.mem_read.mp (mem_of_get hget)
          rw [hinjective (hpieces.whole.trans hhashed.symm)]
    change (get _ row.blob).map _ = _
    rw [hgot, hread]
    rfl

/-- A listing whose files still read as they did is archived. -/
theorem exists_archive (hplain : ∀ row ∈ rows, row.Plain) (now : Disk)
    (hsealed : ∀ row ∈ rows, row.SealedFrom sha256 disk) (hsame : ∀ row ∈ rows, now.read row.path = disk.read row.path)
    (lake : Lake Sum) : ∃ kept, archive sizes md5 sha256 now lake (listing rows) =
      some (sha256 (utf8 (listing rows)), kept) := by
  obtain ⟨objects, hmissing, hhashed⟩ : ∃ objects, missing sizes md5 sha256 now lake rows = some objects ∧
      ∀ object ∈ objects, sha256 object.2.contents = object.1 := by
    unfold missing
    dsimp only
    have hentry : ∀ entry ∈ ofPairs ((rows.filter fun row =>
        !(lake.objects.held md5 sha256 sizes.window (rows.map Row.blob)).any fun blob => blob = row.blob).map fun row => (row.blob, row.path)),
          ∃ bytes, now.read entry.2 = some bytes ∧ sha256 bytes = entry.1 := by
      intro entry hentry
      rcases mem_of_mem_putAll hentry with hmem | hmem
      · obtain ⟨row, hrow, rfl⟩ := List.mem_map.mp hmem
        have hrow := (List.mem_filter.mp hrow).1
        rw [hsame row hrow]
        exact (hsealed row hrow).read
      · exact (List.not_mem_nil hmem).elim
    generalize ofPairs ((rows.filter fun row =>
      !(lake.objects.held md5 sha256 sizes.window (rows.map Row.blob)).any fun blob => blob = row.blob).map fun row => (row.blob, row.path)) =
        entries at hentry
    have hread : ∀ entry ∈ entries, (now.read entry.2).map (fun bytes => (entry.1, Blobs.Source.file bytes)) =
        some (entry.1, Blobs.Source.file ((now.read entry.2).getD [])) := fun entry hmem => by
      obtain ⟨bytes, hread, -⟩ := hentry entry hmem
      rw [hread]
      rfl
    refine ⟨_, mapM_map_some hread, fun object hobject => ?_⟩
    obtain ⟨entry, hmem, rfl⟩ := List.mem_map.mp hobject
    obtain ⟨bytes, hread, hhashed⟩ := hentry entry hmem
    dsimp only [Blobs.Source.contents]
    rw [hread]
    exact hhashed
  obtain ⟨staged, size, hstaged⟩ : ∃ staged size, lake.objects.stage sizes md5 sha256 objects = .ok (staged, size) :=
    Blobs.exists_stage lake.objects hhashed
  unfold archive
  rw [parsed_listing hplain, Option.bind_some, hmissing, Option.bind_some, hstaged]
  exact ⟨_, rfl⟩

/-- The digits of a hexadecimal digest. -/
def hexDigits : Text := "0123456789abcdef".toList

theorem hexDigits_plain {char : Char} (h : char ∈ hexDigits) : breaksLine char = false ∧ char ≠ '\t' := by
  have hall : hexDigits.all fun char => !breaksLine char && char != '\t' := by decide +kernel
  simpa using List.all_eq_true.mp hall char h

/-- A sealed row is plain where no line's end beside the refused ones is in its path. -/
theorem Row.SealedFrom.plain {row : Row} (hhex : ∀ bytes, ∀ char ∈ sha256 bytes, char ∈ hexDigits)
    (h : row.SealedFrom sha256 disk) (hpath : ∀ char ∈ row.path, breaksLine char = false) : row.Plain where
  path char hchar := by
    refine ⟨hpath char hchar, fun htab => ?_⟩
    have haccepted := h.accepted
    simp only [refused, Bool.or_eq_false_iff, List.any_eq_false] at haccepted
    exact haccepted.1.1.2 char hchar (by rw [htab]; rfl)
  blob char hchar := by
    obtain ⟨bytes, -, hhashed⟩ := h.read
    rw [← hhashed] at hchar
    exact hexDigits_plain (hhex bytes char hchar)

/-- What every reader of a listing makes of it: the rows, their paths, and on the target their paths and blobs, where
it refuses no path. -/
structure ReadAlike (rows : List Row) : Prop where
  parsed : parsed (listing rows) = some rows
  files : files (listing rows) = rows.map Row.path
  admitted : admitted (listing rows) = some rows
  image : sealedRows (listing rows) = if rows.any fun row => isUnsafe row.path || reserved row.path then none
    else some (rows.map fun row => (row.path, row.blob))

/-- A listing archived in a lake where no other listing ever archived shares its name: it is archived where its files
still read as sealed, and restored from then on as they were sealed, unless it lists nothing. -/
structure Restores (sizes : Blobs.Sizes) (md5 : Bytes → Sum) (sha256 : Bytes → Text) (disk : Disk) (source : Source)
    (rows : List Row) (lake : Lake Sum) (now : Disk) (after : List (Disk × Text)) : Prop where
  archived : (∀ row ∈ rows, now.read row.path = disk.read row.path) →
    ∃ kept, archive sizes md5 sha256 now lake (listing rows) = some (source.digest, kept)
  restored : ∀ digest kept, archive sizes md5 sha256 now lake (listing rows) = some (digest, kept) →
    restore sizes md5 sha256 (run (Lake.step sizes md5 sha256) kept after) digest =
      if rows = [] then none else some (sealedTree disk rows)

end Archiving

/-- A source listing is read alike everywhere and restores what it was sealed from. -/
theorem listing_read_alike (sizes : Blobs.Sizes) (md5 : Bytes → Sum) (hinjective : Function.Injective sha256)
    (hhex : ∀ bytes, ∀ char ∈ sha256 bytes, char ∈ hexDigits) {disk : Disk} {names built : List Text} {source : Source}
    {rows : List Row} (hsealed : sealFiles sha256 disk names built = some (source, rows))
    (hpaths : ∀ row ∈ rows, ∀ char ∈ row.path, breaksLine char = false) :
    ReadAlike rows ∧ ∀ (objects : Blobs.Lake Text Sum) (before after : List (Disk × Text)) (now : Disk),
      (∀ label ∈ before ++ after, Apart sha256 rows label) →
        Restores sizes md5 sha256 disk source rows (run (Lake.step sizes md5 sha256) ⟨objects, []⟩ before) now after := by
  obtain ⟨rfl, hsorted, hsealed⟩ := sealed_rows hsealed
  have hplain : ∀ row ∈ rows, row.Plain := fun row hrow => (hsealed row hrow).plain hhex (hpaths row hrow)
  refine ⟨⟨parsed_listing hplain, files_listing hplain, admitted_listing hplain, sealedRows_listing hplain⟩, ?_⟩
  intro objects before after now hapart
  refine ⟨fun hsame => exists_archive hplain now hsealed hsame _, fun digest kept hkept => ?_⟩
  have hbefore : ∀ label ∈ before, Apart sha256 rows label := fun label hlabel =>
    hapart label (List.mem_append_left _ hlabel)
  have hafter : ∀ label ∈ after, Apart sha256 rows label := fun label hlabel =>
    hapart label (List.mem_append_right _ hlabel)
  have hfreed : ∀ (lake : Lake Sum) label, Free md5 sha256 lake rows → Apart sha256 rows label →
      Free md5 sha256 (lake.step sizes md5 sha256 label) rows := fun _ _ => free_step hinjective hplain
  have hkeeps : ∀ (lake : Lake Sum) label, Holds md5 sha256 lake rows → Apart sha256 rows label →
      Holds md5 sha256 (lake.step sizes md5 sha256 label) rows := fun _ _ => holds_step hinjective hplain
  have hnew : Free md5 sha256 ⟨objects, []⟩ rows := Or.inl rfl
  have hfree := invariant_run hfreed hnew (each_of_labels hbefore)
  have hholds := invariant_run hkeeps (holds_archived hinjective hplain hkept hfree) (each_of_labels hafter)
  obtain ⟨-, -, rfl, -⟩ := archive_spec hinjective hkept
  exact restore_of_holds hinjective hholds hsorted hsealed

/-- Two hexadecimal digits for each byte. -/
def hexOf (bytes : Bytes) : Text := bytes.flatMap fun byte =>
  [hexDigits.getD (byte.toNat / 16) '0', hexDigits.getD (byte.toNat % 16) '0']

theorem hexDigits_getD_inj : ∀ one other : Fin 16, hexDigits.getD one '0' = hexDigits.getD other '0' → one = other := by
  decide +kernel

theorem hexOf_injective : Function.Injective hexOf := by
  intro bytes
  induction bytes with
  | nil =>
      intro others h
      cases others with
      | nil => rfl
      | cons other others => cases h
  | cons byte bytes ih =>
      intro others h
      cases others with
      | nil => cases h
      | cons other others =>
          obtain ⟨hhigh, h⟩ := List.cons.inj h
          obtain ⟨hlow, h⟩ := List.cons.inj h
          have hbyte := byte.toNat_lt
          have hother := other.toNat_lt
          have hhigh := congrArg Fin.val
            (hexDigits_getD_inj ⟨byte.toNat / 16, by omega⟩ ⟨other.toNat / 16, by omega⟩ hhigh)
          have hlow := congrArg Fin.val
            (hexDigits_getD_inj ⟨byte.toNat % 16, by omega⟩ ⟨other.toNat % 16, by omega⟩ hlow)
          have hsame : byte = other := UInt8.toNat_inj.mp (by
            dsimp only at hhigh hlow
            omega)
          rw [hsame, ih h]

theorem mem_hexOf (bytes : Bytes) : ∀ char ∈ hexOf bytes, char ∈ hexDigits := by
  intro char hchar
  obtain ⟨byte, -, hchar⟩ := List.mem_flatMap.mp hchar
  have hdigit : ∀ n < 16, hexDigits.getD n '0' ∈ hexDigits := by decide +kernel
  have hbyte := byte.toNat_lt
  rcases List.mem_cons.mp hchar with rfl | hchar
  · exact hdigit _ (by omega)
  · rw [List.mem_singleton.mp hchar]
    exact hdigit _ (by omega)

/-- A workspace where every path reads as one byte. -/
def oneByte : Disk := ⟨fun _ => true, fun _ => some [7]⟩

/-- A job and the module it imports. -/
def jobRows : List Row := [⟨"job.py".toList, hexOf [7], .source⟩, ⟨"lib.py".toList, hexOf [7], .source⟩]

theorem listing_read_alike_job :
    ReadAlike jobRows ∧ ∀ (objects : Blobs.Lake Text ℕ) (before after : List (Disk × Text)) (now : Disk),
      (∀ label ∈ before ++ after, Apart hexOf jobRows label) →
        Restores ⟨2, 8, 4, 16, by decide⟩ List.length hexOf oneByte (sourceOf hexOf jobRows) jobRows
          (run (Lake.step ⟨2, 8, 4, 16, by decide⟩ List.length hexOf) ⟨objects, []⟩ before) now after :=
  listing_read_alike ⟨2, 8, 4, 16, by decide⟩ List.length hexOf_injective mem_hexOf
    (show sealFiles hexOf oneByte ["job.py".toList, "lib.py".toList] [] = some (sourceOf hexOf jobRows, jobRows) by
      decide +kernel)
    (by
      have hall : jobRows.all fun row => row.path.all fun char => !breaksLine char := by decide +kernel
      intro row hrow char hchar
      simpa using List.all_eq_true.mp (List.all_eq_true.mp hall row hrow) char hchar)

/-- A sealed control file of the pinned tree is listed, and the target refuses the listing. -/
theorem listing_read_alike_fails : ¬ ∀ (sha256 : Bytes → Text), Function.Injective sha256 →
    (∀ bytes, ∀ char ∈ sha256 bytes, char ∈ hexDigits) → ∀ (disk : Disk) (names built : List Text) (source : Source)
      (rows : List Row), sealFiles sha256 disk names built = some (source, rows) →
        parsed (listing rows) = some rows ∧ files (listing rows) = rows.map Row.path ∧
          admitted (listing rows) = some rows ∧
            sealedRows (listing rows) = some (rows.map fun row => (row.path, row.blob)) := by
  intro h
  have hread := h hexOf hexOf_injective mem_hexOf oneByte [".mainboard-closure".toList] []
    (sourceOf hexOf [⟨".mainboard-closure".toList, hexOf [7], .source⟩])
    [⟨".mainboard-closure".toList, hexOf [7], .source⟩] (by decide +kernel)
  have himage := hread.2.2.2
  revert himage
  decide +kernel

end Mainboard.Provenance
