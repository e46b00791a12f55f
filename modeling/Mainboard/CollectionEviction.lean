import Mainboard.CollectionMerge

/-! Evictions beside everything else that happens on a host and at the center: the host's own writes, other passes, merges
of any transfer. Each look at a file is a step of its own, and so is its removal behind the last of them. What is asked
of the host is that no file is written with a size and a modification time its path had before, nor between an eviction's
last look at it and its removal. -/

namespace Mainboard.Collection

open OrderedMap

variable {Digest : Type} [DecidableEq Digest]

/-! ### The host and the center -/

/-- A pass on the host: what the lake held whole when it was asked, the files it has yet to consider as its walk met
them, the one whose digest it took, the one it has no reason left to keep, and its own copy of the remembered digests. -/
structure Process (Digest : Type) where
  kept : List (Path × Digest) := []
  todo : List (Path × Stat) := []
  judged : Option (Path × Stat × Digest) := none
  doomed : Option Path := none
  digests : Digests Digest := []

/-- A file as it was written once. -/
structure Version where
  path : Path
  stat : Stat
  bytes : Bytes
  deriving DecidableEq

/-- The size and modification time a digest is remembered by. -/
def Stat.stamp (stat : Stat) : ℕ × ℕ := (stat.size, stat.mtime)

/-- The host's files, the digests it remembers, its passes, and the center's lake; with every version a file ever had,
and those the host itself replaced or removed. -/
structure Sites (Digest : Type) where
  files : List (Path × (Stat × Bytes)) := []
  digests : Digests Digest := []
  passes : List (Process Digest) := []
  lake : Lake Digest := {}
  past : List Version := []
  dropped : List Version := []

/-- The version of a path that stands. -/
def Sites.standing (sites : Sites Digest) (path : Path) : List Version :=
  ((get sites.files path).map fun file => ⟨path, file.1, file.2⟩).toList

/-- What can happen. -/
inductive Step (world : World Digest) : Sites Digest → Sites Digest → Prop where
  | write (sites : Sites Digest) (path : Path) (stat : Stat) (bytes : Bytes)
      (hnew : ∀ version ∈ sites.past, version.path = path → version.stat.stamp ≠ stat.stamp)
      (hspared : ∀ process ∈ sites.passes, process.doomed ≠ some path) :
      Step world sites { sites with
        files := put sites.files path (stat, bytes)
        past := sites.past ++ [⟨path, stat, bytes⟩]
        dropped := sites.dropped ++ sites.standing path }
  | delete (sites : Sites Digest) (path : Path) :
      Step world sites { sites with
        files := sites.files.filter (·.1 ≠ path)
        dropped := sites.dropped ++ sites.standing path }
  | merge (sites : Sites Digest) (tree : List (Path × Bytes)) (scope : Path) (archive : Archive Digest) :
      Step world sites { sites with lake := (Collection.merge world tree sites.lake scope archive).1 }
  | ask (sites : Sites Digest) (scope : Path) :
      Step world sites { sites with passes := sites.passes ++ [{ kept := sites.lake.intact world scope }] }
  | load (sites : Sites Digest) (before after : List (Process Digest)) (process : Process Digest)
      (hpasses : sites.passes = before ++ process :: after) :
      Step world sites { sites with passes := before ++ { process with digests := sites.digests } :: after }
  | meet (sites : Sites Digest) (before after : List (Process Digest)) (process : Process Digest) (path : Path)
      (file : Stat × Bytes) (hpasses : sites.passes = before ++ process :: after)
      (hfile : get sites.files path = some file) :
      Step world sites { sites with
        passes := before ++ { process with todo := process.todo ++ [(path, file.1)] } :: after }
  /-- The digest of a file that changed meanwhile is whatever was read. -/
  | take (sites : Sites Digest) (before after : List (Process Digest)) (process : Process Digest) (path : Path)
      (seen : Stat) (todo : List (Path × Stat)) (bytes : Bytes)
      (hpasses : sites.passes = before ++ process :: after) (htodo : process.todo = (path, seen) :: todo)
      (hread : ∀ file, get sites.files path = some file → file.1.stamp = seen.stamp → file.2 = bytes) :
      Step world sites { sites with passes := before ++ { process with
        todo := todo
        judged := some (path, seen, (process.digests.of world ⟨path, seen, bytes⟩).1)
        digests := (process.digests.of world ⟨path, seen, bytes⟩).2 } :: after }
  | leave (sites : Sites Digest) (before after : List (Process Digest)) (process : Process Digest)
      (hpasses : sites.passes = before ++ process :: after) :
      Step world sites { sites with
        passes := before ++ { process with todo := process.todo.tail, judged := none, doomed := none } :: after }
  /-- The last look at a file: it is still the one that was seen. -/
  | doom (sites : Sites Digest) (before after : List (Process Digest)) (process : Process Digest) (path : Path)
      (seen : Stat) (digest : Digest) (hpasses : sites.passes = before ++ process :: after)
      (hjudged : process.judged = some (path, seen, digest))
      (hwhy : why process.kept path seen (some digest) ((get sites.files path).map (·.1)) = none) :
      Step world sites { sites with
        passes := before ++ { process with judged := none, doomed := some path } :: after }
  /-- Whatever stands at the path goes. -/
  | unlink (sites : Sites Digest) (before after : List (Process Digest)) (process : Process Digest) (path : Path)
      (hpasses : sites.passes = before ++ process :: after) (hdoomed : process.doomed = some path) :
      Step world sites { sites with
        files := sites.files.filter (·.1 ≠ path)
        passes := before ++ { process with doomed := none, digests := process.digests.forget path } :: after }
  | save (sites : Sites Digest) (before after : List (Process Digest)) (process : Process Digest)
      (hpasses : sites.passes = before ++ process :: after) :
      Step world sites { sites with digests := process.digests, passes := before ++ after }

/-- Runs from a host without passes or remembered digests. -/
inductive Reachable (world : World Digest) : Sites Digest → Prop where
  | start (lake : Lake Digest) : Reachable world { lake := lake }
  | step {before after : Sites Digest} : Reachable world before → Step world before after → Reachable world after

/-! ### What every step keeps -/

section Later

variable {world : World Digest} {before after : Sites Digest}

/-- A digest that fits a path at a size and modification time: the path had them once, and while its file has them it
has that digest. -/
def Fits (world : World Digest) (sites : Sites Digest) (path : Path) (stamp : ℕ × ℕ) (digest : Digest) : Prop :=
  (∃ version ∈ sites.past, version.path = path ∧ version.stat.stamp = stamp) ∧
    ∀ file, get sites.files path = some file → file.1.stamp = stamp → digest = world.hash file.2

/-- What was known stays true. -/
structure Later (world : World Digest) (before after : Sites Digest) : Prop where
  past : ∀ version ∈ before.past, version ∈ after.past
  fits : ∀ path stamp digest, Fits world before path stamp digest → Fits world after path stamp digest
  holds : ∀ digest, before.lake.holds world digest = true → after.lake.holds world digest = true
  spared : ∀ process ∈ before.passes, ∀ path, process.doomed = some path →
    ∀ file, get after.files path = some file → get before.files path = some file

/-- Where no file appears and nothing of the past or the lake changes. -/
theorem Later.of_fewer (hpast : after.past = before.past) (hlake : after.lake = before.lake)
    (hfiles : ∀ path file, get after.files path = some file → get before.files path = some file) :
    Later world before after where
  past _ h := hpast ▸ h
  fits _ _ _ h := ⟨hpast ▸ h.1, fun file hfile => h.2 file (hfiles _ file hfile)⟩
  holds _ h := hlake ▸ h
  spared _ _ path _ := hfiles path

theorem get_without {files : List (Path × (Stat × Bytes))} {path other : Path} {file : Stat × Bytes}
    (h : get (files.filter (·.1 ≠ path)) other = some file) : other ≠ path ∧ get files other = some file := by
  have hfilter := get_filter files (fun name => decide (name ≠ path)) other
  rw [h] at hfilter
  by_cases hsame : other = path
  · simp [hsame] at hfilter
  · exact ⟨hsame, by simpa [hsame] using hfilter.symm⟩

/-- No merge, of any transfer, loses an object. -/
theorem holds_merge (tree : List (Path × Bytes)) (lake : Lake Digest) (scope : Path) (archive : Archive Digest)
    {digest : Digest} (h : lake.holds world digest = true) :
    (merge world tree lake scope archive).1.holds world digest = true := by
  have hingest : ∀ staged, (lake.ingest world staged).holds world digest = true :=
    fun staged => (ingest_holds staged digest).mpr (Or.inl h)
  rw [merge]
  split
  · exact h
  · split
    · exact h
    · split
      · exact h
      · rename_i staged remaining _
        rcases adopt_cases world (lake.ingest world staged) remaining with ⟨hadopt, -⟩ | ⟨row, -, hadopt, -⟩ <;>
          simp only [hadopt] <;> exact hingest staged

theorem Step.later (h : Step world before after) : Later world before after := by
  cases h with
  | write path stat bytes hnew hspared =>
      refine ⟨fun version hversion => List.mem_append_left _ hversion, fun other stamp digest hfits => ?_, fun _ h => h,
        fun process hprocess other hdoomed file hfile => ?_⟩
      · obtain ⟨⟨version, hversion, hpath, hstamp⟩, hdigest⟩ := hfits
        refine ⟨⟨version, List.mem_append_left _ hversion, hpath, hstamp⟩, fun file hfile hsame => ?_⟩
        rw [get_put] at hfile
        split at hfile
        · rename_i heq
          cases hfile
          exact absurd (hstamp.trans hsame.symm) (hnew version hversion (hpath.trans heq.symm))
        · exact hdigest file hfile hsame
      · have hother : other ≠ path := fun hsame => hspared process hprocess (hsame ▸ hdoomed)
        rwa [get_put_of_ne _ _ hother] at hfile
  | delete path => exact .of_fewer rfl rfl fun other file hfile => (get_without hfile).2
  | merge tree scope archive =>
      exact ⟨fun _ h => h, fun _ _ _ h => h, fun digest h => holds_merge tree _ scope archive h, fun _ _ _ _ _ h => h⟩
  | unlink processes rest process path hpasses hdoomed =>
      exact .of_fewer rfl rfl fun other file hfile => (get_without hfile).2
  | ask | load | meet | take | leave | doom | save => exact .of_fewer rfl rfl fun _ _ h => h

end Later

/-! ### Custody -/

/-- Digests that fit, whichever file they are remembered for. -/
def Known (world : World Digest) (sites : Sites Digest) (digests : Digests Digest) : Prop :=
  ∀ path size mtime digest, get digests path = some (size, mtime, digest) → Fits world sites path (size, mtime) digest

/-- A pass as it stands between its steps: the lake held what it may remove, its walk met files that were there, the
digests it took fit, and the lake holds what it is about to remove. -/
structure Careful (world : World Digest) (sites : Sites Digest) (process : Process Digest) : Prop where
  held : ∀ row ∈ process.kept, sites.lake.holds world row.2 = true
  met : ∀ row ∈ process.todo, ∃ version ∈ sites.past, version.path = row.1 ∧ version.stat.stamp = row.2.stamp
  judged : ∀ path seen digest, process.judged = some (path, seen, digest) → Fits world sites path seen.stamp digest
  doomed : ∀ path, process.doomed = some path → ∀ file, get sites.files path = some file →
    sites.lake.holds world (world.hash file.2) = true
  known : Known world sites process.digests

/-- No version is lost but by the host itself: it stands, the host dropped it, or the lake holds it. -/
structure Custody (world : World Digest) (sites : Sites Digest) : Prop where
  written : ∀ path file, get sites.files path = some file → ⟨path, file.1, file.2⟩ ∈ sites.past
  known : Known world sites sites.digests
  careful : ∀ process ∈ sites.passes, Careful world sites process
  kept : ∀ version ∈ sites.past, get sites.files version.path = some (version.stat, version.bytes) ∨
    version ∈ sites.dropped ∨ sites.lake.holds world (world.hash version.bytes) = true

section Custody

variable {world : World Digest} {before after : Sites Digest}

theorem Known.later (hlater : Later world before after) {digests : Digests Digest} (h : Known world before digests) :
    Known world after digests :=
  fun path size mtime digest hget => hlater.fits _ _ _ (h path size mtime digest hget)

theorem Careful.later (hlater : Later world before after) {process : Process Digest} (hprocess : process ∈ before.passes)
    (h : Careful world before process) : Careful world after process where
  held row hrow := hlater.holds _ (h.held row hrow)
  met row hrow := by
    obtain ⟨version, hversion, hsame⟩ := h.met row hrow
    exact ⟨version, hlater.past version hversion, hsame⟩
  judged path seen digest hjudged := hlater.fits _ _ _ (h.judged path seen digest hjudged)
  doomed path hdoomed file hfile :=
    hlater.holds _ (h.doomed path hdoomed file (hlater.spared process hprocess path hdoomed file hfile))
  known := h.known.later hlater

omit [DecidableEq Digest] in
/-- Remembering a digest that fits. -/
theorem Known.put {digests : Digests Digest} (h : Known world before digests) {path : Path} {size mtime : ℕ}
    {digest : Digest} (hfits : Fits world before path (size, mtime) digest) :
    Known world before (put digests path (size, mtime, digest)) := by
  intro other size' mtime' digest' hget
  rw [get_put] at hget
  split at hget
  · rename_i hpath
    cases hget
    exact hpath ▸ hfits
  · exact h other size' mtime' digest' hget

omit [DecidableEq Digest] in
/-- A digest taken fits, be it remembered or read. -/
theorem Known.of {digests : Digests Digest} (h : Known world before digests) {path : Path} {seen : Stat} {bytes : Bytes}
    (hmet : ∃ version ∈ before.past, version.path = path ∧ version.stat.stamp = seen.stamp)
    (hread : ∀ file, get before.files path = some file → file.1.stamp = seen.stamp → file.2 = bytes) :
    Fits world before path seen.stamp (digests.of world ⟨path, seen, bytes⟩).1 ∧
      Known world before (digests.of world ⟨path, seen, bytes⟩).2 := by
  have hfits : Fits world before path seen.stamp (world.hash bytes) :=
    ⟨hmet, fun file hfile hstamp => congrArg world.hash (hread file hfile hstamp).symm⟩
  rw [Digests.of]
  cases hget : get digests path with
  | none => exact ⟨hfits, h.put hfits⟩
  | some record =>
      obtain ⟨size, mtime, digest⟩ := record
      by_cases hreused : size = seen.size ∧ mtime = seen.mtime
      · simp only [if_pos hreused]
        have hstamp : seen.stamp = (size, mtime) := by rw [hreused.1, hreused.2]; rfl
        exact ⟨hstamp ▸ h path size mtime digest hget, h⟩
      · simp only [if_neg hreused]
        exact ⟨hfits, h.put hfits⟩

omit [DecidableEq Digest] in
theorem Known.forget {digests : Digests Digest} (h : Known world before digests) (path : Path) :
    Known world before (digests.forget path) := by
  intro other size mtime digest hget
  rw [Digests.forget, get_filter digests (fun name => decide (name ≠ path)) other] at hget
  split at hget
  · exact h other size mtime digest hget
  · cases hget

/-- A file with no reason to stay has bytes the lake held when the pass was asked. -/
theorem why_eq_none {kept : List (Path × Digest)} {path : Path} {seen : Stat} {digest : Digest} {now : Option Stat}
    (h : why kept path seen (some digest) now = none) :
    get kept path = some digest ∧ ∃ stat, now = some stat ∧ stat.stamp = seen.stamp := by
  unfold why at h
  split at h
  · cases h
  · split at h
    · cases h
    · rename_i wanted hwanted
      simp only at h
      split at h
      · cases h
      · rename_i hsame
        split at h
        · cases h
        · rename_i stat
          split at h
          · rename_i hunchanged
            rw [unchanged, beq_iff_eq, Prod.mk.injEq] at hunchanged
            exact ⟨by rw [hwanted, not_ne_iff.mp hsame], stat, rfl, hunchanged.2⟩
          · cases h

/-- Passes of which one has moved on. -/
theorem careful_of_split {processes rest : List (Process Digest)} {process : Process Digest}
    (hlater : Later world before after) (hcareful : ∀ other ∈ before.passes, Careful world before other)
    {next : Process Digest} (hpasses : before.passes = processes ++ process :: rest)
    (hafter : after.passes = processes ++ next :: rest) (hnext : Careful world after next) : ∀ other ∈ after.passes, Careful world after other := by
  intro other hother
  rw [hafter] at hother
  rcases List.mem_append.mp hother with hearly | hlate
  · have hmem : other ∈ before.passes := hpasses ▸ List.mem_append_left _ hearly
    exact (hcareful other hmem).later hlater hmem
  · rcases List.mem_cons.mp hlate with rfl | hlast
    · exact hnext
    · have hmem : other ∈ before.passes := hpasses ▸ List.mem_append_right _ (List.mem_cons_of_mem _ hlast)
      exact (hcareful other hmem).later hlater hmem

omit [DecidableEq Digest] in
/-- A version that stands is dropped by the host's own write or removal. -/
theorem mem_standing {sites : Sites Digest} {version : Version}
    (h : get sites.files version.path = some (version.stat, version.bytes)) : version ∈ sites.standing version.path := by
  rw [Sites.standing, h]
  exact List.mem_singleton.mpr rfl

/-- Custody where the files and the past stand. -/
theorem Custody.of_still (h : Custody world before) (hlater : Later world before after)
    (hfiles : after.files = before.files) (hpast : after.past = before.past) (hdropped : after.dropped = before.dropped)
    (hknown : Known world after after.digests) (hcareful : ∀ process ∈ after.passes, Careful world after process) :
    Custody world after where
  written path file hfile := hpast ▸ h.written path file (hfiles ▸ hfile)
  known := hknown
  careful := hcareful
  kept version hversion := by
    rw [hfiles, hdropped]
    exact (h.kept version (hpast ▸ hversion)).imp_right fun hrest => hrest.imp_right (hlater.holds _)

theorem Custody.step (h : Custody world before) (hstep : Step world before after) : Custody world after := by
  have hlater := hstep.later
  cases hstep with
  | write path stat bytes hnew =>
      refine ⟨fun other file hfile => ?_, h.known.later hlater, fun process hprocess => (h.careful process hprocess).later hlater hprocess,
        fun version hversion => ?_⟩
      · rw [get_put] at hfile
        split at hfile
        · rename_i hpath
          cases hfile
          exact List.mem_append_right _ (List.mem_singleton.mpr (by rw [hpath]))
        · exact List.mem_append_left _ (h.written other file hfile)
      · rcases List.mem_append.mp hversion with hold | hlast
        · rcases h.kept version hold with hstands | hdropped | hheld
          · by_cases hpath : version.path = path
            · exact Or.inr (Or.inl (List.mem_append_right _ (hpath ▸ mem_standing hstands)))
            · refine Or.inl ?_
              rw [get_put, if_neg (Ne.symm hpath)]
              exact hstands
          · exact Or.inr (Or.inl (List.mem_append_left _ hdropped))
          · exact Or.inr (Or.inr hheld)
        · rw [List.mem_singleton.mp hlast]
          exact Or.inl (by rw [get_put, if_pos rfl])
  | delete path =>
      refine ⟨fun other file hfile => h.written other file (get_without hfile).2, h.known.later hlater,
        fun process hprocess => (h.careful process hprocess).later hlater hprocess, fun version hversion => ?_⟩
      rcases h.kept version hversion with hstands | hdropped | hheld
      · by_cases hpath : version.path = path
        · exact Or.inr (Or.inl (List.mem_append_right _ (hpath ▸ mem_standing hstands)))
        · refine Or.inl ?_
          rw [get_filter before.files (fun name => decide (name ≠ path)), if_pos (decide_eq_true hpath)]
          exact hstands
      · exact Or.inr (Or.inl (List.mem_append_left _ hdropped))
      · exact Or.inr (Or.inr hheld)
  | merge tree scope archive =>
      exact h.of_still hlater rfl rfl rfl (h.known.later hlater)
        fun process hprocess => (h.careful process hprocess).later hlater hprocess
  | ask scope =>
      refine h.of_still hlater rfl rfl rfl (h.known.later hlater) fun process hprocess => ?_
      rcases List.mem_append.mp hprocess with hold | hlast
      · exact (h.careful process hold).later hlater hold
      · rw [List.mem_singleton.mp hlast]
        exact ⟨fun row hrow => (List.mem_filter.mp hrow).2, fun _ hrow => absurd hrow List.not_mem_nil,
          fun _ _ _ hnone => (by cases hnone), fun _ hnone => (by cases hnone), fun _ _ _ _ hnone => (by cases hnone)⟩
  | load processes rest process hpasses =>
      have hprocess : process ∈ before.passes := hpasses ▸ List.mem_append_right _ List.mem_cons_self
      have hold := (h.careful process hprocess).later hlater hprocess
      exact h.of_still hlater rfl rfl rfl (h.known.later hlater) (careful_of_split hlater h.careful hpasses rfl
        ⟨hold.held, hold.met, hold.judged, hold.doomed, h.known.later hlater⟩)
  | meet processes rest process path file hpasses hfile =>
      have hprocess : process ∈ before.passes := hpasses ▸ List.mem_append_right _ List.mem_cons_self
      have hold := (h.careful process hprocess).later hlater hprocess
      refine h.of_still hlater rfl rfl rfl (h.known.later hlater) (careful_of_split hlater h.careful hpasses rfl
        ⟨hold.held, fun row hrow => ?_, hold.judged, hold.doomed, hold.known⟩)
      rcases List.mem_append.mp hrow with hearly | hlast
      · exact hold.met row hearly
      · rw [List.mem_singleton.mp hlast]
        exact ⟨_, h.written path file hfile, rfl, rfl⟩
  | take processes rest process path seen todo bytes hpasses htodo hread =>
      have hprocess : process ∈ before.passes := hpasses ▸ List.mem_append_right _ List.mem_cons_self
      have hold := (h.careful process hprocess).later hlater hprocess
      have hmet := hold.met (path, seen) (htodo ▸ List.mem_cons_self)
      obtain ⟨hfits, hknown⟩ := hold.known.of hmet hread
      refine h.of_still hlater rfl rfl rfl (h.known.later hlater) (careful_of_split hlater h.careful hpasses rfl
        ⟨hold.held, fun row hrow => hold.met row (htodo ▸ List.mem_cons_of_mem _ hrow), fun other seen' digest hjudged => ?_,
          hold.doomed, hknown⟩)
      cases hjudged
      exact hfits
  | leave processes rest process hpasses =>
      have hprocess : process ∈ before.passes := hpasses ▸ List.mem_append_right _ List.mem_cons_self
      have hold := (h.careful process hprocess).later hlater hprocess
      exact h.of_still hlater rfl rfl rfl (h.known.later hlater) (careful_of_split hlater h.careful hpasses rfl
        ⟨hold.held, fun row hrow => hold.met row (List.mem_of_mem_tail hrow), fun _ _ _ hnone => (by cases hnone),
          fun _ hnone => (by cases hnone), hold.known⟩)
  | doom processes rest process path seen digest hpasses hjudged hwhy =>
      have hprocess : process ∈ before.passes := hpasses ▸ List.mem_append_right _ List.mem_cons_self
      have hold := (h.careful process hprocess).later hlater hprocess
      refine h.of_still hlater rfl rfl rfl (h.known.later hlater) (careful_of_split hlater h.careful hpasses rfl
        ⟨hold.held, hold.met, fun _ _ _ hnone => (by cases hnone), fun other hother file hfile => ?_, hold.known⟩)
      obtain rfl := Option.some.inj hother
      obtain ⟨hkept, stat, hnow, hstamp⟩ := why_eq_none hwhy
      obtain ⟨standing, hstanding, rfl⟩ := Option.map_eq_some_iff.mp hnow
      obtain rfl : standing = file := Option.some.inj (hstanding.symm.trans hfile)
      have hdigest : digest = world.hash standing.2 :=
        ((h.careful process hprocess).judged path seen digest hjudged).2 standing hstanding hstamp
      exact hdigest ▸ hold.held _ (mem_of_get hkept)
  | unlink processes rest process path hpasses hdoomed =>
      have hprocess : process ∈ before.passes := hpasses ▸ List.mem_append_right _ List.mem_cons_self
      have hold := (h.careful process hprocess).later hlater hprocess
      refine ⟨fun other file hfile => h.written other file (get_without hfile).2, h.known.later hlater,
        careful_of_split hlater h.careful hpasses rfl
          ⟨hold.held, hold.met, hold.judged, fun _ hnone => (by cases hnone), hold.known.forget path⟩,
        fun version hversion => ?_⟩
      rcases h.kept version hversion with hstands | hrest
      · by_cases hpath : version.path = path
        · exact Or.inr (Or.inr ((h.careful process hprocess).doomed path hdoomed _ (hpath ▸ hstands)))
        · refine Or.inl ?_
          rw [get_filter before.files (fun name => decide (name ≠ path)), if_pos (decide_eq_true hpath)]
          exact hstands
      · exact Or.inr hrest
  | save processes rest process hpasses =>
      have hprocess : process ∈ before.passes := hpasses ▸ List.mem_append_right _ List.mem_cons_self
      have hold := (h.careful process hprocess).later hlater hprocess
      refine h.of_still hlater rfl rfl rfl hold.known fun other hother => ?_
      have hmem : other ∈ before.passes := by
        rw [hpasses]
        rcases List.mem_append.mp hother with hearly | hlate
        · exact List.mem_append_left _ hearly
        · exact List.mem_append_right _ (List.mem_cons_of_mem _ hlate)
      exact (h.careful other hmem).later hlater hmem

theorem Reachable.custody {sites : Sites Digest} (h : Reachable world sites) : Custody world sites := by
  induction h with
  | start lake =>
      exact ⟨fun _ _ hnone => (by cases hnone), fun _ _ _ _ hnone => (by cases hnone),
        fun _ hnone => absurd hnone List.not_mem_nil, fun _ hnone => absurd hnone List.not_mem_nil⟩
  | step _ hstep ih => exact ih.step hstep

/-- Every version a file of the host ever had still stands, was dropped by the host itself, or is in the lake byte for
byte. -/
theorem evictions_lose_nothing (hinjective : Function.Injective world.hash) {sites : Sites Digest}
    (h : Reachable world sites) {version : Version} (hversion : version ∈ sites.past) :
    get sites.files version.path = some (version.stat, version.bytes) ∨ version ∈ sites.dropped ∨
      get sites.lake.objects (world.hash version.bytes) = some version.bytes := by
  refine (h.custody.kept version hversion).imp_right fun hrest => hrest.imp_right fun hheld => ?_
  obtain ⟨bytes, hget, hhash⟩ := holds_iff.mp hheld
  rw [hget, hinjective hhash]

end Custody

/-- A file written, collected and evicted. -/
theorem evictions_lose_nothing_once : ∃ sites : Sites Bytes,
    Reachable spelled sites ∧ sites.files = [] ∧
      (get sites.files ["out", "a"] = some (⟨1, 2, 10, true⟩, [1, 2]) ∨
        ⟨["out", "a"], ⟨1, 2, 10, true⟩, [1, 2]⟩ ∈ sites.dropped ∨ get sites.lake.objects [1, 2] = some [1, 2]) := by
  have hstart : Reachable (spelled : World Bytes) { lake := {} } := .start {}
  have hwritten := hstart.step (.write _ ["out", "a"] ⟨1, 2, 10, true⟩ [1, 2]
    (fun _ hnone => absurd hnone List.not_mem_nil) (fun _ hnone => absurd hnone List.not_mem_nil))
  have hmerged := hwritten.step (.merge _ [] ["out"] ⟨[(["out", "a"], [1, 2])], [], false⟩)
  have hasked := hmerged.step (.ask _ ["out"])
  have hmet := hasked.step (.meet _ [] [] _ ["out", "a"] (⟨1, 2, 10, true⟩, [1, 2]) rfl rfl)
  have htaken := hmet.step (.take _ [] [] _ ["out", "a"] ⟨1, 2, 10, true⟩ [] [1, 2] rfl rfl fun file hfile _ => by
    cases hfile
    rfl)
  have hdoomed := htaken.step (.doom _ [] [] _ ["out", "a"] ⟨1, 2, 10, true⟩ [1, 2] rfl rfl (by decide))
  have hevicted := hdoomed.step (.unlink _ [] [] _ ["out", "a"] rfl rfl)
  exact ⟨_, hevicted, by decide, evictions_lose_nothing (fun _ _ h => h) hevicted List.mem_cons_self⟩

end Mainboard.Collection
