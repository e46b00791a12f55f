import Mathlib.Logic.Function.Basic
import Mainboard.EvictionSteps

/-! An eviction loses no bytes. Whatever stood at a name is there, in a private folder beside it, taken
away by another process itself, or was the closed file with its bytes whole in the lake. -/

namespace Mainboard.Eviction

open Blobs (Bytes Lake Audit Whole Intact)

variable {Path Digest Sum : Type} [DecidableEq Path] [DecidableEq Digest] [DecidableEq Sum]
  {md5 : Bytes → Sum} {sha256 : Bytes → Digest} {window limit : ℕ} {world next later : World Path Digest Sum}
  {path : Path} {file : File}

/-- Where a file that stood at a name is: there, in a folder beside it, taken by another process, or
removed for good. -/
inductive Accounted (world : World Path Digest Sum) (path : Path) (file : File) : Prop
  | stands (hfile : world.files path = some file)
  | folder {custody : Custody Path Digest} (hcustody : custody ∈ world.phase.waiting ++ world.retained)
      (hpath : custody.item.path = path) (hfile : custody.file = some file)
  | replaced (hfile : file ∈ world.replaced)
  | removed {item : Item Path Digest} (hitem : (item, file) ∈ world.removed) (hpath : item.path = path)

/-! Every step keeps every file accounted for -/

/-- A folder with a file that stood at a path. -/
def InFolder (folders : List (Custody Path Digest)) (path : Path) (file : File) : Prop :=
  ∃ custody ∈ folders, custody.item.path = path ∧ custody.file = some file

omit [DecidableEq Path] [DecidableEq Digest] in
theorem InFolder.mono {folders others : List (Custody Path Digest)} (h : InFolder folders path file)
    (hsub : folders ⊆ others) : InFolder others path file := by
  obtain ⟨custody, hcustody, hpath, hfile⟩ := h
  exact ⟨custody, hsub hcustody, hpath, hfile⟩

omit [DecidableEq Path] [DecidableEq Digest] in
theorem waiting_subset_folders (phase : Phase Path Digest) : phase.waiting ⊆ phase.folders := by
  cases phase with
  | unlinking custody stack => exact List.subset_cons_self _ _
  | taking | judging | settling | leaving | finished => exact List.Subset.refl _

/-- What stands at a name an eviction only ever moves into a folder of it. -/
theorem stands_evicting (hstep : Evicting md5 sha256 window limit world next) (hfile : world.files path = some file) :
    next.files path = some file ∨ InFolder next.phase.waiting path file := by
  cases hstep with
  | @moved stack item rest moved hphase hmoved =>
      by_cases hsame : path = item.path
      · subst hsame
        rw [hfile, Option.some.injEq] at hmoved
        subst hmoved
        exact .inr ⟨_, List.mem_cons_self, rfl, rfl⟩
      · exact .inl ((set_ne hsame).trans hfile)
  | @linked stack custody back hphase hback hfree =>
      by_cases hsame : path = custody.item.path
      · subst hsame
        rw [hfile] at hfree
        cases hfree
      · exact .inl ((set_ne hsame).trans hfile)
  | missing | judged | asked | kept | unlinked | settled | failed | returned | stranded | emptied | next | ended | died =>
      exact .inl hfile

/-- What is in a folder stays in one until it is linked back to its name or removed for good. -/
theorem inFolder_evicting (hstep : Evicting md5 sha256 window limit world next)
    (hfile : InFolder (world.phase.waiting ++ world.retained) path file) :
    next.files path = some file ∨ InFolder (next.phase.waiting ++ next.retained) path file ∨
      ∃ item, (item, file) ∈ next.removed ∧ item.path = path := by
  cases hstep with
  | @moved stack item rest moved hphase hmoved =>
      rw [hphase] at hfile
      exact .inr (.inl (hfile.mono (List.subset_cons_self _ _)))
  | missing hphase => 
      rw [hphase] at hfile
      exact .inr (.inl hfile)
  | @judged stack item rest judged hphase hreadable =>
      rw [hphase] at hfile
      obtain ⟨custody, hcustody, hpath, hheld⟩ := hfile
      rcases List.mem_cons.mp hcustody with rfl | hold
      · exact .inr (.inl ⟨_, List.mem_cons_self, hpath, hheld⟩)
      · exact .inr (.inl ⟨custody, List.mem_cons_of_mem _ hold, hpath, hheld⟩)
  | @asked stack hphase =>
      rw [hphase] at hfile
      refine .inr (.inl (hfile.mono ?_))
      simp [Phase.waiting, Phase.folders]
  | @kept audits done rest custody hphase hkept =>
      rw [hphase] at hfile
      refine .inr (.inl (hfile.mono fun other hother => ?_))
      simp only [Phase.waiting, Phase.folders, List.mem_append, List.mem_cons] at hother ⊢
      tauto
  | @unlinked audits done rest custody unlinked hphase hheld hfault hcustody hclosed =>
      rw [hphase] at hfile
      obtain ⟨other, hother, hpath, hotherFile⟩ := hfile
      simp only [Phase.waiting, Phase.folders, List.mem_append, List.mem_cons] at hother
      by_cases hsame : other = custody
      · subst hsame
        rw [hcustody, Option.some.injEq] at hotherFile
        subst hotherFile
        exact .inr (.inr ⟨_, List.mem_cons_self, hpath⟩)
      · refine .inr (.inl ⟨other, ?_, hpath, hotherFile⟩)
        simp only [Phase.waiting, Phase.folders, List.mem_append, List.mem_cons]
        tauto
  | settled hphase =>
      rw [hphase] at hfile
      refine .inr (.inl (hfile.mono ?_))
      simp [Phase.waiting, Phase.folders]
  | failed hphase hlinked hover =>
      refine .inr (.inl (hfile.mono fun custody hcustody => ?_))
      rcases List.mem_append.mp hcustody with hwaiting | hretained
      · exact List.mem_append_left _ (waiting_subset_folders _ hwaiting)
      · exact List.mem_append_right _ hretained
  | @linked stack custody back hphase hback hfree =>
      rw [hphase] at hfile
      obtain ⟨other, hother, hpath, hotherFile⟩ := hfile
      rcases List.mem_cons.mp hother with rfl | hold
      · rw [hback, Option.some.injEq] at hotherFile
        subst hotherFile hpath
        exact .inl (set_self _ _ _)
      · exact .inr (.inl ⟨other, hold, hpath, hotherFile⟩)
  | returned hphase =>
      rw [hphase] at hfile
      exact .inr (.inl hfile)
  | @stranded stack custody hphase =>
      refine .inr (.inl (hfile.mono fun other hother => ?_))
      simp only [Phase.waiting, Phase.folders, List.mem_append, List.mem_cons]
      rcases hphase with hphase | hphase <;> rw [hphase] at hother <;>
        simp only [Phase.waiting, Phase.folders, List.mem_append, List.mem_cons] at hother <;> tauto
  | @emptied stack custody hphase hempty =>
      rw [hphase] at hfile
      obtain ⟨other, hother, hpath, hotherFile⟩ := hfile
      rcases List.mem_cons.mp hother with rfl | hold
      · rw [hempty] at hotherFile
        cases hotherFile
      · exact .inr (.inl ⟨other, hold, hpath, hotherFile⟩)
  | next hphase =>
      rw [hphase] at hfile
      exact .inr (.inl hfile)
  | ended hphase =>
      rw [hphase] at hfile
      exact .inr (.inl hfile)
  | died =>
      refine .inr (.inl (hfile.mono fun custody hcustody => List.mem_append_right _ ?_))
      rcases List.mem_append.mp hcustody with hwaiting | hretained
      · exact List.mem_append_left _ (waiting_subset_folders _ hwaiting)
      · exact List.mem_append_right _ hretained

theorem replaced_evicting (hstep : Evicting md5 sha256 window limit world next) : next.replaced = world.replaced := by
  cases hstep <;> rfl

theorem removed_evicting (hstep : Evicting md5 sha256 window limit world next) : world.removed ⊆ next.removed := by
  cases hstep with
  | unlinked => exact List.subset_cons_self _ _
  | moved | missing | judged | asked | kept | settled | failed | linked | returned | stranded | emptied | next
  | ended | died => exact List.Subset.refl _

theorem Accounted.step (h : Accounted world path file) (hstep : Step md5 sha256 window limit world next) :
    Accounted next path file := by
  cases hstep with
  | evicting hstep =>
      cases h with
      | stands hfile =>
          rcases stands_evicting hstep hfile with hstands | ⟨custody, hcustody, hpath, hheld⟩
          · exact .stands hstands
          · exact .folder (List.mem_append_left _ hcustody) hpath hheld
      | folder hcustody hpath hfile =>
          rcases inFolder_evicting hstep ⟨_, hcustody, hpath, hfile⟩ with
            hstands | ⟨custody, hcustody, hpath, hheld⟩ | ⟨item, hitem, hpath⟩
          · exact .stands hstands
          · exact .folder hcustody hpath hheld
          · exact .removed hitem hpath
      | replaced hfile => exact .replaced (by rw [replaced_evicting hstep]; exact hfile)
      | removed hitem hpath => exact .removed (removed_evicting hstep hitem) hpath
  | foreign hstep =>
      have hset : ∀ (other : Path) (placed : Option File), world.files path = some file →
          set world.files other placed path = some file ∨ file ∈ (world.files other).toList ++ world.replaced := by
        intro other placed hfile
        by_cases hsame : path = other
        · subst hsame
          exact .inr (List.mem_append_left _ (by rw [hfile]; exact List.mem_singleton.mpr rfl))
        · exact .inl ((set_ne hsame).trans hfile)
      cases hstep with
      | placed other identity regular bytes =>
          cases h with
          | stands hfile => exact (hset other _ hfile).elim (fun h => .stands h) fun h => .replaced h
          | folder hcustody hpath hfile => exact .folder hcustody hpath hfile
          | replaced hfile => exact .replaced (List.mem_append_right _ hfile)
          | removed hitem hpath => exact .removed hitem hpath
      | taken other =>
          cases h with
          | stands hfile => exact (hset other _ hfile).elim (fun h => .stands h) fun h => .replaced h
          | folder hcustody hpath hfile => exact .folder hcustody hpath hfile
          | replaced hfile => exact .replaced (List.mem_append_right _ hfile)
          | removed hitem hpath => exact .removed hitem hpath
      | staged lake hwhole =>
          cases h with
          | stands hfile => exact .stands hfile
          | folder hcustody hpath hfile => exact .folder hcustody hpath hfile
          | replaced hfile => exact .replaced hfile
          | removed hitem hpath => exact .removed hitem hpath

theorem Accounted.steps (h : Accounted world path file) (hsteps : Steps md5 sha256 window limit world later) :
    Accounted later path file := by
  induction hsteps with
  | refl => exact h
  | tail _ hstep ih => exact ih.step hstep

/-! What is removed for good was the closed file, whole in the lake -/

/-- A file found to be the one its producer closed, with its item's digest. -/
def Checked (sha256 : Bytes → Digest) (item : Item Path Digest) (file : File) : Prop :=
  file.identity = item.closed ∧ digestAt sha256 file = some item.sha256

/-- The lake holds an item's object whole in its size. -/
def Sized (md5 : Bytes → Sum) (sha256 : Bytes → Digest) (lake : Lake Digest Sum) (item : Item Path Digest) : Prop :=
  ∃ pieces, Intact sha256 md5 lake item.sha256 pieces ∧ pieces.flatten.length = item.size

omit [DecidableEq Path] in
/-- Nothing is against an item only where the lake holds its object whole in its size. -/
theorem sized_of_faultOf {lake : Lake Digest Sum} {sizes : List (Digest × ℕ)} {item : Item Path Digest}
    (h : faultOf (audited md5 sha256 window limit lake sizes) item = "") : Sized md5 sha256 lake item := by
  unfold faultOf at h
  cases haudit : (audited md5 sha256 window limit lake sizes).lookup item.sha256 with
  | none =>
      rw [haudit] at h
      simp at h
  | some audit =>
      rw [haudit] at h
      obtain ⟨before, after, hlist, -⟩ := List.lookup_eq_some_iff.mp haudit
      have hmem : (item.sha256, audit) ∈ audited md5 sha256 window limit lake sizes := by
        rw [hlist]
        exact List.mem_append_right _ List.mem_cons_self
      obtain ⟨part, -, hfound⟩ := List.mem_flatMap.mp hmem
      exact Blobs.sized_of_audit hfound h

/-- What holds of an eviction in progress. -/
structure Sound (md5 : Bytes → Sum) (sha256 : Bytes → Digest) (world : World Path Digest Sum) : Prop where
  checked : ∀ custody ∈ world.phase.folders, custody.held → ∀ file, custody.file = some file →
    Checked sha256 custody.item file
  answered : ∀ audits done rest, world.phase = .settling audits done rest → ∀ item : Item Path Digest,
    faultOf audits item = "" → Sized md5 sha256 world.lake item
  removed : ∀ gone ∈ world.removed, Checked sha256 gone.1 gone.2 ∧ Sized md5 sha256 world.lake gone.1
  retained : world.raised = false → world.retained = []

omit [DecidableEq Path] [DecidableEq Digest] [DecidableEq Sum] in
/-- What a lake keeps whole it keeps in its size. -/
theorem Sized.of_whole (hinjective : Function.Injective sha256) {lake staged : Lake Digest Sum} {item : Item Path Digest}
    (hwhole : Whole md5 sha256 lake item.sha256 → Whole md5 sha256 staged item.sha256)
    (h : Sized md5 sha256 lake item) : Sized md5 sha256 staged item := by
  obtain ⟨pieces, hpieces, hsize⟩ := h
  obtain ⟨others, hothers⟩ := hwhole ⟨pieces, hpieces⟩
  exact ⟨others, hothers, by rw [hinjective (hothers.whole.trans hpieces.whole.symm), hsize]⟩

theorem Sound.evicting (h : Sound md5 sha256 world) (hstep : Evicting md5 sha256 window limit world next) :
    Sound md5 sha256 next := by
  obtain ⟨hchecked, hanswered, hremoved, hretained⟩ := h
  cases hstep with
  | @moved stack item rest moved hphase hmoved =>
      refine ⟨fun custody hcustody => ?_, fun _ _ _ hsettling => (by cases hsettling), hremoved, hretained⟩
      rw [hphase] at hchecked
      rcases List.mem_cons.mp hcustody with rfl | hold
      · exact fun hheld => by cases hheld
      · exact hchecked custody hold
  | missing hphase =>
      rw [hphase] at hchecked
      exact ⟨hchecked, fun _ _ _ hsettling => (by cases hsettling), hremoved, hretained⟩
  | @judged stack item rest judged hphase hreadable =>
      refine ⟨fun custody hcustody => ?_, fun _ _ _ hsettling => (by cases hsettling), hremoved, hretained⟩
      rw [hphase] at hchecked
      rcases List.mem_cons.mp hcustody with rfl | hold
      · intro hheld file hfile
        cases hfile
        simpa [Checked] using hheld
      · exact hchecked custody (List.mem_cons_of_mem _ hold)
  | @asked stack hphase =>
      refine ⟨fun custody hcustody => ?_, fun audits done rest hsettling item hfault => ?_, hremoved, hretained⟩
      · rw [hphase] at hchecked
        exact hchecked custody (List.mem_reverse.mp hcustody)
      · cases hsettling
        exact sized_of_faultOf hfault
  | @kept audits done rest custody hphase hkept =>
      refine ⟨fun other hother => ?_, fun _ _ _ hsettling => ?_, hremoved, hretained⟩
      · refine hchecked other ?_
        rw [hphase]
        simp only [Phase.folders, List.mem_append, List.mem_cons] at hother ⊢
        tauto
      · cases hsettling
        exact hanswered _ _ _ hphase
  | @unlinked audits done rest custody unlinked hphase hheld hfault hcustody hclosed =>
      refine ⟨fun other hother => ?_, fun _ _ _ hsettling => ?_, fun gone hgone => ?_, hretained⟩
      · simp only [Phase.folders, List.mem_append, List.mem_cons] at hother
        rcases hother with (rfl | hdone) | hrest
        · intro _ file hfile
          cases hfile
        · exact hchecked other (by rw [hphase]; exact List.mem_append_left _ hdone)
        · exact hchecked other (by rw [hphase]; exact List.mem_append_right _ (List.mem_cons_of_mem _ hrest))
      · cases hsettling
        exact hanswered _ _ _ hphase
      · rcases List.mem_cons.mp hgone with rfl | hold
        · exact ⟨hchecked custody (by rw [hphase]; exact List.mem_append_right _ List.mem_cons_self) hheld _ hcustody,
            hanswered _ _ _ hphase _ hfault⟩
        · exact hremoved gone hold
  | settled hphase =>
      refine ⟨fun custody hcustody => ?_, fun _ _ _ hsettling => (by cases hsettling), hremoved, hretained⟩
      refine hchecked custody ?_
      rw [hphase]
      exact List.mem_append_left _ hcustody
  | failed hphase hlinked hover =>
      exact ⟨hchecked, fun _ _ _ hsettling => (by cases hsettling), hremoved, fun hraised => by cases hraised⟩
  | @linked stack custody back hphase hback hfree =>
      rw [hphase] at hchecked
      exact ⟨hchecked, fun _ _ _ hsettling => (by cases hsettling), hremoved, hretained⟩
  | returned hphase =>
      rw [hphase] at hchecked
      exact ⟨fun custody hcustody => hchecked custody (List.mem_cons_of_mem _ hcustody),
        fun _ _ _ hsettling => (by cases hsettling), hremoved, hretained⟩
  | @stranded stack custody hphase =>
      refine ⟨fun other hother => ?_, fun _ _ _ hsettling => (by cases hsettling), hremoved,
        fun hraised => by cases hraised⟩
      rcases hphase with hphase | hphase <;> rw [hphase] at hchecked <;>
        exact hchecked other (List.mem_cons_of_mem _ hother)
  | @emptied stack custody hphase hempty =>
      rw [hphase] at hchecked
      exact ⟨fun other hother => hchecked other (List.mem_cons_of_mem _ hother),
        fun _ _ _ hsettling => (by cases hsettling), hremoved, hretained⟩
  | next hphase =>
      exact ⟨fun _ hcustody => (by cases hcustody), fun _ _ _ hsettling => (by cases hsettling), hremoved, hretained⟩
  | ended hphase =>
      exact ⟨fun _ hcustody => (by cases hcustody), fun _ _ _ hsettling => (by cases hsettling), hremoved, hretained⟩
  | died =>
      exact ⟨fun _ hcustody => (by cases hcustody), fun _ _ _ hsettling => (by cases hsettling), hremoved,
        fun hraised => by cases hraised⟩

theorem Sound.step (hinjective : Function.Injective sha256) (h : Sound md5 sha256 world)
    (hstep : Step md5 sha256 window limit world next) : Sound md5 sha256 next := by
  cases hstep with
  | evicting hstep => exact h.evicting hstep
  | foreign hstep =>
      cases hstep with
      | placed | taken => exact ⟨h.checked, h.answered, h.removed, h.retained⟩
      | staged lake hwhole =>
          refine ⟨h.checked, fun audits done rest hphase item hfault => ?_, fun gone hgone => ?_, h.retained⟩
          · exact (h.answered audits done rest hphase item hfault).of_whole hinjective (hwhole _)
          · exact ⟨(h.removed gone hgone).1, (h.removed gone hgone).2.of_whole hinjective (hwhole _)⟩

theorem sound_of_steps (hinjective : Function.Injective sha256) {files : Path → Option File} {lake : Lake Digest Sum}
    {batches : List (List (Item Path Digest))} {serial : ℕ}
    (hsteps : Steps md5 sha256 window limit (.before files lake batches serial) world) : Sound md5 sha256 world := by
  induction hsteps with
  | refl => exact ⟨by simp [World.before, Phase.folders], fun _ _ _ hsettling => (by cases hsettling),
      by simp [World.before], fun _ => rfl⟩
  | tail _ hstep ih => exact ih.step hinjective hstep

/-- What an eviction promises of a world it reached. -/
structure LosesNothing (md5 : Bytes → Sum) (sha256 : Bytes → Digest) (window limit : ℕ)
    (world : World Path Digest Sum) : Prop where
  /-- What was removed for good was the closed file, regular and with its item's digest, and the lake
  holds its very bytes whole. -/
  removed : ∀ gone ∈ world.removed, gone.2.identity = gone.1.closed ∧ gone.2.regular ∧
    sha256 gone.2.bytes = gone.1.sha256 ∧ gone.2.bytes.length = gone.1.size ∧
      ∃ pieces, Intact sha256 md5 world.lake gone.1.sha256 pieces ∧ pieces.flatten = gone.2.bytes
  /-- From here on whatever stands at a name stays there or in a folder beside it, unless another process
  takes it or it is removed for good. -/
  accounted : ∀ later, Steps md5 sha256 window limit world later → ∀ path file,
    world.files path = some file → Accounted later path file
  /-- The eviction itself takes nothing from a name but into a folder of it. -/
  overwrites : ∀ next, Evicting md5 sha256 window limit world next → ∀ path file, world.files path = some file →
    next.files path = some file ∨ InFolder next.phase.waiting path file
  /-- An eviction that ended without a complaint left nothing in a folder. -/
  ended : world.phase = .finished → world.raised = false → world.phase.waiting ++ world.retained = []

/-- Evicting evidence never loses bytes, whatever other processes do at the same names and wherever a
call fails or the process dies. -/
theorem evict_loses_nothing (hinjective : Function.Injective sha256) (files : Path → Option File)
    (lake : Lake Digest Sum) (batches : List (List (Item Path Digest))) (serial : ℕ) :
    ∀ world, Steps md5 sha256 window limit (.before files lake batches serial) world →
      LosesNothing md5 sha256 window limit world := by
  intro world hsteps
  have hsound := sound_of_steps hinjective hsteps
  refine ⟨fun gone hgone => ?_, fun later hlater path file hfile => (Accounted.stands hfile).steps hlater,
    fun next hstep path file => stands_evicting hstep, fun hover hraised => ?_⟩
  · obtain ⟨⟨hclosed, hdigest⟩, pieces, hpieces, hsize⟩ := hsound.removed gone hgone
    unfold digestAt at hdigest
    split at hdigest
    · rename_i hregular
      have hhashed : sha256 gone.2.bytes = gone.1.sha256 := Option.some.inj hdigest
      have hbytes : pieces.flatten = gone.2.bytes := hinjective (hpieces.whole.trans hhashed.symm)
      exact ⟨hclosed, hregular, hhashed, hbytes ▸ hsize, pieces, hpieces, hbytes⟩
    · cases hdigest
  · rw [hover, hsound.retained hraised]
    rfl

/-- A closed file of one byte. -/
def closedFile : File := ⟨0, ⟨1, 7, 1, 5⟩, true, [42]⟩

/-- The item it is evicted as, its object named by its own bytes. -/
def closedItem : Item String Bytes := ⟨"run.json", [42], 1, ⟨1, 7, 1, 5⟩⟩

/-- A lake holding the object whole. -/
def holdingLake : Lake Bytes ℕ where
  blobs := [⟨[42], some 0, some [42]⟩]
  checksums := [⟨[42], 0, 1⟩]
  vouched := by simp

/-- A tree with the one file. -/
def oneFile : String → Option File := set (fun _ => none) "run.json" (some closedFile)

/-- What another process writes at its name meanwhile. -/
def rewritten : File := ⟨1, ⟨1, 8, 1, 6⟩, true, [43]⟩

/-- Taken, written anew by another process, judged, asked about and removed: one file's whole way through an
eviction. -/
theorem exists_eviction : ∃ world, Steps (fun bytes => bytes.length) (fun bytes => bytes) 4 8
    (.before oneFile holdingLake [[closedItem]] 1) world ∧ world.removed = [(closedItem, closedFile)] ∧
      world.files "run.json" = some rewritten := by
  have hfile : oneFile closedItem.path = some closedFile := set_self _ _ _
  refine ⟨_, .tail (.tail (.tail (.tail (.tail (.tail .refl (.evicting (.next rfl rfl rfl)))
    (.evicting (.moved rfl hfile))) (.foreign (.placed "run.json" rewritten.identity true rewritten.bytes)))
    (.evicting (.judged rfl fun _ => rfl))) (.evicting (.asked rfl)))
    (.evicting (.unlinked rfl ?_ ?_ rfl rfl)), rfl, ?_⟩
  · decide
  · decide +kernel
  · show set (set oneFile closedItem.path none) "run.json" (some rewritten) "run.json" = some rewritten
    exact set_self _ _ _

theorem evict_loses_nothing_closedFile : ∃ world, Steps (fun bytes => bytes.length) (fun bytes => bytes) 4 8
    (.before oneFile holdingLake [[closedItem]] 1) world ∧ world.removed = [(closedItem, closedFile)] ∧
      world.files "run.json" = some rewritten ∧ LosesNothing (fun bytes => bytes.length) (fun bytes => bytes) 4 8 world := by
  obtain ⟨world, hsteps, hremoved, hfile⟩ := exists_eviction
  exact ⟨world, hsteps, hremoved, hfile, evict_loses_nothing (fun _ _ hsame => hsame) _ _ _ _ world hsteps⟩

end Mainboard.Eviction
