import Mathlib.Logic.Function.Basic
import Mathlib.Logic.Relation
import Mainboard.BlobStaging

/-! Callers racing on one lake. Each asks which of its objects the lake holds and later stages the rest in
one transaction, whatever others staged meanwhile. What a caller staged or found held reads back as its own
bytes from then on, whichever path reads it. -/

namespace Mainboard.Blobs

variable {Digest Sum : Type} [DecidableEq Digest] [DecidableEq Sum]

/-- A caller that asked for its objects: those the lake did not hold are to be staged. -/
structure Caller (Digest : Type) where
  asked : List (Digest × Source)
  missing : List (Digest × Source)

/-- A lake and the callers that asked it. -/
structure World (Digest Sum : Type) where
  lake : Lake Digest Sum
  callers : List (Caller Digest)

section Steps

variable (sizes : Sizes) (md5 : Bytes → Sum) (sha256 : Bytes → Digest)

namespace World

/-- What a caller that asks now has to stage: those of its objects that the lake does not hold. -/
def asker (world : World Digest Sum) (objects : List (Digest × Source)) : Caller Digest :=
  let held := world.lake.held md5 sha256 sizes.window (objects.map (·.1))
  ⟨objects, objects.filter fun object => object.1 ∉ held⟩

/-- Ask which objects the lake holds. -/
def ask (world : World Digest Sum) (objects : List (Digest × Source)) : World Digest Sum :=
  { world with callers := world.asker sizes md5 sha256 objects :: world.callers }

/-- Stage what a caller's objects lack in one transaction, committed whole or not at all. -/
def commit (world : World Digest Sum) (caller : Caller Digest) : World Digest Sum :=
  match world.lake.stage sizes md5 sha256 caller.missing with
  | .ok (staged, _) => { world with lake := staged }
  | .error _ => world

end World

/-- One step of the callers. The lake answers its rows in no promised order. -/
inductive Step : World Digest Sum → World Digest Sum → Prop
  | asked (world : World Digest Sum) (objects : List (Digest × Source)) :
      Step world (world.ask sizes md5 sha256 objects)
  | committed (world : World Digest Sum) {caller : Caller Digest} (hcaller : caller ∈ world.callers) :
      Step world (world.commit sizes md5 sha256 caller)
  | reordered (world : World Digest Sum) {lake : Lake Digest Sum} (hblobs : lake.blobs.Perm world.lake.blobs)
      (hchecksums : lake.checksums.Perm world.lake.checksums) : Step world { world with lake }

/-- Every world the callers reach from another. -/
def Reaches : World Digest Sum → World Digest Sum → Prop := Relation.ReflTransGen (Step sizes md5 sha256)

/-- Every world the callers reach from a lake. -/
def Reached (start : Lake Digest Sum) : World Digest Sum → Prop := Reaches sizes md5 sha256 ⟨start, []⟩

/-- An object reads back as its own bytes, among any others and however many chunks one query brings, and is written
out as them. -/
structure ReadsBack (lake : Lake Digest Sum) (object : Digest × Source) : Prop where
  read : ∀ (window : ℕ) (digests : List Digest), object.1 ∈ digests → ∀ bytes,
    (object.1, bytes) ∈ lake.read md5 sha256 window digests ↔ bytes = object.2.contents
  write : ∀ (window : ℕ) (size : Option ℕ) (replace : Bool), (∀ expected ∈ size, expected = object.2.contents.length) →
    lake.write md5 sha256 window object.1 none size replace = .stands object.2.contents

/-- Blob storage round-trips. -/
structure RoundTrips : Prop where
  /-- Either path brings every stored copy of an object in ordinal order. -/
  paths : ∀ (lake : Lake Digest Sum) (window : ℕ) (digests : List Digest),
    ∀ object ∈ lake.objects md5 window digests, Copies md5 lake object.1 object.2
  /-- Intact is what is kept whole. -/
  exact : ∀ (lake : Lake Digest Sum) (digest : Digest) (copies : List (Copy Digest Sum)),
    Copies md5 lake digest copies →
      ((verify sha256 digest copies).1.intact ↔ ∃ pieces, Intact sha256 md5 lake digest pieces)
  /-- Nothing is wrong with an object exactly when it is kept whole in its size. -/
  fault : ∀ (lake : Lake Digest Sum) (window : ℕ) (digest : Digest) (size : ℕ),
    (lake.inspect md5 sha256 window digest).1.fault size = "" ↔
      ∃ pieces, Intact sha256 md5 lake digest pieces ∧ pieces.flatten.length = size
  /-- What hashes to its name is staged. -/
  staged : ∀ (lake : Lake Digest Sum) (objects : List (Digest × Source)),
    (∀ object ∈ objects, sha256 object.2.contents = object.1) →
      ∃ staged size, lake.stage sizes md5 sha256 objects = .ok (staged, size)
  /-- A caller asks for objects that hash to their names and stages what it lacks, whatever was staged since it asked:
  each of its objects reads back then and ever after. -/
  reads : ∀ (start : Lake Digest Sum) (world : World Digest Sum), Reached sizes md5 sha256 start world →
    ∀ objects : List (Digest × Source), (∀ object ∈ objects, sha256 object.2.contents = object.1) →
      ∀ later, Reaches sizes md5 sha256 (world.ask sizes md5 sha256 objects) later →
        ∀ last, Reaches sizes md5 sha256
            (later.commit sizes md5 sha256 (world.asker sizes md5 sha256 objects)) last →
          ∀ object ∈ objects, ReadsBack md5 sha256 last.lake object
  /-- A transaction leaves each object to be staged in its own chunks and no others, or the lake as it was. -/
  repair : ∀ (start : Lake Digest Sum) (world : World Digest Sum), Reached sizes md5 sha256 start world →
    ∀ caller ∈ world.callers, world.commit sizes md5 sha256 caller = world ∨
      ∀ object ∈ caller.missing,
        Kept sizes md5 (world.commit sizes md5 sha256 caller).lake object.1 object.2.contents

end Steps

section Custody

variable {sizes : Sizes} {md5 : Bytes → Sum} {sha256 : Bytes → Digest} {start lake : Lake Digest Sum}
  {world next : World Digest Sum} {digest : Digest} {pieces : List Bytes}

omit [DecidableEq Digest] [DecidableEq Sum] in
theorem SameOf.symm (h : SameOf digest start lake) : SameOf digest lake start :=
  ⟨fun row hname => (h.1 row hname).symm, fun recorded hname => (h.2 recorded hname).symm⟩

omit [DecidableEq Digest] [DecidableEq Sum] in
theorem SameOf.trans {last : Lake Digest Sum} (h : SameOf digest start lake) (h' : SameOf digest lake last) :
    SameOf digest start last :=
  ⟨fun row hname => (h'.1 row hname).trans (h.1 row hname),
    fun recorded hname => (h'.2 recorded hname).trans (h.2 recorded hname)⟩

omit [DecidableEq Digest] [DecidableEq Sum] in
theorem SameOf.whole (h : SameOf digest start lake) (hwhole : Whole md5 sha256 start digest) :
    Whole md5 sha256 lake digest := by
  obtain ⟨pieces, hpieces⟩ := hwhole
  exact ⟨pieces, h.intact hpieces⟩

omit [DecidableEq Digest] [DecidableEq Sum] in
theorem Kept.same {contents : Bytes} (hkept : Kept sizes md5 start digest contents) (h : SameOf digest start lake) :
    Kept sizes md5 lake digest contents :=
  ⟨fun row hname => (h.1 row hname).trans (hkept.blobs row hname),
    fun recorded hname => (h.2 recorded hname).trans (hkept.checksums recorded hname)⟩

/-- What holds of a world the callers reach: an object is as it was in the first lake, or it was not
whole there and is kept in its own chunks; only such objects are to be staged. -/
structure Sound (sizes : Sizes) (md5 : Bytes → Sum) (sha256 : Bytes → Digest) (start : Lake Digest Sum)
    (world : World Digest Sum) : Prop where
  objects : ∀ digest, SameOf digest start world.lake ∨ (¬ Whole md5 sha256 start digest ∧
    ∃ contents, sha256 contents = digest ∧ Kept sizes md5 world.lake digest contents)
  missing : ∀ caller ∈ world.callers, ∀ object ∈ caller.missing, ¬ Whole md5 sha256 start object.1
  asked : ∀ caller ∈ world.callers, ∀ object ∈ caller.asked,
    object ∈ caller.missing ∨ Whole md5 sha256 world.lake object.1

omit [DecidableEq Digest] [DecidableEq Sum] in
/-- What is to be staged the lake does not hold whole, or holds in the same chunks. -/
theorem Sound.free (hinjective : Function.Injective sha256) (h : Sound sizes md5 sha256 start world)
    {object : Digest × Source} (hlost : ¬ Whole md5 sha256 start object.1)
    (hhashed : sha256 object.2.contents = object.1) :
    (¬ Whole md5 sha256 world.lake object.1) ∨ Kept sizes md5 world.lake object.1 object.2.contents := by
  rcases h.objects object.1 with hsame | ⟨-, contents, hcontents, hkept⟩
  · exact .inl fun hwhole => hlost (hsame.symm.whole hwhole)
  · obtain rfl : contents = object.2.contents := hinjective (hcontents.trans hhashed.symm)
    exact .inr hkept

/-- A staging keeps whole what was whole. -/
theorem Sound.whole_of_stages (hinjective : Function.Injective sha256) (h : Sound sizes md5 sha256 start world)
    {objects : List (Digest × Source)} (hlost : ∀ object ∈ objects, ¬ Whole md5 sha256 start object.1)
    (hstages : Stages sizes md5 sha256 world.lake objects lake) (hwhole : Whole md5 sha256 world.lake digest) :
    Whole md5 sha256 lake digest := by
  by_cases hmem : digest ∈ objects.map (·.1)
  · obtain ⟨object, hobject, rfl⟩ := List.mem_map.mp hmem
    have hhashed := hstages.hashed object hobject
    exact ⟨_, (hstages.kept hinjective hobject (h.free hinjective (hlost object hobject) hhashed)).intact hhashed⟩
  · exact (hstages.same hmem).whole hwhole

theorem Sound.step (hinjective : Function.Injective sha256) (h : Sound sizes md5 sha256 start world)
    (hstep : Step sizes md5 sha256 world next) : Sound sizes md5 sha256 start next := by
  cases hstep with
  | asked objects =>
      refine ⟨h.objects, fun caller hcaller => ?_, fun caller hcaller => ?_⟩
      · rcases List.mem_cons.mp hcaller with rfl | hold
        · intro object hobject hwhole
          obtain ⟨hasked, hnot⟩ := List.mem_filter.mp hobject
          rw [decide_eq_true_eq, mem_held] at hnot
          refine hnot ⟨List.mem_map_of_mem hasked, ?_⟩
          rcases h.objects object.1 with hsame | ⟨hlost, -⟩
          · exact hsame.whole hwhole
          · exact absurd hwhole hlost
        · exact h.missing caller hold
      · rcases List.mem_cons.mp hcaller with rfl | hold
        · intro object hobject
          by_cases hheld : object.1 ∈ world.lake.held md5 sha256 sizes.window (objects.map (·.1))
          · exact .inr (mem_held.mp hheld).2
          · exact .inl (List.mem_filter.mpr ⟨hobject, decide_eq_true hheld⟩)
        · exact h.asked caller hold
  | @committed caller hcaller =>
      unfold World.commit
      split
      · rename_i staged size hstaged
        have hstages := (stages_of_stage hstaged).1
        have hlost := h.missing caller hcaller
        have hkept : ∀ object ∈ caller.missing, Kept sizes md5 staged object.1 object.2.contents :=
          fun object hobject => hstages.kept hinjective hobject
            (h.free hinjective (hlost object hobject) (hstages.hashed object hobject))
        refine ⟨fun digest => ?_, h.missing, fun other hother object hobject => ?_⟩
        · by_cases hmem : digest ∈ caller.missing.map (·.1)
          · obtain ⟨object, hobject, rfl⟩ := List.mem_map.mp hmem
            exact .inr ⟨hlost object hobject, _, hstages.hashed object hobject, hkept object hobject⟩
          · have hsame := hstages.same hmem
            rcases h.objects digest with hold | ⟨hnot, contents, hcontents, hold⟩
            · exact .inl (hold.trans hsame)
            · exact .inr ⟨hnot, contents, hcontents, hold.same hsame⟩
        · exact (h.asked other hother object hobject).imp_right (h.whole_of_stages hinjective hlost hstages)
      · exact h
  | @reordered lake hblobs hchecksums =>
      have hsame : ∀ digest, SameOf digest world.lake lake :=
        fun digest => ⟨fun row _ => hblobs.mem_iff, fun recorded _ => hchecksums.mem_iff⟩
      refine ⟨fun digest => ?_, h.missing, fun caller hcaller object hobject => ?_⟩
      · rcases h.objects digest with hold | ⟨hnot, contents, hcontents, hold⟩
        · exact .inl (hold.trans (hsame digest))
        · exact .inr ⟨hnot, contents, hcontents, hold.same (hsame digest)⟩
      · exact (h.asked caller hcaller object hobject).imp_right (hsame object.1).whole

/-- No step takes from an object kept whole. -/
theorem Sound.whole_step (hinjective : Function.Injective sha256) (h : Sound sizes md5 sha256 start world)
    (hstep : Step sizes md5 sha256 world next) (hwhole : Whole md5 sha256 world.lake digest) :
    Whole md5 sha256 next.lake digest := by
  cases hstep with
  | asked objects => exact hwhole
  | @committed caller hcaller =>
      unfold World.commit
      split
      · rename_i staged size hstaged
        exact h.whole_of_stages hinjective (h.missing caller hcaller) (stages_of_stage hstaged).1 hwhole
      · exact hwhole
  | @reordered lake hblobs hchecksums =>
      have hsame : SameOf digest world.lake lake := ⟨fun row _ => hblobs.mem_iff, fun recorded _ => hchecksums.mem_iff⟩
      exact hsame.whole hwhole

theorem sound_of_reached (hinjective : Function.Injective sha256) (h : Reached sizes md5 sha256 start world) :
    Sound sizes md5 sha256 start world := by
  induction h with
  | refl => exact ⟨fun _ => .inl ⟨fun _ _ => Iff.rfl, fun _ _ => Iff.rfl⟩, by simp, by simp⟩
  | tail _ hstep ih => exact ih.step hinjective hstep

theorem whole_of_reaches (hinjective : Function.Injective sha256) (hreached : Reached sizes md5 sha256 start world)
    (h : Reaches sizes md5 sha256 world next) (hwhole : Whole md5 sha256 world.lake digest) :
    Whole md5 sha256 next.lake digest := by
  induction h with
  | refl => exact hwhole
  | tail hrest hstep ih => exact (sound_of_reached hinjective (hreached.trans hrest)).whole_step hinjective hstep ih

/-- A caller that asked is there from then on. -/
theorem mem_callers_of_reaches {caller : Caller Digest} (h : Reaches sizes md5 sha256 world next)
    (hcaller : caller ∈ world.callers) : caller ∈ next.callers := by
  induction h with
  | refl => exact hcaller
  | tail _ hstep ih =>
      cases hstep with
      | asked objects => exact List.mem_cons_of_mem _ ih
      | committed hother =>
          unfold World.commit
          split <;> exact ih
      | reordered => exact ih

/-- A caller whose objects hash to their names leaves each of them whole. -/
theorem whole_of_commit (hinjective : Function.Injective sha256) (hreached : Reached sizes md5 sha256 start world)
    {caller : Caller Digest} (hcaller : caller ∈ world.callers)
    (hhashed : ∀ object ∈ caller.missing, sha256 object.2.contents = object.1) {object : Digest × Source}
    (hobject : object ∈ caller.asked) : Whole md5 sha256 (world.commit sizes md5 sha256 caller).lake object.1 := by
  have hsound := sound_of_reached hinjective hreached
  have hlost := hsound.missing caller hcaller
  obtain ⟨staged, size, hstaged⟩ : ∃ staged size, world.lake.stage sizes md5 sha256 caller.missing = .ok (staged, size) :=
    exists_stage world.lake hhashed
  have hstages := (stages_of_stage hstaged).1
  unfold World.commit
  rw [hstaged]
  rcases hsound.asked caller hcaller object hobject with hmissing | hheld
  · have hown := hhashed object hmissing
    have hkept := hstages.kept hinjective hmissing (hsound.free hinjective (hlost object hmissing) hown)
    exact ⟨_, hkept.intact hown⟩
  · exact hsound.whole_of_stages hinjective hlost hstages hheld

theorem fault_eq_empty_iff {window size : ℕ} : (lake.inspect md5 sha256 window digest).1.fault size = "" ↔
    ∃ pieces, Intact sha256 md5 lake digest pieces ∧ pieces.flatten.length = size := by
  constructor
  · intro hfault
    obtain ⟨hintact, hsize⟩ := intact_of_fault hfault
    obtain ⟨pieces, hpieces⟩ := intact_of_inspect hintact
    rw [inspect_of_intact window hpieces] at hsize
    exact ⟨pieces, hpieces, hsize⟩
  · rintro ⟨pieces, hpieces, rfl⟩
    rw [inspect_of_intact window hpieces]
    unfold Audit.fault
    simp

/-- An object kept whole under its name reads back as what hashes to that name. -/
theorem readsBack_of_whole (hinjective : Function.Injective sha256) {object : Digest × Source}
    (hwhole : Whole md5 sha256 lake object.1) (hhashed : sha256 object.2.contents = object.1) :
    ReadsBack md5 sha256 lake object := by
  obtain ⟨pieces, hpieces⟩ := hwhole
  have hcontents : pieces.flatten = object.2.contents := hinjective (hpieces.whole.trans hhashed.symm)
  constructor
  · intro window digests hasked bytes
    rw [mem_read]
    constructor
    · rintro ⟨-, other, hother, rfl⟩
      exact hinjective (hother.whole.trans hhashed.symm)
    · rintro rfl
      exact ⟨hasked, pieces, hpieces, hcontents⟩
  · intro window size replace hsize
    have hfits : size.any (· ≠ object.2.contents.length) = false := by
      cases size with
      | none => rfl
      | some expected =>
          rw [hsize expected rfl]
          simp
    unfold Lake.write
    rw [inspect_of_intact window hpieces, hcontents]
    simp only [Bool.not_true, hfits, Bool.or_self, Bool.false_eq_true, if_false, ite_self]

/-- Blob storage round-trips, whatever callers race on the lake and whatever it held before. -/
theorem blobs_round_trip (sizes : Sizes) (md5 : Bytes → Sum) {sha256 : Bytes → Digest}
    (hinjective : Function.Injective sha256) : RoundTrips sizes md5 sha256 where
  paths lake window digests object hobject := (mem_objects hobject).2.2
  exact lake digest copies hcopies := by
    refine ⟨intact_of_verify hcopies, fun ⟨pieces, hpieces⟩ => ?_⟩
    rw [verify_of_intact hpieces hcopies]
  fault lake window digest size := fault_eq_empty_iff
  staged lake objects hhashed := exists_stage lake hhashed
  reads start world hreached objects hhashed later hlater last hlast object hobject := by
    have hasked := hreached.tail (.asked world objects)
    have hcaller := mem_callers_of_reaches hlater List.mem_cons_self
    have hmissing : ∀ one ∈ (world.asker sizes md5 sha256 objects).missing, sha256 one.2.contents = one.1 :=
      fun one hone => hhashed one (List.mem_filter.mp hone).1
    have hwhole := whole_of_commit hinjective (hasked.trans hlater) hcaller hmissing hobject
    have hcommitted : Reached sizes md5 sha256 start
        (later.commit sizes md5 sha256 (world.asker sizes md5 sha256 objects)) :=
      (hasked.trans hlater).tail (.committed later hcaller)
    exact readsBack_of_whole hinjective (whole_of_reaches hinjective hcommitted hlast hwhole) (hhashed object hobject)
  repair start world hreached caller hcaller := by
    unfold World.commit
    split
    · rename_i staged size hstaged
      have hstages := (stages_of_stage hstaged).1
      have hsound := sound_of_reached hinjective hreached
      exact .inr fun object hobject => hstages.kept hinjective hobject
        (hsound.free hinjective (hsound.missing caller hcaller object hobject) (hstages.hashed object hobject))
    · exact .inl rfl

/-- Five bytes under their own name. -/
def fiveBytes : Bytes × Source := ([1, 2, 3, 4, 5], .bytes [1, 2, 3, 4, 5])

/-- An empty lake cut every two bytes, its objects named by their own bytes, asked for the five and given them. -/
def fiveStaged : World Bytes ℕ :=
  let world : World Bytes ℕ := ⟨⟨[], [], by simp⟩, []⟩
  let sizes : Sizes := ⟨2, 8, 4, 16, by decide⟩
  (world.ask sizes List.length id [fiveBytes]).commit sizes List.length id
    (world.asker sizes List.length id [fiveBytes])

/-- A lake cut every two bytes round-trips, and five bytes staged there stand in three chunks and read back. -/
theorem blobs_round_trip_two_bytes :
    RoundTrips ⟨2, 8, 4, 16, by decide⟩ (fun bytes : Bytes => bytes.length) (fun bytes : Bytes => bytes) ∧
      fiveStaged.lake.blobs.length = 3 ∧ ReadsBack List.length id fiveStaged.lake fiveBytes :=
  ⟨blobs_round_trip _ _ fun _ _ hsame => hsame, by decide +kernel,
    (blobs_round_trip ⟨2, 8, 4, 16, by decide⟩ (fun bytes : Bytes => bytes.length)
      (fun _ _ hsame => hsame : Function.Injective id)).reads ⟨[], [], by simp⟩ ⟨⟨[], [], by simp⟩, []⟩ .refl
      [fiveBytes] (by decide) _ .refl _ .refl fiveBytes List.mem_cons_self⟩

end Custody

end Mainboard.Blobs
