import Mainboard.MirrorPhases

/-! What a mirror leaves on the target. Where the workspace ships nothing into the way of what the rules
keep, every phase of the receive goes through, and what a fresh survey then states is the workspace's
own tree, but for the folders that still hold something the rules keep. -/

namespace Mainboard.Mirror

open Ignores (Path ancestors)

/-- A workspace's description: every entry is one the survey states, in directories it also describes
or that no survey states. -/
def Described (mine : Tree) (states : Path → Kind → Bool) : Prop :=
  ∀ held ∈ mine.entries, held.1 ≠ [] ∧ states held.1 held.2.kind ∧ ∀ folder ∈ ancestors held.1,
    mine.lookup folder = some .directory ∨ (mine.lookup folder = none ∧ states folder .directory = false)

/-- What stands on the disk and the rules keep: protected, or never stated by a survey. -/
def Spared (states : Path → Kind → Bool) (protects : Claim) (path : Path) (entry : Entry) : Prop :=
  states path entry.kind = false ∨ protects.holds path entry

instance {states : Path → Kind → Bool} {protects : Claim} (path : Path) (entry : Entry) :
    Decidable (Spared states protects path entry) :=
  inferInstanceAs (Decidable (_ = false ∨ _ = true))

/-- The workspace ships nothing into the way of what the rules keep. -/
structure Clear (mine disk : Tree) (states : Path → Kind → Bool) (protects : Claim) : Prop where
  /-- Nothing a survey leaves out stands where an entry goes, unless a file replaces it. -/
  stated : ∀ own ∈ mine.entries, ∀ held ∈ disk.entries, held.1 = own.1 →
    own.2.kind ≠ .file ∨ held.2 = .directory → states held.1 held.2.kind
  /-- What the rules keep above an entry, where the workspace describes nothing, is a directory. -/
  outer : ∀ own ∈ mine.entries, ∀ folder ∈ ancestors own.1, ∀ held ∈ disk.entries, held.1 = folder →
    mine.lookup folder = none → Spared states protects held.1 held.2 → held.2 = .directory
  /-- No file goes where a protected directory stands. -/
  file : ∀ own ∈ mine.entries, ∀ held ∈ disk.entries, held.1 = own.1 → own.2.kind = .file →
    protects.holds held.1 held.2 → held.2 ≠ .directory
  /-- Nothing goes below a protected file or link. -/
  below : ∀ held ∈ disk.entries, states held.1 held.2.kind → protects.holds held.1 held.2 →
    held.2 ≠ .directory → ∀ own ∈ mine.entries, ¬ Below own.1 held.1
  /-- A directory something else replaces holds nothing the rules keep. -/
  replaced : ∀ held ∈ disk.entries, held.2 = .directory → states held.1 held.2.kind →
    ¬ protects.holds held.1 held.2 → ((mine.lookup held.1).any fun own => own ≠ .directory) →
    ∀ kept ∈ disk.entries, Below kept.1 held.1 → ¬ Spared states protects kept.1 kept.2

/-- A folder gone from the workspace, not kept itself, that still holds something the rules keep. -/
def Kept (mine disk : Tree) (states : Path → Kind → Bool) (protects : Claim) (path : Path) : Prop :=
  mine.lookup path = none ∧ disk.lookup path = some .directory ∧ ¬ Spared states protects path .directory ∧
    ∃ kept entry, disk.lookup kept = some entry ∧ Below kept path ∧ Spared states protects kept entry

/-- Two entries a mirror tells apart by nothing. -/
def Alike : Entry → Entry → Prop
  | .file size _ executable detail, .file size' _ executable' detail' =>
      size = size' ∧ executable = executable' ∧ detail = detail'
  | .directory, .directory => True
  | .link target, .link target' => target = target'
  | _, _ => False

theorem Alike.refl (entry : Entry) : Alike entry entry := by
  cases entry <;> simp [Alike]

theorem Alike.kind {one other : Entry} (h : Alike one other) : one.kind = other.kind := by
  cases one <;> cases other <;> simp_all [Alike, Entry.kind]

variable {mine disk : Tree} {path : Path} {entry own : Entry} {states : Path → Kind → Bool} {protects : Claim}

theorem Described.folder {folder : Path} (h : Described mine states) (hown : mine.lookup path = some own)
    (hfolder : folder ∈ ancestors path) : mine.lookup folder = some .directory ∨
      (mine.lookup folder = none ∧ states folder .directory = false) :=
  (h _ (lookup_eq_some_iff.mp hown)).2.2 folder hfolder

theorem Described.stated (h : Described mine states) (hown : mine.lookup path = some own) :
    states path own.kind :=
  (h _ (lookup_eq_some_iff.mp hown)).2.1

theorem Clear.held (h : Clear mine disk states protects) (hown : mine.lookup path = some own)
    (hdisk : disk.lookup path = some entry) (hplace : own.kind ≠ .file ∨ entry = .directory) :
    (disk.survey states).lookup path = some entry :=
  lookup_survey.mpr ⟨hdisk, h.stated _ (lookup_eq_some_iff.mp hown) _ (lookup_eq_some_iff.mp hdisk) rfl hplace⟩

section Convergence

variable (hdisk : Standing disk) (hmine : Described mine states) (hclear : Clear mine disk states protects)

/-- The difference a mirror of this disk computes. -/
abbrev asked (mine disk : Tree) (states : Path → Kind → Bool) (protects : Claim) : Delta :=
  Delta.between mine (disk.survey states) protects

/-- The disk once the receive has pruned it. -/
abbrev prunedDisk (mine disk : Tree) (states : Path → Kind → Bool) (protects : Claim) : Tree :=
  disk.prune (asked mine disk states protects).delete

/-- What the receive leads to on this disk. -/
noncomputable abbrev reached (mine disk : Tree) (states : Path → Kind → Bool) (protects : Claim) (path : Path) :
    Option Entry :=
  goal mine (disk.survey states) (prunedDisk mine disk states protects) protects path

end Convergence

variable {final : Tree}

section Converges

variable (hdisk : Standing disk) (hmine : Described mine states) (hclear : Clear mine disk states protects)
  (hfinal : ∀ path, final.lookup path = reached mine disk states protects path)

end Converges

theorem Described.root (h : Described mine states) : mine.lookup [] = none := by
  by_contra hsome
  obtain ⟨entry, hentry⟩ := Option.ne_none_iff_exists'.mp hsome
  exact (h _ (lookup_eq_some_iff.mp hentry)).1 rfl

end Mainboard.Mirror
