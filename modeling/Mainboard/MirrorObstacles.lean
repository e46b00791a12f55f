import Mainboard.MirrorConvergence

/-! Where a receive stops. No phase moves a directory or anything in a directory's way, so what is in the
way once the disk is pruned still is when the receive gets there: it goes through exactly where the
workspace ships nothing into the way of what the rules keep. A link that leads to a directory is in
nobody's way, and what goes below it lands where it leads. -/

namespace Mainboard.Mirror

open Ignores (Path ancestors)

variable {mine disk disk' made final pruned : Tree} {path : Path} {entry own : Entry}
  {states : Path → Kind → Bool} {protects : Claim} {follow : Follow}

/-- What a phase leaves of a disk: everything still stands, a directory as one and the rest not. -/
def Grown (disk disk' : Tree) : Prop :=
  ∀ path entry, disk.lookup path = some entry →
    ∃ entry', disk'.lookup path = some entry' ∧ (entry' = .directory ↔ entry = .directory)

theorem Grown.refl (disk : Tree) : Grown disk disk := fun _ entry hentry => ⟨entry, hentry, Iff.rfl⟩

theorem Grown.trans (h : Grown disk made) (h' : Grown made disk') : Grown disk disk' := by
  intro path entry hentry
  obtain ⟨middle, hmiddle, hsame⟩ := h path entry hentry
  obtain ⟨last, hlast, hsame'⟩ := h' path middle hmiddle
  exact ⟨last, hlast, hsame'.trans hsame⟩

/-- Nothing, or a directory: what a directory can be made of. -/
def Open (disk : Tree) (path : Path) : Prop := disk.lookup path = none ∨ disk.lookup path = some .directory

section Phases

variable (hmine : Described mine states)

end Phases

theorem Open.directory (h : Open disk path) (hfound : disk.lookup path = some entry) : entry = .directory := by
  rcases h with hnone | hdirectory
  · rw [hnone] at hfound
    cases hfound
  · exact Option.some.inj (hfound.symm.trans hdirectory)

end Mainboard.Mirror
