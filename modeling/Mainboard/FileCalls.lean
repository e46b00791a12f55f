import Mainboard.FileTree

/-! Calls on a tree of files, one after the other: a write with the folders it needs, a rename with those its target
needs, a removal with all beneath. A call is refused or has its effect, both told from what stands where; what a call
keeps, and what it does not bring back, is told from its places. -/

namespace FileTree

variable {ν α : Type}

/-- One call on a tree. -/
inductive Call (ν α : Type) where
  | write (place : List ν) (contents : α)
  | rename (old new : List ν)
  | remove (place : List ν)
  deriving DecidableEq, Repr

/-- A tree, and whether the call that left it was refused. -/
structure Outcome (ν α : Type) where
  tree : Tree ν α
  raised : Bool

namespace Outcome

/-- What a call leaves: the next tree, or the tree it was refused on. -/
def after (t : Tree ν α) : Except Refusal (Tree ν α) → Outcome ν α
  | .ok next => ⟨next, false⟩
  | .error _ => ⟨t, true⟩

/-- Folders made, and a call in the tree that has them. -/
def within [DecidableEq ν] (t : Tree ν α) (folder : List ν) (call : Tree ν α → Except Refusal (Tree ν α)) : Outcome ν α :=
  match t.mkdirs folder with
  | .ok made => after made (call made)
  | .error _ => ⟨t, true⟩

theorem after_keeps {t : Tree ν α} {call : Except Refusal (Tree ν α)} (P : Tree ν α → Prop) (ht : P t)
    (hcall : ∀ next, call = .ok next → P next) : P (after t call).tree := by
  cases call with
  | ok next => exact hcall next rfl
  | error refusal => exact ht

theorem after_ok {t : Tree ν α} {call : Except Refusal (Tree ν α)} (h : (after t call).raised = false) :
    call = .ok (after t call).tree := by
  cases call with
  | ok next => rfl
  | error refusal => cases h

variable [DecidableEq ν] {t : Tree ν α} {folder : List ν} {call : Tree ν α → Except Refusal (Tree ν α)}

theorem within_keeps (P : Tree ν α → Prop) (ht : P t) (hmade : ∀ made, t.mkdirs folder = .ok made → P made)
    (hcall : ∀ made next, t.mkdirs folder = .ok made → call made = .ok next → P next) :
    P (within t folder call).tree := by
  unfold within
  split
  · rename_i made hmkdirs
    exact after_keeps P (hmade made hmkdirs) fun next => hcall made next hmkdirs
  · exact ht

/-- A call that was not refused was made in the tree with its folders. -/
theorem within_ok (h : (within t folder call).raised = false) :
    ∃ made, t.mkdirs folder = .ok made ∧ call made = .ok (within t folder call).tree := by
  unfold within at h ⊢
  split at h
  · rename_i made hmade
    exact ⟨made, hmade, after_ok h⟩
  · cases h

end Outcome

namespace Call

variable [DecidableEq ν]

/-- A call made. -/
def make (t : Tree ν α) : Call ν α → Outcome ν α
  | write place contents => .within t place.dropLast fun made => made.write place contents
  | rename old new => .within t new.dropLast fun made => made.rename old new
  | remove place => .after t (if t.isFolder place then t.rmtree place else t.unlink place)

/-- The call writes no other contents to a place, and moves or removes nothing that holds it. -/
def Keeps (place : List ν) (contents : α) : Call ν α → Prop
  | write other written => other = place → written = contents
  | rename old new => ¬ old <+: place ∧ ¬ new <+: place
  | remove other => ¬ other <+: place

/-- The call does not bring a file's contents back to a place. -/
def Leaves (place : List ν) (contents : α) : Call ν α → Prop
  | write other written => other = place → written ≠ contents
  | rename _ new => ¬ new <+: place
  | remove _ => True

variable {t next : Tree ν α} {place other : List ν} {contents : α}

/-- A removal takes away the place and all beneath it, and nothing else. -/
theorem removed_eq (h : (if t.isFolder other then t.rmtree other else t.unlink other) = .ok next) :
    next.entry = fun place => if other <+: place then none else t.entry place := by
  split at h
  · exact (Tree.rmtree_eq h).1
  · exact (Tree.unlink_eq h).1

/-- A file stands as it stood under a call that keeps it, made or refused. -/
theorem keeps_make {call : Call ν α} (hcall : call.Keeps place contents)
    (h : t.entry place = some (.file contents)) : (call.make t).tree.entry place = some (.file contents) := by
  cases call with
  | write other written =>
      refine Outcome.within_keeps _ h (fun made hmade => (Tree.file_mkdirs hmade).mpr h) ?_
      intro made next hmade hnext
      rw [Tree.write_eq hnext]
      dsimp only
      split
      · rename_i hsame
        rw [hcall hsame.symm]
      · exact (Tree.file_mkdirs hmade).mpr h
  | rename old new =>
      refine Outcome.within_keeps _ h (fun made hmade => (Tree.file_mkdirs hmade).mpr h) ?_
      intro made next hmade hnext
      have hfile := (Tree.file_mkdirs hmade).mpr h
      obtain ⟨-, ⟨-, rfl⟩ | ⟨-, hentry⟩⟩ := Tree.rename_eq hnext
      · exact hfile
      · rw [hentry]
        dsimp only
        rwa [if_neg hcall.2, if_neg hcall.1]
  | remove other =>
      refine Outcome.after_keeps (fun tree => tree.entry place = _) h fun next hnext => ?_
      rw [removed_eq hnext]
      dsimp only
      rwa [if_neg hcall]

/-- A file that lost its contents does not get them back from a call that leaves it so. -/
theorem leaves_make {call : Call ν α} (hcall : call.Leaves place contents)
    (h : t.entry place ≠ some (.file contents)) : (call.make t).tree.entry place ≠ some (.file contents) := by
  have hmkdirs : ∀ folder made, t.mkdirs folder = .ok made → made.entry place ≠ some (.file contents) :=
    fun folder made hmade => (Tree.file_mkdirs hmade).not.mpr h
  cases call with
  | write other written =>
      refine Outcome.within_keeps (fun tree => tree.entry place ≠ _) h (hmkdirs _) ?_
      intro made next hmade hnext
      rw [Tree.write_eq hnext]
      dsimp only
      split
      · rename_i hsame
        intro heq
        cases heq
        exact hcall hsame.symm rfl
      · exact hmkdirs _ made hmade
  | rename old new =>
      refine Outcome.within_keeps (fun tree => tree.entry place ≠ _) h (hmkdirs _) ?_
      intro made next hmade hnext
      obtain ⟨-, ⟨-, rfl⟩ | ⟨-, hentry⟩⟩ := Tree.rename_eq hnext
      · exact hmkdirs _ _ hmade
      · rw [hentry]
        dsimp only
        rw [if_neg hcall]
        split
        · exact fun heq => by cases heq
        · exact hmkdirs _ made hmade
  | remove other =>
      refine Outcome.after_keeps (fun tree => tree.entry place ≠ _) h fun next hnext => ?_
      rw [removed_eq hnext]
      dsimp only
      split
      · exact fun heq => by cases heq
      · exact h

theorem made_write (h : ((write place contents).make t).raised = false) :
    ((write place contents).make t).tree.entry place = some (.file contents) := by
  obtain ⟨made, -, hwrite⟩ := Outcome.within_ok h
  have hentry := congrFun (Tree.write_eq hwrite) place
  rwa [if_pos rfl] at hentry

theorem made_rename {old new : List ν} (h : ((rename old new).make t).raised = false) (hold : old <+: place)
    (hnew : ¬ new <+: place) : ((rename old new).make t).tree.entry place = none := by
  obtain ⟨made, -, hrename⟩ := Outcome.within_ok h
  obtain ⟨-, ⟨rfl, -⟩ | ⟨-, hentry⟩⟩ := Tree.rename_eq hrename
  · exact absurd hold hnew
  · have hplace := congrFun hentry place
    rwa [if_neg hnew, if_pos hold] at hplace

theorem made_remove (h : ((remove other).make t).raised = false) (hother : other <+: place) :
    ((remove other).make t).tree.entry place = none := by
  have hentry := congrFun (removed_eq (Outcome.after_ok h)) place
  rwa [if_pos hother] at hentry

end Call

end FileTree
