import Mainboard.FileCalls
import Mainboard.PlanTaking

/-! A plan written into a copy of the project: every edited file's bytes, then the renames in the order they were
taken, then the removals. A call that is refused ends it there, with what was written before it. -/

namespace Mainboard.Analysis

/-- One step of writing a plan. -/
abbrev Change := FileTree.Call String Bytes

/-- The files a change names, by their names before and after it. -/
def Plan.changedBy (plan : Plan) (project : Project) : Change → List Place
  | .write path _ => [path]
  | .rename old _ =>
      let moved := if project.files old = [] then [old] else project.files old
      moved ++ moved.map plan.moved
  | .remove path => if project.files path = [] then [path] else project.files path

/-- What writing a plan leaves: the tree, the files it changed, and whether it raised. -/
structure Applied where
  project : Project
  changed : List Place
  raised : Bool

namespace Plan

/-- The changes a plan makes, in order. -/
def changes (plan : Plan) (written : List (Place × Bytes)) : List Change :=
  (written.map fun entry => .write entry.1 entry.2 : List Change) ++
    (plan.renamed.map fun entry => .rename entry.1 entry.2 : List Change) ++ (plan.removed.map .remove : List Change)

def applyFrom (plan : Plan) : Project → List Place → List Change → Applied
  | project, changed, [] => ⟨project, changed, false⟩
  | project, changed, change :: rest =>
      let step := change.make project
      if step.raised then ⟨step.tree, changed, true⟩
      else applyFrom plan step.tree (changed ++ plan.changedBy project change) rest

/-- The plan written into the tree it was planned on. -/
def apply (plan : Plan) (project : Project) (grammar : Grammar) : Applied :=
  match plan.written project grammar with
  | some written => plan.applyFrom project [] (plan.changes written)
  | none => ⟨project, [], true⟩

variable {project : Project} {plan : Plan} {changed : List Place} {changes : List Change} {path : Place} {data : Bytes}

theorem applyFrom_cons (change : Change) (rest : List Change) :
    applyFrom plan project changed (change :: rest) =
      if (change.make project).raised then ⟨(change.make project).tree, changed, true⟩
      else applyFrom plan (change.make project).tree (changed ++ plan.changedBy project change) rest := rfl

/-- What every change of a list preserves holds of the tree the list leaves, ended or not. -/
theorem applyFrom_preserves (P : Project → Prop) (Q : Change → Prop)
    (hstep : ∀ tree change, Q change → P tree → P (change.make tree).tree)
    (hchanges : ∀ change ∈ changes, Q change) (h : P project) : P (applyFrom plan project changed changes).project := by
  induction changes generalizing project changed with
  | nil => exact h
  | cons change rest ih =>
      have hnext := hstep project change (hchanges change List.mem_cons_self) h
      rw [applyFrom_cons]
      split
      · exact hnext
      · exact ih (fun other hother => hchanges other (List.mem_cons_of_mem _ hother)) hnext

/-- Every change of a list that ended was made, between the changes before it and those after it. -/
theorem applyFrom_append {change : Change} {before after : List Change}
    (h : (applyFrom plan project changed (before ++ change :: after)).raised = false) :
    ∃ tree more, (change.make tree).raised = false ∧
      applyFrom plan project changed (before ++ change :: after) =
        applyFrom plan (change.make tree).tree more after := by
  induction before generalizing project changed with
  | nil =>
      rw [List.nil_append, applyFrom_cons] at h ⊢
      split at h
      · cases h
      · rename_i hraised
        rw [if_neg hraised]
        exact ⟨project, _, by simpa using hraised, rfl⟩
  | cons first before ih =>
      rw [List.cons_append, applyFrom_cons] at h ⊢
      split at h
      · cases h
      · rename_i hraised
        rw [if_neg hraised]
        exact ih h

end Plan

end Mainboard.Analysis
