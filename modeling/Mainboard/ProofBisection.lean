import Mathlib.Data.Finset.Lattice.Fold
import Mainboard.TextSources

/-! The project's proof over the components a run of fixes kept: which of them fails it, found by a binary search over
the prefixes of their list, and the loop that undoes one after the other until the proof passes. The proof's command
stands here as a verdict on what the files hold. -/

namespace Mainboard.Analysis.Fixing

/-- What each file holds, nothing where there is none. -/
abbrev Files := String → Option Bytes

/-- A fix applied in the mirror: where its finding stood, the rule's words for what it changed, the files it changed
and the renames its pass made. -/
structure Applied where
  rule : String
  path : String
  line : ℕ
  change : String
  files : Finset String
  moves : List (String × String) := []
  deriving DecidableEq

/-- A file is named by its own name, or by that of a folder it lies under. -/
def names (chosen name : String) : Bool := name == chosen || (chosen ++ "/").toList.isPrefixOf name.toList

/-- The files `chosen` made what they are under `source`, present or not, a folder standing for the files under it. -/
def Files.adopt (files source : Files) (chosen : Finset String) : Files := fun name =>
  if ∃ entry ∈ chosen, names entry name then source name else files name

/-- The project's proof: the project as it stands, the command, and what it says of a copy. -/
structure Proof where
  root : Files
  command : List String
  verdict : Files → Bool

/-- The halving of a range whose low end passes and whose high end fails. -/
def narrowed (passes : ℕ → Bool) (passing failing : ℕ) : ℕ :=
  if 1 < failing - passing then
    if passes ((passing + failing) / 2) then narrowed passes ((passing + failing) / 2) failing
    else narrowed passes passing ((passing + failing) / 2)
  else failing
termination_by failing - passing

namespace Proof

variable (proof : Proof) (components : List (Finset String)) (proven : Files)

/-- Whether the proof passes on the project with the changes of components alone. -/
def passes : Bool := proof.verdict (proof.root.adopt proven (components.foldr (· ∪ ·) ∅))

/-- The first of the components whose changes, with those before it, fail the proof. -/
def culprit : Option (Finset String) :=
  components[narrowed (fun middle => proof.passes (components.take middle) proven) 0 components.length - 1]?

end Proof

/-- What a run of fixes keeps: the components, their fixes, the proven files and those withheld. -/
structure Kept where
  components : List (Finset String)
  fixes : List Applied
  proven : Files
  held : Finset String

/-- The kept components holding culprits returned to the project's files, their fixes withheld. -/
def Kept.undo (kept : Kept) (root : Files) (culprits : Finset String) : Kept where
  components := kept.components.filter fun files => Disjoint files culprits
  fixes := kept.fixes.filter fun fix => Disjoint fix.files culprits
  proven := kept.proven.adopt root culprits
  held := kept.held ∪ culprits

/-- What a proof over the kept changes comes to. -/
inductive Proven where
  | none
  | passed
  | judgesNone
  | undid (culprits : List (Finset String))
  deriving DecidableEq

namespace Proof

variable (proof : Proof)

/-- The loop of a proof for so many rounds, each undoing a component that fails it. -/
def undoing : ℕ → Kept → Option (List (Finset String) × Kept)
  | 0, _ => none
  | rounds + 1, kept =>
      if kept.components = [] ∨ proof.passes kept.components kept.proven then some ([], kept)
      else do
        let culprit ← proof.culprit kept.components kept.proven
        let rest ← undoing rounds (kept.undo proof.root culprit)
        return (culprit :: rest.1, rest.2)

/-- The proof run over the kept changes. One that fails on the project as it stands judges no fix. -/
def prove (rounds : ℕ) (kept : Kept) : Option (Proven × Kept) :=
  if proof.command = [] ∨ kept.components = [] ∨ proof.passes kept.components kept.proven then
    some (if proof.command ≠ [] ∧ kept.components ≠ [] then .passed else .none, kept)
  else if !proof.passes [] kept.proven then some (.judgesNone, kept)
  else (proof.undoing rounds kept).map fun answer => (.undid answer.1, answer.2)

end Proof

section Bisection

variable {passes : ℕ → Bool} {passing failing : ℕ}

/-- A halving ends between one that passes and the next that fails. -/
theorem narrowed_spec (hlt : passing < failing) (hpasses : passes passing = true) (hfails : passes failing = false) :
    passing < narrowed passes passing failing ∧ narrowed passes passing failing ≤ failing ∧
      passes (narrowed passes passing failing - 1) = true ∧ passes (narrowed passes passing failing) = false := by
  fun_induction narrowed passes passing failing with
  | case1 passing failing hwide hmiddle ih =>
      obtain ⟨hlow, hhigh, hbefore, hat⟩ := ih (by omega) hmiddle hfails
      exact ⟨by omega, hhigh, hbefore, hat⟩
  | case2 passing failing hwide hmiddle ih =>
      rw [Bool.not_eq_true] at hmiddle
      obtain ⟨hlow, hhigh, hbefore, hat⟩ := ih (by omega) hpasses hmiddle
      exact ⟨hlow, by omega, hbefore, hat⟩
  | case3 passing failing hnarrow =>
      have hnext : failing - 1 = passing := by omega
      exact ⟨hlt, le_rfl, hnext ▸ hpasses, hfails⟩

end Bisection

namespace Proof

variable {proof : Proof} {components : List (Finset String)} {proven : Files} {kept : Kept}

/-- A proof that passes with none of the components and fails with all of them finds one whose changes break it. -/
theorem culprit_spec (hnone : proof.passes [] proven = true) (hall : proof.passes components proven = false) :
    ∃ before component after, components = before ++ component :: after ∧
      proof.culprit components proven = some component ∧
      proof.passes before proven = true ∧ proof.passes (before ++ [component]) proven = false := by
  have hsome : components ≠ [] := fun hempty => by
    rw [hempty, hnone] at hall
    cases hall
  set passes := fun middle => proof.passes (components.take middle) proven with hpasses
  obtain ⟨hlow, hhigh, hbefore, hat⟩ := @narrowed_spec passes 0 components.length
    (List.length_pos_of_ne_nil hsome) hnone (by simpa [hpasses] using hall)
  set failing := narrowed passes 0 components.length with hfailing
  have hindex : failing - 1 < components.length := by omega
  refine ⟨components.take (failing - 1), components[failing - 1], components.drop failing, ?_, ?_, hbefore, ?_⟩
  · have hnext : failing = failing - 1 + 1 := by omega
    conv_lhs => rw [← List.take_append_drop (failing - 1) components, List.drop_eq_getElem_cons hindex, ← hnext]
  · rw [culprit, ← hpasses, ← hfailing]
    exact List.getElem?_eq_getElem hindex
  · rw [List.take_append_getElem hindex, Nat.sub_add_cancel hlow]
    exact hat

/-- A component that breaks the proof has files. -/
theorem culprit_nonempty {before : List (Finset String)} {component : Finset String}
    (hbefore : proof.passes before proven = true) (hat : proof.passes (before ++ [component]) proven = false) :
    component ≠ ∅ := by
  rintro rfl
  have hsame : proof.passes (before ++ [∅]) proven = proof.passes before proven := by
    have hunion : (before ++ [∅]).foldr (· ∪ ·) (∅ : Finset String) = before.foldr (· ∪ ·) ∅ := by
      rw [List.foldr_append]
      rfl
    rw [passes, passes, hunion]
  rw [hsame, hbefore] at hat
  cases hat

/-- An undo leaves fewer components, the culprit among those gone. -/
theorem length_undo_lt {culprit : Finset String} (hmem : culprit ∈ kept.components) (hsome : culprit ≠ ∅) :
    (kept.undo proof.root culprit).components.length < kept.components.length := by
  refine List.length_filter_lt_length_iff_exists.mpr ⟨culprit, hmem, ?_⟩
  rw [decide_eq_true_eq, disjoint_self]
  exact hsome

/-- The loop ends within as many undos as components, with a list the proof passes. -/
theorem undoing_ends (hnone : proof.passes [] kept.proven = true) {rounds : ℕ} (hrounds : kept.components.length < rounds) :
    ∃ undone last, proof.undoing rounds kept = some (undone, last) ∧ undone.length ≤ kept.components.length ∧
      last.components.Sublist kept.components ∧ proof.passes last.components last.proven = true := by
  induction rounds generalizing kept with
  | zero => exact absurd hrounds (Nat.not_lt_zero _)
  | succ rounds ih =>
      rw [undoing]
      by_cases hdone : kept.components = [] ∨ proof.passes kept.components kept.proven
      · rw [if_pos hdone]
        refine ⟨[], kept, rfl, Nat.zero_le _, List.Sublist.refl _, hdone.elim (fun hempty => ?_) id⟩
        rw [hempty, hnone]
      · rw [if_neg hdone]
        rw [not_or, Bool.not_eq_true] at hdone
        obtain ⟨before, component, after, hcomponents, hculprit, hbefore, hat⟩ := culprit_spec hnone hdone.2
        have hmem : component ∈ kept.components := hcomponents ▸ List.mem_append_right _ List.mem_cons_self
        have hfewer := @length_undo_lt proof kept component hmem (culprit_nonempty hbefore hat)
        obtain ⟨undone, last, hundoing, hlength, hlast, hpasses⟩ :=
          @ih (kept.undo proof.root component) hnone (by omega)
        rw [hculprit, Option.bind_eq_bind, Option.bind_some, hundoing]
        refine ⟨component :: undone, last, rfl, ?_, hlast.trans List.filter_sublist, hpasses⟩
        rw [List.length_cons]
        omega

/-- A proof over the kept changes ends, and where it says that it passed, or undid what failed it, it passes. -/
theorem prove_ends (proof : Proof) (kept : Kept) :
    ∃ outcome last, proof.prove (kept.components.length + 1) kept = some (outcome, last) ∧
      ((outcome = .passed ∨ ∃ undone, outcome = .undid undone) →
        proof.passes last.components last.proven = true) := by
  rw [prove]
  by_cases hskip : proof.command = [] ∨ kept.components = [] ∨ proof.passes kept.components kept.proven
  · rw [if_pos hskip]
    refine ⟨_, kept, rfl, fun hsaid => ?_⟩
    by_cases hjudged : proof.command ≠ [] ∧ kept.components ≠ []
    · exact (hskip.resolve_left hjudged.1).resolve_left hjudged.2
    · rw [if_neg hjudged] at hsaid
      rcases hsaid with hpassed | ⟨undone, hundid⟩
      · cases hpassed
      · cases hundid
  · rw [if_neg hskip]
    cases hnone : proof.passes [] kept.proven with
    | false =>
        refine ⟨.judgesNone, kept, rfl, fun hsaid => ?_⟩
        rcases hsaid with hpassed | ⟨undone, hundid⟩
        · cases hpassed
        · cases hundid
    | true =>
        obtain ⟨undone, last, hundoing, -, -, hpasses⟩ := undoing_ends hnone (Nat.lt_succ_self _)
        rw [hundoing]
        exact ⟨.undid undone, last, rfl, fun _ => hpasses⟩

/-- Where a proof passes with none of the kept components and fails with all of them, the search finds a component such
that the prefix before it passes and the prefix with it fails, and the loop ends within as many undos as components,
with a list for which the proof passes. -/
theorem bisected (proof : Proof) (kept : Kept) (hnone : proof.passes [] kept.proven = true)
    (hall : proof.passes kept.components kept.proven = false) :
    (∃ before component after, kept.components = before ++ component :: after ∧
      proof.culprit kept.components kept.proven = some component ∧
      proof.passes before kept.proven = true ∧ proof.passes (before ++ [component]) kept.proven = false) ∧
    ∃ undone last, proof.undoing (kept.components.length + 1) kept = some (undone, last) ∧
      undone.length ≤ kept.components.length ∧ last.components.Sublist kept.components ∧
      proof.passes last.components last.proven = true :=
  ⟨culprit_spec hnone hall, undoing_ends hnone (Nat.lt_succ_self _)⟩

/-- A proof that refuses one file's change, over two components that share a file. -/
theorem bisected_shared : ∃ undone last,
    Proof.undoing ⟨fun _ => none, ["pytest"], fun files => files "b.py" == none⟩ 3
      ⟨[{"a.py"}, {"a.py", "b.py"}], [], fun _ => some [], ∅⟩ = some (undone, last) ∧ undone.length ≤ 2 ∧
      last.components.Sublist [{"a.py"}, {"a.py", "b.py"}] ∧
      Proof.passes ⟨fun _ => none, ["pytest"], fun files => files "b.py" == none⟩ last.components last.proven = true :=
  (bisected ⟨fun _ => none, ["pytest"], fun files => files "b.py" == none⟩
    ⟨[{"a.py"}, {"a.py", "b.py"}], [], fun _ => some [], ∅⟩ (by decide +kernel) (by decide +kernel)).2

end Proof

end Mainboard.Analysis.Fixing
