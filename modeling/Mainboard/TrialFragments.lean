import Mathlib.Logic.Function.Basic
import Mainboard.Runs
import Mainboard.TrialCoverage

/-! The fragments trial receipts are written in. A write commits one trial as a fragment numbered by the writer's
own count; a compaction replaces a run's first fragment by one holding the rows of them all, then unlinks the
others one by one; a process may stop before any of these. Rows are lost where a fragment is written over another,
and doubled where a compaction stops among its unlinks; in every other run the store holds each committed trial
once, and its coverage is that of the trials committed. -/

namespace Mainboard.Trials
open Runs

/-- One committed fragment: its run's partition, the number it is named by, and the rows it holds. -/
structure Part where
  run : String
  number : ℕ
  rows : List Receipt
  deriving DecidableEq, Repr

namespace Part

/-- A fragment's file: two of them with one place are one file. -/
def place (part : Part) : String × ℕ := (part.run, part.number)

/-- The fragment's path below the store. -/
def path (part : Part) : String :=
  "run=" ++ part.run ++ "/part-" ++ String.ofList (List.leftpad 5 '0' (Nat.toDigits 10 part.number)) ++ ".parquet"

end Part

/-- The fragments in the order of their paths. -/
def inOrder (files : List Part) : List Part := files.insertionSort fun one other => one.path ≤ other.path

/-- A run's committed fragments, in write order. -/
def parts (files : List Part) (run : String) : List Part := inOrder (files.filter fun part => part.run = run)

/-- Every receipt the store holds, in the order written. -/
def scan (files : List Part) : List Receipt := (inOrder files).flatMap Part.rows

/-- A staged fragment is renamed to its place, over what stands there. -/
def replacing (files : List Part) (part : Part) : List Part :=
  (files.filter fun other => other.place ≠ part.place) ++ [part]

/-- The files without some fragments. -/
def unlinking (files gone : List Part) : List Part :=
  files.filter fun part => !gone.any fun other => decide (other.place = part.place)

/-- A run's compaction up to so many of its file operations: the first fragment is replaced, then the others go. -/
def compacted (files : List Part) (run : String) (operations : ℕ) : List Part :=
  match parts files run, operations with
  | first :: second :: rest, unlinked + 1 =>
      unlinking (replacing files { first with rows := (first :: second :: rest).flatMap Part.rows })
        ((second :: rest).take unlinked)
  | _, _ => files

/-- One open `TrialReceipts`: its run, and how many fragments it counts. -/
structure Writer where
  run : String
  written : ℕ
  deriving DecidableEq, Repr

/-- How an operation ends: done, raising after so many of its file operations, or its process dying there. -/
inductive Fate where
  | done
  | raised (operations : ℕ)
  | died (operations : ℕ)
  deriving DecidableEq, Repr

namespace Fate

/-- The file operations made, out of so many. -/
def operations (total : ℕ) : Fate → ℕ
  | done => total
  | raised operations => min operations total
  | died operations => min operations total

/-- The writer is left, counting this many fragments, unless its process died. -/
def leaves (fate : Fate) (writer : Writer) : Option Writer :=
  match fate with
  | died _ => none
  | _ => some writer

end Fate

/-- A store with its open writers, and the trials committed to it so far. -/
structure Store where
  files : List Part := []
  writers : ℕ → Option Writer := fun _ => none
  committed : List Receipt := []

/-- What happens next. -/
inductive Label where
  | reopen (writer : ℕ) (run : String)
  | write (writer : ℕ) (receipt : Receipt) (fate : Fate)
  | compact (writer : ℕ) (fate : Fate)
  deriving DecidableEq, Repr

/-- The fragment a writer commits a trial in. -/
def Writer.fragment (writer : Writer) (receipt : Receipt) : Part :=
  ⟨writer.run, writer.written, [{ receipt with run := writer.run }]⟩

/-- Commit one trial as its own fragment: the rename is the commit. -/
def write (s : Store) (id : ℕ) (writer : Writer) (receipt : Receipt) (fate : Fate) : Store :=
  match fate.operations 1 with
  | 0 => { s with writers := Function.update s.writers id (fate.leaves writer) }
  | _ + 1 =>
      { files := replacing s.files (writer.fragment receipt)
        writers := Function.update s.writers id (fate.leaves { writer with written := writer.written + 1 })
        committed := s.committed ++ [{ receipt with run := writer.run }] }

/-- Fold the run's fragments into one file. -/
def compact (s : Store) (id : ℕ) (writer : Writer) (fate : Fate) : Store :=
  let total := (parts s.files writer.run).length
  let after := if 2 ≤ total ∧ fate = .done then { writer with written := 1 } else writer
  { s with files := compacted s.files writer.run (fate.operations total),
           writers := Function.update s.writers id (fate.leaves after) }

/-- One step of the store. -/
def step (s : Store) : Label → Store
  | .reopen id run => { s with writers := Function.update s.writers id (some ⟨run, (parts s.files run).length⟩) }
  | .write id receipt fate => ((s.writers id).map fun writer => write s id writer receipt fate).getD s
  | .compact id fate => ((s.writers id).map fun writer => compact s id writer fate).getD s

/-- The step writes over no fragment, and stops nowhere between a compaction's replacing and its last unlink. -/
def whole (s : Store) : Label → Bool
  | .reopen _ _ => true
  | .write id _ fate => (s.writers id).all fun writer =>
      fate.operations 1 = 0 || !s.files.any fun part => decide (part.place = (writer.run, writer.written))
  | .compact id fate => (s.writers id).all fun writer =>
      let total := (parts s.files writer.run).length
      decide (total < 2) || fate.operations total = 0 || fate.operations total = total

/-- The store holds every committed trial once, and answers for its lanes as the trials committed do. -/
def CountsOnce (s : Store) : Prop :=
  (scan s.files).Perm s.committed ∧ ∀ dataset lane expected cell,
    status dataset (scan s.files) lane expected cell = status dataset s.committed lane expected cell

/-- What every whole step keeps: one fragment at a place, and each committed trial in one of them. -/
structure Held (s : Store) : Prop where
  distinct : (s.files.map Part.place).Nodup
  rows : (s.files.flatMap Part.rows).Perm s.committed

theorem inOrder_perm (files : List Part) : (inOrder files).Perm files := List.perm_insertionSort _ _

theorem scan_perm (files : List Part) : (scan files).Perm (files.flatMap Part.rows) :=
  (inOrder_perm files).flatMap_right _

theorem mem_parts {files : List Part} {run : String} {part : Part} :
    part ∈ parts files run ↔ part ∈ files ∧ part.run = run := by
  unfold parts
  rw [(inOrder_perm _).mem_iff, List.mem_filter, decide_eq_true_eq]

theorem distinct_replacing {files : List Part} (h : (files.map Part.place).Nodup) (part : Part) :
    ((replacing files part).map Part.place).Nodup := by
  unfold replacing
  rw [List.map_append, List.nodup_append]
  refine ⟨h.sublist (List.filter_sublist.map _), List.nodup_singleton _, ?_⟩
  intro place hplace other hother
  obtain ⟨standing, hstanding, rfl⟩ := List.mem_map.mp hplace
  rw [List.map_singleton, List.mem_singleton] at hother
  rw [hother]
  exact of_decide_eq_true (List.mem_filter.mp hstanding).2

theorem distinct_compacted {files : List Part} (h : (files.map Part.place).Nodup) (run : String)
    (operations : ℕ) : ((compacted files run operations).map Part.place).Nodup := by
  unfold compacted
  split
  · exact (distinct_replacing h _).sublist (List.filter_sublist.map _)
  · exact h

/-- A fragment written where none stands adds its rows. -/
theorem rows_replacing {files : List Part} {part : Part} (hfree : ∀ other ∈ files, other.place ≠ part.place) :
    (replacing files part).flatMap Part.rows = files.flatMap Part.rows ++ part.rows := by
  have hall : (files.filter fun other => other.place ≠ part.place) = files :=
    List.filter_eq_self.mpr fun other hother => decide_eq_true (hfree other hother)
  unfold replacing
  rw [hall, List.flatMap_append, List.flatMap_singleton]

/-- A compaction that runs to its end leaves the rows as they were. -/
theorem rows_compacted {files : List Part} (hdistinct : (files.map Part.place).Nodup) (run : String) :
    ((compacted files run (parts files run).length).flatMap Part.rows).Perm (files.flatMap Part.rows) := by
  unfold compacted
  cases hparts : parts files run with
  | nil => exact List.Perm.refl _
  | cons first others =>
      cases others with
      | nil => exact List.Perm.refl _
      | cons second rest =>
          set merged : Part := { first with rows := (first :: second :: rest).flatMap Part.rows } with hmerged
          have hruns : ∀ part ∈ first :: second :: rest, part.run = run := fun part hpart =>
            (mem_parts.mp (hparts ▸ hpart)).2
          have hplaces : ((first :: second :: rest).map Part.place).Nodup := by
            rw [← hparts]
            exact ((inOrder_perm _).map _).nodup_iff.mpr (hdistinct.sublist (List.filter_sublist.map _))
          -- What is left is the other runs' fragments and the merged one.
          have hleft : unlinking (replacing files merged) (second :: rest) =
              (files.filter fun part => !decide (part.run = run)) ++ [merged] := by
            unfold unlinking replacing
            rw [List.filter_append, List.filter_filter, List.filter_cons_of_pos, List.filter_nil]
            · congr 1
              refine List.filter_congr fun part hpart => ?_
              by_cases hrun : part.run = run
              · have hin : part ∈ first :: second :: rest := hparts ▸ mem_parts.mpr ⟨hpart, hrun⟩
                rw [decide_eq_true hrun, Bool.not_true]
                rcases List.mem_cons.mp hin with rfl | hothers
                · have hsame : part.place = merged.place := rfl
                  rw [decide_eq_false (not_not_intro hsame), Bool.and_false]
                · have hany : ((second :: rest).any fun other => decide (other.place = part.place)) = true :=
                    List.any_eq_true.mpr ⟨part, hothers, decide_eq_true rfl⟩
                  rw [hany, Bool.not_true, Bool.false_and]
              · have hother : ∀ other ∈ first :: second :: rest, other.place ≠ part.place := by
                  intro other hin hsame
                  exact hrun ((congrArg Prod.fst hsame).symm.trans (hruns other hin))
                have hany : ((second :: rest).any fun other => decide (other.place = part.place)) = false :=
                  List.any_eq_false.mpr fun other hin =>
                    decide_eq_false_iff_not.mpr (hother other (List.mem_cons_of_mem _ hin)) ▸ Bool.false_ne_true
                have hne : part.place ≠ merged.place := (hother first List.mem_cons_self).symm
                rw [hany, decide_eq_true hne, decide_eq_false hrun]
                rfl
            · have hnot : ((second :: rest).any fun other => decide (other.place = merged.place)) = false := by
                refine List.any_eq_false.mpr fun other hin hsame => ?_
                have hfirst : first.place ∉ (second :: rest).map Part.place := (List.nodup_cons.mp hplaces).1
                exact hfirst (List.mem_map.mpr ⟨other, hin, of_decide_eq_true hsame⟩)
              rw [hnot]
              rfl
          have hmine : ((first :: second :: rest).flatMap Part.rows).Perm
              ((files.filter fun part => part.run = run).flatMap Part.rows) := by
            rw [← hparts]
            exact (inOrder_perm _).flatMap_right _
          have htake : (second :: rest).take (rest.length + 1) = second :: rest :=
            List.take_of_length_le (le_refl _)
          dsimp only [List.length_cons]
          rw [htake, hleft, List.flatMap_append, List.flatMap_singleton]
          refine (List.perm_append_comm.trans (hmine.append_right _)).trans ?_
          rw [← List.flatMap_append]
          exact (List.filter_append_perm _ files).flatMap_right _

theorem Held.write {s : Store} (h : Held s) {id : ℕ} {writer : Writer} {receipt : Receipt} {fate : Fate}
    (hfree : fate.operations 1 = 0 ∨ ∀ part ∈ s.files, part.place ≠ (writer.run, writer.written)) :
    Held (write s id writer receipt fate) := by
  unfold Trials.write
  split
  · exact ⟨h.distinct, h.rows⟩
  · rename_i hcommits
    rcases hfree with hnone | hfree
    · rw [hnone] at hcommits
      cases hcommits
    · refine ⟨distinct_replacing h.distinct _, ?_⟩
      dsimp only
      rw [rows_replacing hfree]
      exact h.rows.append_right _

theorem Held.compact {s : Store} (h : Held s) {id : ℕ} {writer : Writer} {fate : Fate}
    (hwhole : (parts s.files writer.run).length < 2 ∨ fate.operations (parts s.files writer.run).length = 0 ∨
      fate.operations (parts s.files writer.run).length = (parts s.files writer.run).length) :
    Held (compact s id writer fate) := by
  refine ⟨distinct_compacted h.distinct _ _, List.Perm.trans ?_ h.rows⟩
  dsimp only [Trials.compact]
  rcases hwhole with hfew | hnone | hall
  · have hkept : compacted s.files writer.run (fate.operations (parts s.files writer.run).length) = s.files := by
      unfold compacted
      split
      · rename_i hparts _
        rw [hparts, List.length_cons, List.length_cons] at hfew
        omega
      · rfl
    rw [hkept]
  · have hkept : compacted s.files writer.run 0 = s.files := by
      unfold compacted
      split
      · rename_i hzero
        cases hzero
      · rfl
    rw [hnone, hkept]
  · rw [hall]
    exact rows_compacted h.distinct writer.run

/-- A whole step keeps every committed trial in one fragment. -/
theorem step_held (s : Store) (label : Label) (h : Held s) (hwhole : whole s label = true) :
    Held (step s label) := by
  cases label with
  | reopen id run => exact ⟨h.distinct, h.rows⟩
  | write id receipt fate =>
      dsimp only [step]
      dsimp only [whole] at hwhole
      cases hwriter : s.writers id with
      | none => exact h
      | some writer =>
          rw [hwriter, Option.all_some, Bool.or_eq_true, decide_eq_true_eq] at hwhole
          refine h.write (hwhole.imp_right fun hfree part hpart hsame => ?_)
          rw [Bool.not_eq_true'] at hfree
          exact List.any_eq_false.mp hfree part hpart (decide_eq_true hsame)
  | compact id fate =>
      dsimp only [step]
      dsimp only [whole] at hwhole
      cases hwriter : s.writers id with
      | none => exact h
      | some writer =>
          rw [hwriter, Option.all_some, Bool.or_eq_true, Bool.or_eq_true, decide_eq_true_eq, decide_eq_true_eq,
            decide_eq_true_eq, or_assoc] at hwhole
          exact h.compact hwhole

theorem Held.countsOnce {s : Store} (h : Held s) : CountsOnce s :=
  have hperm := (scan_perm s.files).trans h.rows
  ⟨hperm, fun dataset lane expected cell => status_perm hperm dataset lane expected cell⟩

/-- In every run of whole steps the store holds each committed trial once and counts it once. -/
theorem trials_count_once (labels : List Label) (hwhole : Each step (fun s label => whole s label = true) {} labels) :
    Always step CountsOnce {} labels :=
  always_mono (fun _ h => h.countsOnce)
    (invariant_always step_held ⟨List.nodup_nil, List.Perm.refl _⟩ hwhole)

/-- A passing row of key `key` in lane `speed`. -/
def passing (key : String) : Receipt :=
  { run := "", lane := "speed", key, outcome := "passed", admissibility := "admissible" }

/-- A run's writer dies before its second commit; a second one goes on, compacts, and writes again. -/
def goesOn : List Label :=
  [.reopen 0 "a", .write 0 (passing "x") .done, .write 0 (passing "y") (.died 0), .reopen 1 "a",
    .write 1 (passing "y") .done, .compact 1 .done, .write 1 (passing "z") .done, .reopen 2 "a",
    .compact 2 (.died 0)]

theorem trials_count_once_goesOn : Always step CountsOnce {} goesOn :=
  trials_count_once goesOn (by decide +kernel)

/-- A compaction of two fragments dies before its one unlink. -/
def diesUnlinking : List Label :=
  [.reopen 0 "a", .write 0 (passing "x") .done, .write 0 (passing "y") .done, .compact 0 (.died 1)]

theorem trials_count_once_fails : ¬ ∀ labels : List Label, Always step CountsOnce {} labels := by
  intro hclaim
  have hperm := (hclaim diesUnlinking diesUnlinking List.prefix_rfl).1.length_eq
  have hscanned : (scan (run step {} diesUnlinking).files).length = 3 := by decide +kernel
  have hcommitted : (run step {} diesUnlinking).committed.length = 2 := by decide +kernel
  rw [hscanned, hcommitted] at hperm
  cases hperm

end Mainboard.Trials
