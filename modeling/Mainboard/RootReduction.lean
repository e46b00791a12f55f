import Mathlib.Data.List.Basic
import Mathlib.Data.List.Infix

/-! The roots a scope starts from, without those that lie under another. The reduction compares their spellings
pairwise, each without the slashes around it; the tree's own top has two, and a list with both loses everything. -/

namespace Mainboard.Ignores

abbrev Spelling := List Char

/-- `root.strip("/")`. -/
def stripped (root : Spelling) : Spelling :=
  ((root.dropWhile (· == '/')).reverse.dropWhile (· == '/')).reverse

/-- The tree's own top, as it is spelled. -/
def isTop (root : Spelling) : Bool := root == [] || root == ['.']

/-- One root lies under another that is spelled differently. -/
def liesUnder (root other : Spelling) : Bool := other != root && (isTop other || decide (other ++ ['/'] <+: root))

/-- The roots behind some others that are new and lie under none of `spelled`. -/
def outermostFrom (spelled : List Spelling) : List Spelling → List Spelling → List Spelling
  | _, [] => []
  | before, root :: roots =>
      if root ∉ before ∧ !spelled.any (liesUnder root) then root :: outermostFrom spelled (before ++ [root]) roots
      else outermostFrom spelled (before ++ [root]) roots

/-- `roots` in their order without any that lies under another. -/
def outermost (roots : List Spelling) : List Spelling := outermostFrom (roots.map stripped) [] (roots.map stripped)

/-- A root covers itself and what lies under it; the top covers every path. -/
def Covers (root path : Spelling) : Prop := isTop root ∨ path = root ∨ root ++ ['/'] <+: path

section Reduction

variable {spelled before roots : List Spelling} {root other path : Spelling}

theorem under_none : (!spelled.any (liesUnder root)) = true ↔ ∀ other ∈ spelled, liesUnder root other = false := by
  rw [Bool.not_eq_true', List.any_eq_false]
  simp only [Bool.not_eq_true]

theorem mem_outermostFrom : root ∈ outermostFrom spelled before roots ↔
    root ∈ roots ∧ root ∉ before ∧ ∀ other ∈ spelled, liesUnder root other = false := by
  induction roots generalizing before with
  | nil => exact ⟨fun h => (List.not_mem_nil h).elim, fun h => (List.not_mem_nil h.1).elim⟩
  | cons first roots ih =>
      rw [outermostFrom]
      split
      · rename_i hkept
        rw [under_none] at hkept
        rw [List.mem_cons, List.mem_cons, @ih (before ++ [first]), List.mem_append, List.mem_singleton, not_or]
        constructor
        · rintro (rfl | ⟨hroot, ⟨hnew, -⟩, hout⟩)
          · exact ⟨Or.inl rfl, hkept⟩
          · exact ⟨Or.inr hroot, hnew, hout⟩
        · rintro ⟨hroot, hnew, hout⟩
          by_cases hfirst : root = first
          · exact Or.inl hfirst
          · exact Or.inr ⟨hroot.resolve_left hfirst, ⟨hnew, hfirst⟩, hout⟩
      · rename_i hdropped
        rw [under_none] at hdropped
        rw [List.mem_cons, @ih (before ++ [first]), List.mem_append, List.mem_singleton, not_or]
        constructor
        · rintro ⟨hroot, ⟨hnew, -⟩, hout⟩
          exact ⟨Or.inr hroot, hnew, hout⟩
        · rintro ⟨hroot, hnew, hout⟩
          have hfirst : root ≠ first := by
            rintro rfl
            exact hdropped ⟨hnew, hout⟩
          exact ⟨hroot.resolve_left hfirst, ⟨hnew, hfirst⟩, hout⟩

theorem nodup_outermostFrom : (outermostFrom spelled before roots).Nodup := by
  induction roots generalizing before with
  | nil => exact List.nodup_nil
  | cons first roots ih =>
      rw [outermostFrom]
      split
      · refine List.nodup_cons.mpr ⟨fun hlate => ?_, ih⟩
        exact (mem_outermostFrom.mp hlate).2.1 (List.mem_append_right _ (List.mem_singleton_self _))
      · exact ih

theorem mem_outermost : root ∈ outermost roots ↔
    root ∈ roots.map stripped ∧ ∀ other ∈ roots.map stripped, liesUnder root other = false := by
  rw [outermost, mem_outermostFrom]
  exact and_congr_right fun _ => and_iff_right List.not_mem_nil

theorem liesUnder_iff : liesUnder root other = true ↔ other ≠ root ∧ (isTop other = true ∨ other ++ ['/'] <+: root) := by
  rw [liesUnder, Bool.and_eq_true, bne_iff_ne, Bool.or_eq_true, decide_eq_true_eq]

theorem isTop_iff : isTop root = true ↔ root = [] ∨ root = ['.'] := by
  rw [isTop, Bool.or_eq_true, beq_iff_eq, beq_iff_eq]

/-- The top lies under no root but its other spelling. -/
theorem isTop_of_liesUnder (htop : isTop root = true) (h : liesUnder root other = true) : isTop other = true := by
  obtain ⟨-, hother | hprefix⟩ := liesUnder_iff.mp h
  · exact hother
  · rcases isTop_iff.mp htop with rfl | rfl
    · exact absurd (List.prefix_nil.mp hprefix) (List.append_ne_nil_of_right_ne_nil _ (List.cons_ne_nil _ _))
    · cases other with
      | nil =>
          rw [List.nil_append, List.cons_prefix_cons] at hprefix
          exact absurd hprefix.1 (by decide)
      | cons char other =>
          have hlength := hprefix.length_le
          simp at hlength

theorem covers_under (hunder : other ++ ['/'] <+: root) (h : Covers root path) (hroot : isTop root = false) :
    Covers other path := by
  rcases h with htop | rfl | hpath
  · rw [hroot] at htop
    cases htop
  · exact Or.inr (Or.inr hunder)
  · exact Or.inr (Or.inr (hunder.trans ((List.prefix_append root ['/']).trans hpath)))

/-- Without both spellings of the top, what a root covers stays covered. -/
theorem outermost_covers (hone : ¬ ([] ∈ roots.map stripped ∧ ['.'] ∈ roots.map stripped))
    (hroot : root ∈ roots.map stripped) (h : Covers root path) : ∃ kept ∈ outermost roots, Covers kept path := by
  by_cases htop : ∃ top ∈ roots.map stripped, isTop top = true
  · obtain ⟨top, hmem, htop⟩ := htop
    refine ⟨top, mem_outermost.mpr ⟨hmem, fun other hother => ?_⟩, Or.inl htop⟩
    by_contra hunder
    rw [Bool.not_eq_false] at hunder
    have hother' := isTop_of_liesUnder htop hunder
    have hne := (liesUnder_iff.mp hunder).1
    rcases isTop_iff.mp htop with rfl | rfl
    · rcases isTop_iff.mp hother' with rfl | rfl
      · exact hne rfl
      · exact hone ⟨hmem, hother⟩
    · rcases isTop_iff.mp hother' with rfl | rfl
      · exact hone ⟨hother, hmem⟩
      · exact hne rfl
  · have hplain : ∀ root ∈ roots.map stripped, isTop root = false := fun root hroot =>
      Bool.eq_false_iff.mpr fun hroot' => htop ⟨root, hroot, hroot'⟩
    -- A root that is dropped lies under a shorter one.
    induction hlength : root.length using Nat.strongRecOn generalizing root with
    | ind length ih =>
        by_cases hkept : ∀ other ∈ roots.map stripped, liesUnder root other = false
        · exact ⟨root, mem_outermost.mpr ⟨hroot, hkept⟩, h⟩
        · push Not at hkept
          obtain ⟨other, hother, hunder⟩ := hkept
          rw [Bool.ne_false_iff] at hunder
          obtain ⟨-, htop' | hprefix⟩ := liesUnder_iff.mp hunder
          · rw [hplain other hother] at htop'
            cases htop'
          · have hshorter := hprefix.length_le
            rw [List.length_append, List.length_singleton] at hshorter
            exact ih other.length (by omega) hother (covers_under hprefix h (hplain root hroot)) rfl

/-- The reduced roots cover the paths the roots cover, none lies under another and none comes twice, exactly when the
top is not among the roots in both its spellings. -/
theorem outermost_iff (roots : List Spelling) :
    ((∀ path, (∃ root ∈ outermost roots, Covers root path) ↔ ∃ root ∈ roots, Covers (stripped root) path) ∧
        (∀ one ∈ outermost roots, ∀ other ∈ outermost roots, liesUnder one other = false) ∧ (outermost roots).Nodup) ↔
      ¬ ((∃ root ∈ roots, stripped root = []) ∧ ∃ root ∈ roots, stripped root = ['.']) := by
  constructor
  · rintro ⟨hcovers, -, -⟩ ⟨⟨empty, hempty, hstripped⟩, dot, hdot, hstripped'⟩
    obtain ⟨kept, hkept, -⟩ := (hcovers []).mpr ⟨empty, hempty, Or.inl (by rw [hstripped]; rfl)⟩
    obtain ⟨-, hout⟩ := mem_outermost.mp hkept
    have hnil := hout [] (hstripped ▸ List.mem_map_of_mem hempty)
    have hpoint := hout ['.'] (hstripped' ▸ List.mem_map_of_mem hdot)
    by_cases hsame : kept = []
    · rw [hsame] at hpoint
      exact absurd hpoint (by decide)
    · rw [liesUnder, bne_iff_ne.mpr (Ne.symm hsame)] at hnil
      exact absurd hnil (by simp [isTop])
  · intro hone
    have hboth : ¬ ([] ∈ roots.map stripped ∧ ['.'] ∈ roots.map stripped) := fun hmem => hone
      ⟨List.mem_map.mp hmem.1, List.mem_map.mp hmem.2⟩
    refine ⟨fun path => ⟨?_, ?_⟩, fun one hone other hother => ?_, nodup_outermostFrom⟩
    · rintro ⟨root, hroot, hcovers⟩
      obtain ⟨spelling, hspelling, rfl⟩ := List.mem_map.mp (mem_outermost.mp hroot).1
      exact ⟨spelling, hspelling, hcovers⟩
    · rintro ⟨root, hroot, hcovers⟩
      exact outermost_covers hboth (List.mem_map_of_mem hroot) hcovers
    · exact (mem_outermost.mp hone).2 other (mem_outermost.mp hother).1

/-- A scope of the top in both its spellings is left without roots. -/
theorem outermost_fails : ¬ ∀ roots : List Spelling,
    (∀ path, (∃ root ∈ outermost roots, Covers root path) ↔ ∃ root ∈ roots, Covers (stripped root) path) ∧
      (∀ one ∈ outermost roots, ∀ other ∈ outermost roots, liesUnder one other = false) ∧ (outermost roots).Nodup := by
  intro hall
  have hnone : outermost [[], ['.']] = [] := by decide
  obtain ⟨kept, hkept, -⟩ := ((hall [[], ['.']]).1 ['a']).mpr ⟨[], List.mem_cons_self, Or.inl rfl⟩
  rw [hnone] at hkept
  cases hkept

end Reduction

end Mainboard.Ignores
