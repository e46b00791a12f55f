import Mathlib.Data.List.DropRight
import Mathlib.Data.Int.Basic
import Mainboard.TextSources

/-! Where a module stands and how it spells an import of another: leading dots read from the module's package, and a
spelling through them that reads back as the module it names. A spelling with more dots than the place has packages
comes of a module under another top package. -/

namespace Mainboard.Analysis.Imports

open Analysis (Text)

/-- A module by its dotted name: no part of it is empty. -/
def Dotted (name : Text) : Prop := ∀ part ∈ name.splitOn '.', part ≠ []

instance (name : Text) : Decidable (Dotted name) := inferInstanceAs (Decidable (∀ part ∈ name.splitOn '.', part ≠ []))

/-- `".".join`. -/
def join (parts : List Text) : Text := ['.'].intercalate parts

/-- `parts[:stop]`. -/
def upTo (parts : List Text) (stop : ℤ) : List Text :=
  if stop < 0 then parts.take (parts.length - stop.natAbs) else parts.take stop.toNat

/-- Whether a path is a package initializer's. -/
def initializer (path : Text) : Bool :=
  ((path.splitOn '/').getLast?.map String.ofList).any
    (["__init__.py", "__init__.pyi", "__init__.py\n", "__init__.pyi\n"].contains ·)

/-- A name an import binds. -/
structure Alias where
  name : Text
  asname : Option Text := none
  deriving DecidableEq, Repr

def Alias.bound (taken : Alias) : Text := taken.asname.getD taken.name

/-- A `from ... import` statement. -/
structure Statement where
  level : ℕ
  module : Option Text
  names : List Alias
  deriving DecidableEq, Repr

/-- A module by its file and dotted name. -/
structure Place where
  path : Text
  module : Text
  dotted : Dotted module

/-- The package a relative import here starts from: the module itself for an initializer. -/
def Place.package (place : Place) : List Text :=
  let here := place.module.splitOn '.'
  if initializer place.path then here else here.dropLast

/-- The dotted module a statement imports from, its leading dots read from here. -/
def Place.resolved (place : Place) (node : Statement) : Text :=
  if node.level = 0 then node.module.getD []
  else
    let base := upTo place.package (place.package.length - node.level + 1)
    join (base ++ node.module.toList)

/-- How many parts two names begin with alike. -/
def common (here there : List Text) : ℕ :=
  ((here.zip there).findIdx? fun pair => pair.1 ≠ pair.2).getD (min here.length there.length)

/-- The dotted module `target` as an import here spells it, from here when `relative`. -/
def Place.spelled (place : Place) (target : Text) (relative : Bool) : Text :=
  let here := place.package
  if !relative || here == [] then target
  else
    let there := target.splitOn '.'
    List.replicate (here.length - common here there + 1) '.' ++ join (there.drop (common here there))

/-- The statement that imports names from a module so spelled: its leading dots, and what follows them. -/
def reading (spelling : Text) (names : List Alias) : Statement where
  level := (spelling.takeWhile (· == '.')).length
  module :=
    let rest := spelling.dropWhile (· == '.')
    if rest = [] then none else some rest
  names

/-- A statement is legal at a place with a package for each of its dots, and names a module where it has none. -/
def Place.Legal (place : Place) (node : Statement) : Prop :=
  node.level ≤ place.package.length ∧ (node.level = 0 → node.module ≠ none)

instance (place : Place) (node : Statement) : Decidable (place.Legal node) :=
  inferInstanceAs (Decidable (_ ∧ _))

section Names

variable {name target first rest : Text} {parts : List Text} {names : List Alias}

theorem join_splitOn (name : Text) : join (name.splitOn '.') = name := List.intercalate_splitOn '.'

/-- A name in two pieces is dotted where both are. -/
theorem dotted_append : Dotted (first ++ '.' :: rest) ↔ Dotted first ∧ Dotted rest := by
  unfold Dotted
  rw [List.splitOn_append_cons_self]
  exact List.forall_mem_append

theorem Dotted.ne_nil (h : Dotted name) : name ≠ [] := by
  rintro rfl
  exact h [] (by decide) rfl

theorem dotted_join (hparts : parts ≠ []) (h : ∀ part ∈ parts, Dotted part) : Dotted (join parts) := by
  unfold join
  induction parts with
  | nil => exact absurd rfl hparts
  | cons part parts ih =>
      rw [List.forall_mem_cons] at h
      cases parts with
      | nil =>
          rw [List.intercalate_singleton]
          exact h.1
      | cons next parts =>
          rw [List.intercalate_cons_cons, List.append_assoc, List.singleton_append, dotted_append]
          exact ⟨h.1, ih (List.cons_ne_nil _ _) h.2⟩

theorem not_mem_part {part : Text} (h : part ∈ name.splitOn '.') : '.' ∉ part := by
  induction name generalizing part with
  | nil =>
      rw [List.splitOn_nil, List.mem_singleton] at h
      subst h
      exact List.not_mem_nil
  | cons char name ih =>
      rw [List.splitOn_cons_eq_if_modifyHead] at h
      split at h
      · rcases List.mem_cons.mp h with rfl | hlate
        · exact List.not_mem_nil
        · exact ih hlate
      · rename_i hchar
        obtain ⟨head, later, hsplit⟩ := List.exists_cons_of_ne_nil (List.splitOn_ne_nil '.' name)
        rw [hsplit, List.modifyHead_cons] at h
        rcases List.mem_cons.mp h with rfl | hlate
        · intro hdot
          rcases List.mem_cons.mp hdot with hsame | hlater
          · exact hchar (beq_iff_eq.mpr hsame.symm)
          · exact ih (hsplit ▸ List.mem_cons_self) hlater
        · exact ih (hsplit ▸ List.mem_cons_of_mem _ hlate)

/-- A dotted name is read after its leading dots as it is written. -/
theorem reading_dots (count : ℕ) (hrest : rest.head? ≠ some '.') (names : List Alias) :
    reading (List.replicate count '.' ++ rest) names =
      { level := count, module := if rest = [] then none else some rest, names } := by
  have htake : rest.takeWhile (· == '.') = [] ∧ rest.dropWhile (· == '.') = rest := by
    cases rest with
    | nil => exact ⟨rfl, rfl⟩
    | cons char rest =>
        have hchar : ¬ (char == '.') = true := fun hdot => hrest (congrArg some (beq_iff_eq.mp hdot))
        exact ⟨List.takeWhile_cons_of_neg hchar, List.dropWhile_cons_of_neg hchar⟩
  have hdots : ∀ dot ∈ List.replicate count '.', (dot == '.') = true := fun dot hdot =>
    beq_iff_eq.mpr (List.eq_of_mem_replicate hdot)
  unfold reading
  rw [List.takeWhile_append_of_pos hdots, List.dropWhile_append_of_pos hdots, htake.1, htake.2, List.append_nil,
    List.length_replicate]

theorem Dotted.head (h : Dotted name) : name.head? ≠ some '.' := by
  intro hdot
  obtain ⟨rest, rfl⟩ := List.head?_eq_some_iff.mp hdot
  exact (@dotted_append [] rest).mp h |>.1.ne_nil rfl

end Names

section Prefixes

variable {here there : List Text}

/-- Two names agree on the parts they begin with alike. -/
theorem take_common (here there : List Text) :
    common here there ≤ here.length ∧ here.take (common here there) = there.take (common here there) := by
  induction here generalizing there with
  | nil => simp [common]
  | cons part here ih =>
      cases there with
      | nil => simp [common]
      | cons other there =>
          by_cases hpart : part = other
          · subst hpart
            have hstep : common (part :: here) (part :: there) = common here there + 1 := by
              unfold common
              rw [List.zip_cons_cons, List.findIdx?_cons, if_neg (by simp)]
              cases List.findIdx? (fun pair => decide (pair.1 ≠ pair.2)) (here.zip there) with
              | none => simp
              | some index => rfl
            rw [hstep, List.take_succ_cons, List.take_succ_cons, (ih there).2]
            exact ⟨Nat.succ_le_succ (ih there).1, rfl⟩
          · have hnone : common (part :: here) (other :: there) = 0 := by
              unfold common
              rw [List.zip_cons_cons, List.findIdx?_cons, if_pos (by simpa using hpart)]
              rfl
            rw [hnone]
            exact ⟨Nat.zero_le _, rfl⟩

/-- Two names begin alike exactly where their first parts are one. -/
theorem common_pos_iff (hhere : here ≠ []) : 0 < common here there ↔ there.head? = here.head? := by
  obtain ⟨part, here, rfl⟩ := List.exists_cons_of_ne_nil hhere
  cases there with
  | nil => simp [common]
  | cons other there =>
      unfold common
      rw [List.zip_cons_cons, List.findIdx?_cons]
      by_cases hpart : part = other
      · subst hpart
        rw [if_neg (by simp)]
        refine iff_of_true ?_ rfl
        cases List.findIdx? (fun pair => decide (pair.1 ≠ pair.2)) (here.zip there) with
        | none => simp
        | some index => simp
      · rw [if_pos (by simpa using hpart)]
        exact iff_of_false (by simp) fun hsame => hpart (Option.some.inj hsame).symm

theorem upTo_eq_take (parts : List Text) {count : ℕ} (h : count ≤ parts.length) :
    upTo parts ((parts.length : ℤ) - ((parts.length - count + 1 : ℕ) : ℤ) + 1) = parts.take count := by
  have hstop : (parts.length : ℤ) - ((parts.length - count + 1 : ℕ) : ℤ) + 1 = count := by omega
  rw [hstop, upTo, if_neg (by omega), Int.toNat_natCast]

end Prefixes

section Spelling

variable {place : Place} {target : Text} {relative : Bool} {names : List Alias}

/-- What is left of a dotted name after some of its parts starts with no dot. -/
theorem head_drop (h : Dotted target ∨ target = []) (count : ℕ) :
    (join ((target.splitOn '.').drop count)).head? ≠ some '.' := by
  rcases h with hdotted | rfl
  · by_cases hnone : (target.splitOn '.').drop count = []
    · rw [hnone]
      exact fun hdot => by cases hdot
    · refine (dotted_join hnone fun part hpart => ?_).head
      have hmem := List.mem_of_mem_drop hpart
      unfold Dotted
      rw [List.splitOn_eq_singleton (not_mem_part hmem)]
      exact List.forall_mem_singleton.mpr (hdotted part hmem)
  · rw [List.splitOn_nil]
    cases count <;> simp [join]

theorem head_target (h : Dotted target ∨ target = []) : target.head? ≠ some '.' := by
  have hdrop := head_drop h 0
  rwa [List.drop_zero, join_splitOn] at hdrop

theorem spelled_full (h : relative = false ∨ place.package = []) (target : Text) :
    place.spelled target relative = target :=
  if_pos (by rcases h with h | h <;> simp [h])

theorem spelled_dots (hrelative : relative = true) (hpackage : place.package ≠ []) (target : Text) :
    place.spelled target relative =
      List.replicate (place.package.length - common place.package (target.splitOn '.') + 1) '.' ++
        join ((target.splitOn '.').drop (common place.package (target.splitOn '.'))) :=
  if_neg (by simp [hrelative, hpackage])

theorem join_nested {before after : List Text} (h : after ≠ []) : join (before ++ [join after]) = join (before ++ after) := by
  unfold join
  induction before with
  | nil => exact List.intercalate_singleton
  | cons part before ih =>
      obtain ⟨next, rest, hrest⟩ := List.exists_cons_of_ne_nil (List.append_ne_nil_of_right_ne_nil before h)
      obtain ⟨other, others, hothers⟩ := List.exists_cons_of_ne_nil
        (List.append_ne_nil_of_right_ne_nil before (List.cons_ne_nil (['.'].intercalate after) []))
      rw [hrest, hothers] at ih
      rw [List.cons_append, List.cons_append, hrest, hothers, List.intercalate_cons_cons, List.intercalate_cons_cons, ih]

theorem join_ne_nil {parts : List Text} (hparts : parts ≠ []) (h : ∀ part ∈ parts, part ≠ []) : join parts ≠ [] := by
  obtain ⟨part, rest, rfl⟩ := List.exists_cons_of_ne_nil hparts
  have hpart := h part List.mem_cons_self
  cases rest with
  | nil => simpa [join] using hpart
  | cons next rest => simp [join, List.intercalate_cons_cons]

/-- A name cut after some parts, the rest named only where there is one, is the name. -/
theorem join_cut (h : Dotted target ∨ target = []) (count : ℕ) :
    join ((target.splitOn '.').take count ++ (if join ((target.splitOn '.').drop count) = [] then none
      else some (join ((target.splitOn '.').drop count))).toList) = target := by
  rcases h with hdotted | rfl
  · by_cases hnone : (target.splitOn '.').drop count = []
    · have hempty : join [] = [] := rfl
      rw [hnone, if_pos hempty, Option.toList_none, List.append_nil, List.take_of_length_le (List.drop_eq_nil_iff.mp hnone)]
      exact join_splitOn target
    · rw [if_neg (join_ne_nil hnone fun part hpart => hdotted part (List.mem_of_mem_drop hpart)), Option.toList_some,
        join_nested hnone, List.take_append_drop]
      exact join_splitOn target
  · rw [List.splitOn_nil]
    cases count <;> simp [join]

/-- A target spelled here is what the spelling resolves to here. -/
theorem resolved_spelled (h : Dotted target ∨ target = []) (relative : Bool) (names : List Alias) :
    place.resolved (reading (place.spelled target relative) names) = target := by
  by_cases hfull : relative = false ∨ place.package = []
  · have hreading := reading_dots 0 (head_target h) names
    rw [List.replicate_zero, List.nil_append] at hreading
    rw [spelled_full hfull, hreading, Place.resolved, if_pos rfl]
    split
    · rename_i hnone
      exact hnone.symm
    · rfl
  · rw [not_or, Bool.not_eq_false] at hfull
    rw [spelled_dots hfull.1 hfull.2, reading_dots _ (head_drop h _), Place.resolved, if_neg (Nat.succ_ne_zero _)]
    have hcommon := take_common place.package (target.splitOn '.')
    dsimp only
    rw [upTo_eq_take _ hcommon.1, hcommon.2]
    exact join_cut h _

/-- A spelling is legal here unless its target is under another top package. -/
theorem legal_spelled (h : Dotted target ∨ target = []) (relative : Bool) (names : List Alias) :
    place.Legal (reading (place.spelled target relative) names) ↔
      if relative = false ∨ place.package = [] then target ≠ []
      else (target.splitOn '.').head? = place.package.head? := by
  by_cases hfull : relative = false ∨ place.package = []
  · have hreading := reading_dots 0 (head_target h) names
    rw [List.replicate_zero, List.nil_append] at hreading
    rw [if_pos hfull, spelled_full hfull, hreading]
    simp [Place.Legal]
  · rw [if_neg hfull]
    rw [not_or, Bool.not_eq_false] at hfull
    have hcommon := (take_common place.package (target.splitOn '.')).1
    rw [spelled_dots hfull.1 hfull.2, reading_dots _ (head_drop h _), ← common_pos_iff hfull.2]
    have hlength := List.length_pos_iff.mpr hfull.2
    constructor
    · rintro ⟨hlevel, -⟩
      dsimp only at hlevel
      omega
    · intro hpos
      refine ⟨?_, fun hzero => absurd hzero (Nat.succ_ne_zero _)⟩
      dsimp only
      omega

end Spelling

end Mainboard.Analysis.Imports
