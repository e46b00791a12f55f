import Mathlib.Data.List.Perm.Basic
import Mainboard.ImportPlaces
import Mainboard.ListReading
import Mainboard.OrderedMap

/-! A module's from-imports after a move. Each name is imported from where the moves leave it, the names of one module
together, from a spelling read at the module's own new place. What the statements that stand afterwards reach is what
the old one reached, carried along the moves. -/

namespace OrderedMap

variable {κ ν : Type} [DecidableEq κ]

/-- The values of a map of lists, each under its key. -/
def scattered (groups : List (κ × List ν)) : List (κ × ν) := groups.flatMap fun group => group.2.map (group.1, ·)

theorem scattered_put (groups : List (κ × List ν)) (key : κ) (value : ν) :
    (scattered (put groups key ((get groups key).getD [] ++ [value]))).Perm (scattered groups ++ [(key, value)]) := by
  induction groups with
  | nil => exact List.Perm.refl _
  | cons group groups ih =>
      by_cases hkey : group.1 = key
      · have hget : get (group :: groups) key = some group.2 := by simp [get, hkey]
        rw [put, if_pos hkey, hget, Option.getD_some]
        simp only [scattered, List.flatMap_cons, List.map_append, List.map_singleton, hkey, List.append_assoc]
        exact (List.perm_append_comm).append_left _
      · have hget : get (group :: groups) key = get groups key := by simp [get, hkey]
        rw [put, if_neg hkey, hget]
        simp only [scattered, List.flatMap_cons, List.append_assoc] at ih ⊢
        exact ih.append_left _

/-- Values gathered under their keys are the values that came, each under its own. -/
theorem scattered_gather (pairs : List (κ × ν)) : (scattered (gather pairs)).Perm pairs := by
  induction pairs using List.reverseRecOn with
  | nil => exact List.Perm.refl _
  | append_singleton pairs pair ih =>
      rw [gather_snoc]
      exact (scattered_put _ _ _).trans (ih.append_right _)

end OrderedMap

namespace Mainboard.Analysis.Imports

open Analysis (Text)

/-- What a move makes of the project's modules, old dotted name to new. -/
structure Moves where
  new : Text → Option Text
  dotted : ∀ old name, new old = some name → Dotted name

/-- `moves.get(module, module)`. -/
def Moves.image (moves : Moves) (module : Text) : Text := (moves.new module).getD module

/-- `from ... import` as a module that parses writes it: a dotted module, which only leading dots may stand for. -/
structure FromImport extends Statement where
  column : ℕ
  dotted : ∀ name ∈ module, Dotted name
  named : level = 0 → module ≠ none

theorem Moves.dotted_image (moves : Moves) {module : Text} (h : Dotted module) : Dotted (moves.image module) := by
  unfold Moves.image
  cases hnew : moves.new module with
  | none => exact h
  | some name => exact moves.dotted _ _ hnew

/-- Where a module stands after the moves. -/
def Place.moved (here : Place) (moves : Moves) : Place where
  path := here.path
  module := moves.image here.module
  dotted := moves.dotted_image here.dotted

/-- `text.rsplit(".", 1)` taken as two, nothing where there is no dot. -/
def rsplit (text : Text) : Option (Text × Text) :=
  if '.' ∈ text then some ((text.rdropWhile (· ≠ '.')).dropLast, text.rtakeWhile (· ≠ '.')) else none

/-- A name imported as `name`, under the binding it had. -/
def Alias.written (taken : Alias) (name : Text) : Alias where
  name
  asname := if taken.asname = none ∧ name = taken.bound then none else some taken.bound

/-- A module and the name imported from it. -/
def whole (base name : Text) : Text := base ++ '.' :: name

/-- Where the moves leave one imported name: the module it comes from, and the name there. -/
def target (moves : Moves) (base : Text) (taken : Alias) : Option (Text × Alias) :=
  match moves.new (whole base taken.name) with
  | some new => (rsplit new).map fun split => (split.1, taken.written split.2)
  | none => some (moves.image base, taken.written taken.name)

section Relocation

variable (moves : Moves) (here : Place) (node : FromImport)

/-- The names of a statement by the module each comes from after the moves, as the module's new place spells it.
Nothing where a move names a module in no package. -/
def spellings : Option (List (Text × List Alias)) :=
  (node.names.mapM (target moves (here.resolved node.toStatement))).map fun pairs =>
    OrderedMap.ofPairs ((OrderedMap.gather pairs).map fun group =>
      ((here.moved moves).spelled group.1 (decide (node.level > 0)), group.2))

/-- How the statement spells its module. -/
def FromImport.spelling : Text := List.replicate node.level '.' ++ node.module.getD []

/-- What becomes of a `from ... import`: nothing where it is left be. -/
def rewritten : Option (Option (List (Text × List Alias))) :=
  (spellings moves here node).map fun spelled =>
    if spelled = [(node.spelling, node.names)] then none else some spelled

def Alias.text (taken : Alias) : Text :=
  match taken.asname with
  | none => taken.name
  | some bound => taken.name ++ " as ".toList ++ bound

/-- The statements a replacement writes, each on a line of its own. -/
def text (spelled : List (Text × List Alias)) : Text :=
  ('\n' :: List.replicate node.column ' ').intercalate (spelled.map fun entry =>
    "from ".toList ++ entry.1 ++ " import ".toList ++ ", ".toList.intercalate (entry.2.map Alias.text))

/-- The text that replaces a `from ... import`, if any. -/
def edits : Option (List Text) := (rewritten moves here node).map fun change => (change.map (text node)).toList

/-- The statements that stand where a `from ... import` stood. -/
def standing : Option (List Statement) :=
  (rewritten moves here node).map fun
    | none => [node.toStatement]
    | some spelled => spelled.map fun entry => reading entry.1 entry.2

/-- The dotted name an import reached, carried along the moves. -/
def Moves.carried (base name : Text) : Text := (moves.new (whole base name)).getD (whole (moves.image base) name)

end Relocation

/-- What is promised of a respelled import: it is respelled, by statements legal where the module lands, which import
what the old one imported, carried along, under the same names; and a target read where it is spelled is itself. -/
structure Respelled (moves : Moves) (here : Place) (node : FromImport) : Prop where
  stands : ∃ statements, standing moves here node = some statements ∧
    (∀ statement ∈ statements, (here.moved moves).Legal statement) ∧
    (statements.flatMap fun statement => statement.names.map fun taken =>
      (whole ((here.moved moves).resolved statement) taken.name, taken.bound)).Perm
        (node.names.map fun taken => (moves.carried (here.resolved node.toStatement) taken.name, taken.bound))
  inverse : ∀ target, Dotted target → ∀ relative names,
    (here.moved moves).resolved (reading ((here.moved moves).spelled target relative) names) = target

/-- A module that stays within a package, and a relative import all of whose modules share their top package with
it. -/
structure Within (moves : Moves) (here : Place) (node : FromImport) : Prop where
  packaged : ∀ taken ∈ node.names, ∀ new, moves.new (whole (here.resolved node.toStatement) taken.name) = some new →
    '.' ∈ new
  top : node.level > 0 → ∀ taken ∈ node.names,
    let first := ((moves.carried (here.resolved node.toStatement) taken.name).splitOn '.').head?
    if (here.moved moves).package = [] then first ≠ some [] else first = (here.moved moves).package.head?

section Targets

variable {moves : Moves} {here : Place} {base name : Text} {taken : Alias} {pair : Text × Alias}

theorem rsplit_eq_some {split : Text × Text} (h : rsplit name = some split) : name = whole split.1 split.2 := by
  unfold rsplit at h
  split at h
  · rename_i hdot
    obtain rfl := Option.some.inj h
    have hsome : name.rdropWhile (· ≠ '.') ≠ [] := by
      intro hnone
      have hall := List.rdropWhile_eq_nil_iff.mp hnone '.' hdot
      exact absurd hall (by decide)
    have hlast : (name.rdropWhile (· ≠ '.')).getLast hsome = '.' := by
      simpa using List.rdropWhile_last_not (· ≠ '.') name hsome
    have hcut : name.rdropWhile (· ≠ '.') ++ name.rtakeWhile (· ≠ '.') = name := by
      rw [List.rdropWhile, List.rtakeWhile, ← List.reverse_append, List.takeWhile_append_dropWhile, List.reverse_reverse]
    have hfirst := List.dropLast_append_getLast hsome
    rw [hlast] at hfirst
    conv_lhs => rw [← hcut, ← hfirst]
    rw [List.append_assoc]
    rfl
  · cases h

theorem rsplit_eq_none_iff : rsplit name = none ↔ '.' ∉ name := by
  unfold rsplit
  split <;> simp_all

theorem bound_written (taken : Alias) (name : Text) : (taken.written name).bound = taken.bound := by
  unfold Alias.written
  split
  · rename_i hplain
    exact hplain.2
  · rfl

/-- A place names a dotted module, or none, for every statement a parser makes. -/
theorem dotted_resolved (here : Place) (node : FromImport) :
    Dotted (here.resolved node.toStatement) ∨ here.resolved node.toStatement = [] := by
  unfold Place.resolved
  split
  · cases hmodule : node.module with
    | none => exact Or.inr rfl
    | some module => exact Or.inl (node.dotted module hmodule)
  · have hpackage : ∀ part ∈ here.package, Dotted part := by
      intro part hpart
      have hmem : part ∈ here.module.splitOn '.' := by
        unfold Place.package at hpart
        dsimp only at hpart
        split at hpart
        · exact hpart
        · exact List.mem_of_mem_dropLast hpart
      unfold Dotted
      rw [List.splitOn_eq_singleton (not_mem_part hmem)]
      exact List.forall_mem_singleton.mpr (here.dotted part hmem)
    dsimp only
    generalize hbase : upTo here.package (here.package.length - node.level + 1) = base
    by_cases hnone : base ++ node.module.toList = []
    · rw [hnone]
      exact Or.inr rfl
    · refine Or.inl (dotted_join hnone fun part hpart => ?_)
      rcases List.mem_append.mp hpart with hpart | hmodule
      · rw [← hbase, upTo] at hpart
        split at hpart <;> exact hpackage part (List.mem_of_mem_take hpart)
      · exact node.dotted part (Option.mem_toList.mp hmodule)

/-- Where an imported name comes from after the moves is what it reached, carried along. -/
theorem target_eq_some (h : target moves base taken = some pair) (hbase : Dotted base ∨ base = []) :
    moves.carried base taken.name = whole pair.1 pair.2.name ∧ pair.2.bound = taken.bound ∧
      (Dotted pair.1 ∨ pair.1 = []) := by
  unfold target at h
  unfold Moves.carried
  cases hnew : moves.new (whole base taken.name) with
  | some new =>
      rw [hnew] at h
      obtain ⟨split, hsplit, rfl⟩ := Option.map_eq_some_iff.mp h
      have hwhole := rsplit_eq_some hsplit
      refine ⟨hwhole, bound_written _ _, Or.inl ?_⟩
      have hdotted := moves.dotted _ _ hnew
      rw [hwhole] at hdotted
      exact (dotted_append.mp hdotted).1
  | none =>
      rw [hnew] at h
      obtain rfl := Option.some.inj h
      refine ⟨rfl, bound_written _ _, ?_⟩
      rcases hbase with hdotted | rfl
      · exact Or.inl (moves.dotted_image hdotted)
      · unfold Moves.image
        cases hempty : moves.new [] with
        | none => exact Or.inr rfl
        | some new => exact Or.inl (moves.dotted _ _ hempty)

/-- A name comes from somewhere after the moves unless they leave its module in no package. -/
theorem target_ne_none_iff : (∃ pair, target moves base taken = some pair) ↔
    ∀ new, moves.new (whole base taken.name) = some new → '.' ∈ new := by
  unfold target
  cases moves.new (whole base taken.name) with
  | none => exact iff_of_true ⟨_, rfl⟩ fun new h => by cases h
  | some new =>
      dsimp only
      have hsplit := @rsplit_eq_none_iff new
      constructor
      · rintro ⟨pair, hpair⟩ other hother
        obtain rfl := Option.some.inj hother
        by_contra hdot
        rw [hsplit.mpr hdot] at hpair
        cases hpair
      · intro h
        cases hcut : rsplit new with
        | none => exact absurd (h new rfl) (hsplit.mp hcut)
        | some split => exact ⟨(split.1, taken.written split.2), rfl⟩

end Targets

section Standing

variable {moves : Moves} {here : Place} {node : FromImport} {pairs : List (Text × Alias)} {level : ℕ}

theorem reading_spelling (node : FromImport) : reading node.spelling node.names = node.toStatement := by
  unfold FromImport.spelling
  cases hmodule : node.module with
  | none =>
      have hempty : (none : Option Text).getD [] = [] := rfl
      rw [hempty, reading_dots _ (fun hdot => by cases hdot), if_pos rfl, ← hmodule]
  | some module =>
      have hdotted := node.dotted module hmodule
      rw [Option.getD_some, reading_dots _ hdotted.head, if_neg hdotted.ne_nil, ← hmodule]

/-- What stands after a respelling is what was spelled, also where the statement was left be. -/
theorem standing_eq (moves : Moves) (here : Place) (node : FromImport) :
    standing moves here node = (spellings moves here node).map (List.map fun entry => reading entry.1 entry.2) := by
  unfold standing rewritten
  rw [Option.map_map]
  refine congrArg (fun change => Option.map change _) (funext fun spelled => ?_)
  rw [Function.comp_apply]
  split
  · rename_i hnone
    split at hnone
    · rename_i hsame
      rw [hsame, List.map_singleton, reading_spelling]
    · cases hnone
  · rename_i other hsome
    split at hsome
    · cases hsome
    · obtain rfl := Option.some.inj hsome
      rfl

/-- The modules names come from are spelled each in its own way. -/
theorem spelled_gather (place : Place) (relative : Bool) (h : ∀ pair ∈ pairs, Dotted pair.1 ∨ pair.1 = []) :
    OrderedMap.ofPairs ((OrderedMap.gather pairs).map fun group => (place.spelled group.1 relative, group.2)) =
      (OrderedMap.gather pairs).map fun group => (place.spelled group.1 relative, group.2) := by
  have hmodule : ∀ module ∈ (OrderedMap.gather pairs).map (·.1), Dotted module ∨ module = [] := by
    intro module hmem
    obtain ⟨pair, hpair, rfl⟩ := List.mem_map.mp ((OrderedMap.mem_keys_gather pairs module).mp hmem)
    exact h pair hpair
  have hkeys : (((OrderedMap.gather pairs).map fun group => (place.spelled group.1 relative, group.2)).map (·.1)).Nodup := by
    have hspelled : (((OrderedMap.gather pairs).map fun group => (place.spelled group.1 relative, group.2)).map (·.1)) =
        ((OrderedMap.gather pairs).map (·.1)).map fun module => place.spelled module relative := by
      rw [List.map_map, List.map_map]
      rfl
    rw [hspelled]
    refine (OrderedMap.nodup_keys_gather pairs).map_on fun one hone other hother hsame => ?_
    have hread : place.resolved (reading (place.spelled one relative) []) = one := resolved_spelled (hmodule one hone) _ _
    rw [hsame, resolved_spelled (hmodule other hother)] at hread
    exact hread.symm
  exact @OrderedMap.putAll_of_nodup _ _ _ [] _ hkeys

/-- What is spelled imports what was imported, carried along, under the same names. -/
theorem reached_perm (place : Place) (relative : Bool) (h : ∀ pair ∈ pairs, Dotted pair.1 ∨ pair.1 = []) :
    (((OrderedMap.gather pairs).map fun group => reading (place.spelled group.1 relative) group.2).flatMap fun statement =>
      statement.names.map fun taken => (whole (place.resolved statement) taken.name, taken.bound)).Perm
        (pairs.map fun pair => (whole pair.1 pair.2.name, pair.2.bound)) := by
  refine List.Perm.trans (List.Perm.of_eq ?_) ((OrderedMap.scattered_gather pairs).map _)
  rw [List.flatMap_map, OrderedMap.scattered, List.map_flatMap]
  refine List.flatMap_congr fun group hgroup => ?_
  have hgood : Dotted group.1 ∨ group.1 = [] := by
    obtain ⟨pair, hpair, hkey⟩ :=
      List.mem_map.mp ((OrderedMap.mem_keys_gather pairs group.1).mp (List.mem_map_of_mem hgroup))
    exact hkey ▸ h pair hpair
  have hnames : (reading (place.spelled group.1 relative) group.2).names = group.2 := rfl
  rw [resolved_spelled hgood, hnames, List.map_map]
  rfl

/-- What a statement's names come from after the moves, one for each. -/
theorem targets_spec (h : node.names.mapM (target moves (here.resolved node.toStatement)) = some pairs) :
    (∀ pair ∈ pairs, Dotted pair.1 ∨ pair.1 = []) ∧
      (pairs.map fun pair => (whole pair.1 pair.2.name, pair.2.bound)) =
        node.names.map fun taken => (moves.carried (here.resolved node.toStatement) taken.name, taken.bound) := by
  have hall := ListReading.mapM_eq_some_iff.mp h
  have hbase := dotted_resolved here node
  clear h
  generalize node.names = names at hall
  generalize here.resolved node.toStatement = base at hall hbase ⊢
  induction hall with
  | nil => exact ⟨fun pair hpair => (List.not_mem_nil hpair).elim, rfl⟩
  | cons hone _ ih =>
      obtain ⟨hcarried, hbound, hgood⟩ := target_eq_some hone hbase
      refine ⟨List.forall_mem_cons.mpr ⟨hgood, ih.1⟩, ?_⟩
      rw [List.map_cons, List.map_cons, ih.2, hcarried, hbound]

/-- A spelling is legal where the module lands exactly where what the name reaches is within reach. -/
theorem legal_iff {place : Place} {module name : Text} (hgood : Dotted module ∨ module = []) (hnamed : level = 0 → module ≠ [])
    (names : List Alias) : place.Legal (reading (place.spelled module (decide (level > 0))) names) ↔
      (level > 0 → let first := ((whole module name).splitOn '.').head?
        if place.package = [] then first ≠ some [] else first = place.package.head?) := by
  have hfirst : ((whole module name).splitOn '.').head? = (module.splitOn '.').head? := by
    obtain ⟨head, rest, hsplit⟩ := List.exists_cons_of_ne_nil (List.splitOn_ne_nil '.' module)
    rw [whole, List.splitOn_append_cons_self, hsplit]
    rfl
  have hempty : (module.splitOn '.').head? = some [] ↔ module = [] := by
    constructor
    · intro hhead
      obtain ⟨rest, hsplit⟩ := List.head?_eq_some_iff.mp hhead
      exact hgood.resolve_left fun hdotted => hdotted [] (hsplit ▸ List.mem_cons_self) rfl
    · rintro rfl
      rfl
  rw [legal_spelled hgood, hfirst]
  by_cases hlevel : level > 0
  · by_cases hpackage : place.package = []
    · simp [hlevel, hpackage, hempty]
    · simp [hlevel, hpackage]
  · have hzero : level = 0 := by omega
    simp [hzero, hnamed hzero]

theorem resolved_ne_nil (hlevel : node.level = 0) : here.resolved node.toStatement ≠ [] := by
  unfold Place.resolved
  rw [if_pos hlevel]
  cases hmodule : node.module with
  | none => exact absurd hmodule (node.named hlevel)
  | some module => exact (node.dotted module hmodule).ne_nil

theorem named_target {taken : Alias} {pair : Text × Alias} (hlevel : node.level = 0)
    (h : target moves (here.resolved node.toStatement) taken = some pair) : pair.1 ≠ [] := by
  have hbase := (dotted_resolved here node).resolve_right (resolved_ne_nil hlevel)
  unfold target at h
  cases hnew : moves.new (whole (here.resolved node.toStatement) taken.name) with
  | none =>
      rw [hnew] at h
      obtain rfl := Option.some.inj h
      exact (moves.dotted_image hbase).ne_nil
  | some new =>
      rw [hnew] at h
      obtain ⟨split, hsplit, rfl⟩ := Option.map_eq_some_iff.mp h
      have hdotted := moves.dotted _ _ hnew
      rw [rsplit_eq_some hsplit] at hdotted
      exact (dotted_append.mp hdotted).1.ne_nil

/-- All that is spelled is legal exactly where all that is reached is within reach. -/
theorem legal_all_iff (h : node.names.mapM (target moves (here.resolved node.toStatement)) = some pairs) :
    (∀ group ∈ OrderedMap.gather pairs, (here.moved moves).Legal
      (reading ((here.moved moves).spelled group.1 (decide (node.level > 0))) group.2)) ↔
      (node.level > 0 → ∀ taken ∈ node.names,
        let first := ((moves.carried (here.resolved node.toStatement) taken.name).splitOn '.').head?
        if (here.moved moves).package = [] then first ≠ some [] else first = (here.moved moves).package.head?) := by
  have hbase := dotted_resolved here node
  have hone : ∀ taken pair, target moves (here.resolved node.toStatement) taken = some pair →
      ∀ names, (here.moved moves).Legal (reading ((here.moved moves).spelled pair.1 (decide (node.level > 0))) names) ↔
        (node.level > 0 → let first := ((moves.carried (here.resolved node.toStatement) taken.name).splitOn '.').head?
          if (here.moved moves).package = [] then first ≠ some [] else first = (here.moved moves).package.head?) := by
    intro taken pair htarget names
    obtain ⟨hcarried, -, hgood⟩ := target_eq_some htarget hbase
    rw [hcarried]
    exact legal_iff hgood (fun hlevel => named_target hlevel htarget) names
  constructor
  · intro hlegal hlevel taken htaken
    obtain ⟨pair, hpair, htarget⟩ := ListReading.exists_of_mapM h htaken
    obtain ⟨group, hgroup, hkey⟩ := List.mem_map.mp
      ((OrderedMap.mem_keys_gather pairs pair.1).mpr (List.mem_map_of_mem hpair))
    have hgood := hlegal group hgroup
    rw [hkey] at hgood
    exact (hone taken pair htarget group.2).mp hgood hlevel
  · intro hwithin group hgroup
    obtain ⟨pair, hpair, hkey⟩ := List.mem_map.mp
      ((OrderedMap.mem_keys_gather pairs group.1).mp (List.mem_map_of_mem hgroup))
    obtain ⟨taken, htaken, htarget⟩ := ListReading.mem_of_mapM h hpair
    rw [← hkey]
    exact (hone taken pair htarget group.2).mpr fun hlevel => hwithin hlevel taken htaken

end Standing

/-- A from-import is respelled as promised exactly where what it reaches stays within reach. -/
theorem respelled_iff (moves : Moves) (here : Place) (node : FromImport) :
    Respelled moves here node ↔ Within moves here node := by
  have hraises : (∃ pairs, node.names.mapM (target moves (here.resolved node.toStatement)) = some pairs) ↔
      ∀ taken ∈ node.names, ∀ new, moves.new (whole (here.resolved node.toStatement) taken.name) = some new →
        '.' ∈ new :=
    ListReading.mapM_exists_iff.trans (forall₂_congr fun taken _ => target_ne_none_iff)
  have hstanding := standing_eq moves here node
  unfold spellings at hstanding
  constructor
  · rintro ⟨⟨statements, hstands, hlegal, -⟩, -⟩
    rw [hstanding] at hstands
    cases hpairs : node.names.mapM (target moves (here.resolved node.toStatement)) with
    | none =>
        rw [hpairs] at hstands
        cases hstands
    | some pairs =>
        refine ⟨hraises.mp ⟨pairs, hpairs⟩, (legal_all_iff hpairs).mp fun group hgroup => hlegal _ ?_⟩
        rw [hpairs, Option.map_some, Option.map_some, spelled_gather _ _ (targets_spec hpairs).1, List.map_map] at hstands
        obtain rfl := Option.some.inj hstands
        exact List.mem_map.mpr ⟨group, hgroup, rfl⟩
  · rintro ⟨hpackaged, htop⟩
    obtain ⟨pairs, hpairs⟩ := hraises.mpr hpackaged
    obtain ⟨hgood, hcarried⟩ := targets_spec hpairs
    let statements := (OrderedMap.gather pairs).map fun group =>
      reading ((here.moved moves).spelled group.1 (decide (node.level > 0))) group.2
    refine ⟨⟨statements, ?_, ?_, ?_⟩, fun target htarget relative names => resolved_spelled (Or.inl htarget) relative names⟩
    · rw [hstanding, hpairs, Option.map_some, Option.map_some, spelled_gather _ _ hgood, List.map_map]
      rfl
    · intro statement hstatement
      obtain ⟨group, hgroup, rfl⟩ := List.mem_map.mp hstatement
      exact (legal_all_iff hpairs).mpr htop group hgroup
    · rw [← hcarried]
      exact reached_perm _ _ hgood

/-- A module `a.b` that moves to `c.d`. -/
def leaving : Moves where
  new module := if module = "a.b".toList then some "c.d".toList else none
  dotted old name h := by
    split at h
    · obtain rfl := Option.some.inj h
      decide
    · cases h

/-- `from .b import x` in a module `a.m`. -/
def sibling : Place := { path := "a/m.py".toList, module := "a.m".toList, dotted := by decide }

def reaching : FromImport where
  level := 1
  module := some "b".toList
  names := [{ name := "x".toList }]
  column := 0
  dotted name h := by
    obtain rfl := Option.some.inj h
    decide
  named h := by cases h

/-- It becomes `from ..c.d import x`, one dot more than `a.m` has packages. -/
theorem respelled_fails : ¬ Respelled leaving sibling reaching := by
  rintro ⟨⟨statements, hstands, hlegal, -⟩, -⟩
  have hwritten : standing leaving sibling reaching =
      some [{ level := 2, module := some "c.d".toList, names := [{ name := "x".toList }] }] := by decide +kernel
  rw [hwritten] at hstands
  obtain rfl := Option.some.inj hstands
  exact absurd (hlegal _ List.mem_cons_self) (by decide +kernel)

end Mainboard.Analysis.Imports
