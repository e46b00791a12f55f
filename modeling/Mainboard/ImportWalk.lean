import Mathlib.Data.List.Basic
import Mathlib.Logic.Relation
import Mainboard.OrderedMap
import Mainboard.Worklists

/-! The import walk of a job: what a file imports, which first-party files those names stand for under the import
roots, and all files reached so from one. The walk ends with files closed under their imports, each once, and the
initializers of every package above one of them; or with the first name two roots define. -/

namespace Mainboard.Jobs

/-- A dotted name by its parts, those between its dots. -/
abbrev Name := List String

/-- A workspace-relative path by its components. -/
abbrev Path := List String

local instance lawfulPath : LawfulBEq Path := inferInstance

/-- An initializer, which makes its directory a regular package. -/
def init : String := "__init__.py"

/-- The name a wildcard imports. -/
def wildcard : String := "*"

/-- The dynamic import spellings whose literal argument the walk still follows. -/
def dynamicNames : List String := ["import_module", "__import__"]

/-- A syntax node as far as the walk reads it. A call has the name it calls and its first argument where that is a
string. -/
inductive Syntax where
  | plain (names : List Name)
  | fromModule (module : Name) (level : ℕ) (names : List String)
  | call (named : String) (argument : Option Name)
  deriving DecidableEq, Repr

/-- The workspace as the walk asks about it: its files, its directories, and the nodes of a file that parses. -/
structure Tree where
  files : List Path
  folders : List Path
  parse : Path → Option (List Syntax)

/-- One first-party module file, and its import root. -/
structure Module where
  path : Path
  root : Path
  deriving DecidableEq, Repr

/-- Why a walk ends without an answer. -/
inductive Fault where
  | unparsed (path : Path)
  | ambiguous (top : String) (holders : List Path)
  deriving DecidableEq, Repr

/-- The static import walk over a job's first-party roots. -/
structure Walker where
  tree : Tree
  home : Path
  distributions : List Path

namespace Walker

/-- `base.joinpath(*parts)`, which an empty part leaves where it is. -/
def under (base : Path) (parts : Name) : Path := base ++ parts.filter (· ≠ "")

/-- `package.with_suffix(".py")`, for a last component without a dot. -/
def withSuffix (package : Path) : Path := package.dropLast ++ (package.getLast?.map (· ++ ".py")).toList

/-- A file name without its suffix, which its leading dots begin none of. -/
def stem (name : String) : String :=
  let dots := name.toList.takeWhile (· = '.')
  let rest := name.toList.dropWhile (· = '.')
  if '.' ∈ rest then String.ofList (dots ++ ((rest.reverse.dropWhile (· ≠ '.')).drop 1).reverse) else name

/-- What a component adds to a name, which is cut at its dots. -/
def pieces (component : String) : Name := (component.toList.splitOn '.').map String.ofList

/-- The parts of the name a file is imported by from `home`. -/
def dotted (file home : Path) : Name :=
  let inside := file.drop home.length
  let last := (inside.getLast?.map stem).toList
  (if last = ["__init__"] then inside.dropLast else inside.dropLast ++ last).flatMap pieces

/-- The parts of a name written out: no name is one empty part. -/
def written (parts : Name) : Name := if parts = [] then [""] else parts

/-- `name` imported from module `package` with `level` leading dots, none past the top package. -/
def absolute (package : Name) (level : ℕ) (name : Name) : Option Name :=
  if level = 0 then some name
  else
    let parts := package.dropLast
    if parts.length ≤ level - 1 then none
    else some (parts.take (parts.length - (level - 1)) ++ name)

/-- The module names one syntax node of module `package` imports. -/
def named (package : Name) : Syntax → List Name
  | .plain names => names
  | .fromModule module level names =>
      match absolute package level module with
      | none => []
      | some base => base :: (names.filter (· ≠ wildcard)).map fun taken => base ++ [taken]
  | .call calls argument =>
      match argument with
      | none => []
      -- a literal that is empty or begins with a dot has an empty first part
      | some parts => if calls ∈ dynamicNames ∧ parts.head? ≠ some "" then [parts] else []

variable (walker : Walker)

/-- The import roots, each once, the job's own first. -/
def roots : List Path := (OrderedMap.ofPairs ((walker.home :: walker.distributions).map fun root => (root, ()))).map (·.1)

/-- Whether a root defines a package or a module here. -/
def regular (package : Path) : Bool :=
  decide (package ++ [init] ∈ walker.tree.files) || decide (withSuffix package ∈ walker.tree.files)

/-- The package files the parts from `depth` on walk through under `base`, none when the chain breaks. -/
def chainFrom (base : Path) (parts : Name) (depth : ℕ) : ℕ → Option (List Path)
  | 0 => some []
  | left + 1 =>
      let package := under base (parts.take depth)
      let later := chainFrom base parts (depth + 1) left
      if package ++ [init] ∈ walker.tree.files then later.map ((package ++ [init]) :: ·)
      else if depth = parts.length ∧ withSuffix package ∈ walker.tree.files then later.map (withSuffix package :: ·)
      else if package ∈ walker.tree.folders then later
      else none

/-- The package files `parts` walks through under `base`. -/
def chain (base : Path) (parts : Name) : Option (List Path) := walker.chainFrom base parts 1 parts.length

/-- The roots that define the top package of a name. -/
def holders (name : Name) : List Path := walker.roots.filter fun root => walker.regular (under root (name.take 1))

/-- The files `name` imports, parent packages included, under the first root whose chain holds. -/
def resolve (name : Name) : Except Fault (List Module) :=
  if 1 < (walker.holders name).length then .error (.ambiguous (name.head?.getD "") (walker.holders name))
  else
    .ok <| (walker.roots.findSome? fun root =>
      (walker.chain root name).map fun files => files.map fun file => ⟨file, root⟩).getD []

/-- The package a module's relative imports start from. -/
def package (module : Module) : Name :=
  let name := written (dotted module.path module.root)
  if module.path.getLast? = some init then name ++ ["__init__"] else name

/-- Every module name `module` imports, relative ones spelled out. -/
def imported (module : Module) : Except Fault (List Name) :=
  match walker.tree.parse module.path with
  | none => .error (.unparsed module.path)
  | some nodes => .ok (nodes.flatMap (named (package module)))

/-- Every file the names stand for, in turn. -/
def resolveAll : List Name → Except Fault (List Module)
  | [] => .ok []
  | name :: names => do
      let found ← walker.resolve name
      let later ← resolveAll names
      return found ++ later

/-- Every file `module` imports. -/
def imports (module : Module) : Except Fault (List Module) := do walker.resolveAll (← walker.imported module)

/-- The modules a turn adds: those at paths not reached yet, each path once, standing for the last found there. -/
def fresh (reached : List (Path × Module)) (found : List Module) : List (Path × Module) :=
  OrderedMap.ofPairs ((found.filter fun module => module.path ∉ reached.map (·.1)).map fun module => (module.path, module))

/-- The turns of a walk, the module taken next first among those that wait; no answer when the turns run out. -/
def turns : ℕ → List (Path × Module) → List Module → Option (Except Fault (List Module))
  | _, reached, [] => some (.ok (reached.map (·.2)))
  | 0, _, _ :: _ => none
  | fuel + 1, reached, module :: pending =>
      match walker.imports module with
      | .error fault => some (.error fault)
      | .ok found =>
          let new := fresh reached found
          turns fuel (OrderedMap.putAll reached new) ((new.map (·.2)).reverse ++ pending)

/-- The target's own file under the job's import root. -/
def first (file : Path) : Module := ⟨file, walker.home⟩

/-- Every first-party module `file` imports, transitively, `file` itself first. Every turn takes one module, and no
path waits twice. -/
def reach (file : Path) : Option (Except Fault (List Module)) :=
  walker.turns (walker.tree.files.length + 2) [(file, walker.first file)] [walker.first file]

/-! ### What a name stands for -/

/-- One module imports another: a name it imports stands for that file, or for one above it. -/
def Imports (module next : Module) : Prop :=
  ∃ names name found, walker.imported module = .ok names ∧ name ∈ names ∧ walker.resolve name = .ok found ∧ next ∈ found

/-- A module the walk cannot pass: it does not parse, or imports a name more than one root defines. -/
def Refuses (module : Module) (fault : Fault) : Prop :=
  (walker.tree.parse module.path = none ∧ fault = .unparsed module.path) ∨
    ∃ names name, walker.imported module = .ok names ∧ name ∈ names ∧ 1 < (walker.holders name).length ∧
      fault = .ambiguous (name.head?.getD "") (walker.holders name)

variable {walker : Walker}

/-- What a chain holds: files, each an initializer on the way or the module the whole name is. -/
theorem mem_chainFrom {base : Path} {parts : Name} {depth left : ℕ} {files : List Path}
    (h : walker.chainFrom base parts depth left = some files) {path : Path} (hpath : path ∈ files) :
    path ∈ walker.tree.files ∧ ((∃ stop, path = under base (parts.take stop) ++ [init]) ∨
      path = withSuffix (under base parts)) := by
  induction left generalizing depth files with
  | zero =>
      simp only [chainFrom, Option.some.injEq] at h
      exact absurd (h ▸ hpath) List.not_mem_nil
  | succ left ih =>
      simp only [chainFrom] at h
      split at h
      · rename_i hinit
        obtain ⟨later, hlater, rfl⟩ := Option.map_eq_some_iff.mp h
        rcases List.mem_cons.mp hpath with rfl | hrest
        · exact ⟨hinit, Or.inl ⟨depth, rfl⟩⟩
        · exact ih hlater hrest
      · split at h
        · rename_i hwhole
          obtain ⟨later, hlater, rfl⟩ := Option.map_eq_some_iff.mp h
          rcases List.mem_cons.mp hpath with rfl | hrest
          · exact ⟨hwhole.2, Or.inr (by rw [hwhole.1, List.take_length])⟩
          · exact ih hlater hrest
        · split at h
          · exact ih h hpath
          · cases h

/-- No initializer a chain walks past is left out of it. -/
theorem init_mem_chainFrom {base : Path} {parts : Name} {depth left : ℕ} {files : List Path}
    (h : walker.chainFrom base parts depth left = some files) {stop : ℕ} (hlow : depth ≤ stop) (hhigh : stop < depth + left)
    (hinit : under base (parts.take stop) ++ [init] ∈ walker.tree.files) : under base (parts.take stop) ++ [init] ∈ files := by
  induction left generalizing depth files with
  | zero => omega
  | succ left ih =>
      simp only [chainFrom] at h
      rcases Nat.eq_or_lt_of_le hlow with rfl | hlater
      · rw [if_pos hinit] at h
        obtain ⟨later, _, rfl⟩ := Option.map_eq_some_iff.mp h
        exact List.mem_cons_self
      · split at h
        · obtain ⟨later, hrest, rfl⟩ := Option.map_eq_some_iff.mp h
          exact List.mem_cons_of_mem _ (ih hrest hlater (by omega))
        · split at h
          · obtain ⟨later, hrest, rfl⟩ := Option.map_eq_some_iff.mp h
            exact List.mem_cons_of_mem _ (ih hrest hlater (by omega))
          · split at h
            · exact ih h hlater (by omega)
            · cases h

/-- What a name stands for are the files of one root's chain. -/
theorem mem_resolve {name : Name} {found : List Module} (h : walker.resolve name = .ok found) {module : Module}
    (hmodule : module ∈ found) : ∃ files, walker.chain module.root name = some files ∧ module.path ∈ files ∧
      ∀ path ∈ files, ⟨path, module.root⟩ ∈ found := by
  unfold resolve at h
  split at h
  · cases h
  · injection h with h
    cases hfirst : walker.roots.findSome? fun root =>
        (walker.chain root name).map fun files => files.map fun file => (⟨file, root⟩ : Module) with
    | none =>
        rw [hfirst, Option.getD_none] at h
        exact absurd (h ▸ hmodule) List.not_mem_nil
    | some modules =>
        rw [hfirst, Option.getD_some] at h
        subst h
        obtain ⟨root, _, hroot⟩ := List.exists_of_findSome?_eq_some hfirst
        obtain ⟨files, hfiles, rfl⟩ := Option.map_eq_some_iff.mp hroot
        obtain ⟨file, hfile, rfl⟩ := List.mem_map.mp hmodule
        exact ⟨files, hfiles, hfile, fun path hpath => List.mem_map.mpr ⟨path, hpath, rfl⟩⟩

/-- Every module a name stands for is a file. -/
theorem resolve_mem_files {name : Name} {found : List Module} (h : walker.resolve name = .ok found) {module : Module}
    (hmodule : module ∈ found) : module.path ∈ walker.tree.files := by
  obtain ⟨files, hchain, hpath, _⟩ := mem_resolve h hmodule
  exact (mem_chainFrom hchain hpath).1

/-- What several names stand for is what each of them does. -/
theorem resolveAll_ok {names : List Name} {found : List Module} (h : walker.resolveAll names = .ok found) :
    (∀ name ∈ names, ∃ some, walker.resolve name = .ok some) ∧
      ∀ module, module ∈ found ↔ ∃ name ∈ names, ∃ some, walker.resolve name = .ok some ∧ module ∈ some := by
  induction names generalizing found with
  | nil =>
      injection h with h
      subst h
      exact ⟨fun _ hname => absurd hname List.not_mem_nil, fun module => by simp⟩
  | cons name names ih =>
      cases hname : walker.resolve name with
      | error fault => simp [resolveAll, hname, bind, Except.bind] at h
      | ok here =>
          cases hrest : walker.resolveAll names with
          | error fault => simp [resolveAll, hname, hrest, bind, Except.bind] at h
          | ok later =>
              simp only [resolveAll, hname, hrest, bind, Except.bind, pure, Except.pure, Except.ok.injEq] at h
              subst h
              obtain ⟨hall, hmem⟩ := ih hrest
              refine ⟨fun other hother => ?_, fun module => ?_⟩
              · rcases List.mem_cons.mp hother with rfl | hlater
                · exact ⟨here, hname⟩
                · exact hall other hlater
              · rw [List.mem_append, hmem module]
                constructor
                · rintro (hhere | ⟨other, hother, some, hsome⟩)
                  · exact ⟨name, List.mem_cons_self, here, hname, hhere⟩
                  · exact ⟨other, List.mem_cons_of_mem _ hother, some, hsome⟩
                · rintro ⟨other, hother, some, hsome, hmodule⟩
                  rcases List.mem_cons.mp hother with rfl | hlater
                  · rw [hname] at hsome
                    injection hsome with hsome
                    exact Or.inl (hsome ▸ hmodule)
                  · exact Or.inr ⟨other, hlater, some, hsome, hmodule⟩

/-- A module the walk takes without a refusal: it parses, and each name it imports stands for something or nothing. -/
def Answers (walker : Walker) (module : Module) : Prop :=
  ∃ names, walker.imported module = .ok names ∧ ∀ name ∈ names, ∃ found, walker.resolve name = .ok found

/-- What a turn finds is what the module imports. -/
theorem imports_ok {module : Module} {found : List Module} (h : walker.imports module = .ok found) :
    walker.Answers module ∧ ∀ next, next ∈ found ↔ walker.Imports module next := by
  cases hnames : walker.imported module with
  | error fault => simp [imports, hnames, bind, Except.bind] at h
  | ok names =>
      simp only [imports, hnames, bind, Except.bind] at h
      obtain ⟨hall, hmem⟩ := resolveAll_ok h
      refine ⟨⟨names, hnames, hall⟩, fun next => ?_⟩
      rw [hmem]
      constructor
      · rintro ⟨name, hname, some, hsome, hnext⟩
        exact ⟨names, name, some, hnames, hname, hsome, hnext⟩
      · rintro ⟨others, name, some, hothers, hname, hsome, hnext⟩
        rw [hnames] at hothers
        injection hothers with hothers
        exact ⟨name, hothers ▸ hname, some, hsome, hnext⟩

end Walker

end Mainboard.Jobs
