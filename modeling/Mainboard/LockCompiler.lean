import Mathlib.Data.List.Dedup
import Mathlib.Data.List.Sort
import Mathlib.Data.String.Basic
import Mainboard.OrderedMap
import Mainboard.Runs

/-! A workspace's compiled manifests and its locks: one committed file with a section for each environment, each
environment's own copy, and the state beside it that says what the copy was solved from and which requirements changed
ecosystem since. A lock carries, beside its text, the manifest it was last fully solved from. -/

namespace Mainboard.Compile

open OrderedMap

/-- A compiled manifest: its text, and the requirements it takes from conda and from PyPI. -/
structure Compiled where
  text : String
  conda : List String := []
  pypi : List String := []
  deriving DecidableEq, Repr

/-- One environment's solve as committed. -/
structure Solved where
  solvedFrom : String
  solvedBy : String
  lock : String
  base : Option Compiled := none
  deriving DecidableEq, Repr

/-- A shard's `pixi.lock`. -/
structure Lock where
  text : String
  base : Option Compiled := none
  deriving DecidableEq, Repr

/-- The compile-freshness snapshot of one shard. -/
structure SyncState where
  environment : String := ""
  compiledFrom : String := ""
  solvedFrom : String := ""
  solvedBy : String := ""
  compiledAt : String := ""
  runtimeFrom : String := ""
  moved : List String := []
  deriving DecidableEq, Repr

structure Shard where
  manifest : Option Compiled := none
  lock : Option Lock := none
  state : SyncState := {}
  deriving DecidableEq, Repr

/-- A workspace: where it lies, its local projects' metadata, the committed lock and each environment's shard. -/
structure Workspace where
  root : String := ""
  metadata : String := ""
  committed : List (String × Solved) := []
  shards : String → Shard := fun _ => {}

/-- What a workspace is read with: what a solve reads as one digest, pixi's version, and the `pypi` and `name` fields of
the packages a lock lists. -/
structure Tool where
  digest : Compiled → String → String
  version : String
  entries : String → List (Option String × Option String)

inductive LockPolicy where
  | update
  | locked
  | frozen
  deriving DecidableEq, Repr

/-- Why an operation raised. -/
inductive Refusal where
  | pixi
  | absent
  | uncarriable (environment : String)
  | mixed (packages : List String)
  | unvouched (current solvedFrom : String) (committed : Bool)
  | missing
  deriving DecidableEq, Repr

/-- What an operation leaves, and what it answers or why it raised. -/
structure Result (α : Type) where
  workspace : Workspace
  value : Except Refusal α

/-- A text a TOML literal string carries: no delimiter in it and no control character but tab and newline. -/
def carriable (text : String) : Bool :=
  !decide ("'''".toList <:+: text.toList) &&
    text.toList.all fun char => 32 ≤ char.toNat && char.toNat != 127 || char.toNat == 9 || char.toNat == 10

/-- The sections in the order the file has them. -/
def environments (committed : List (String × Solved)) : List (String × Solved) :=
  committed.insertionSort fun one other => one.1 ≤ other.1

def isRemote (url : String) : Bool :=
  "http://".toList.isPrefixOf url.toList || "https://".toList.isPrefixOf url.toList

/-- Each package with the first environment that takes it from an index, or else from the workspace. -/
def sourcesOf (tool : Tool) (remote : Bool) (committed : List (String × Solved)) : List (String × String) :=
  ((environments committed).flatMap fun named => (tool.entries named.2.lock).filterMap fun entry =>
    match entry with
    | (some url, some package) =>
        if url ≠ "" ∧ package ≠ "" ∧ isRemote url = remote then some (package, named.1) else none
    | _ => none).foldl (fun found pair => if (get found pair.1).isSome then found else put found pair.1 pair.2) []

/-- Each package one environment builds from the workspace and another takes from an index. -/
def mixedSources (tool : Tool) (committed : List (String × Solved)) : List String :=
  let indexed := sourcesOf tool true committed
  ((sourcesOf tool false committed).filterMap fun entry => (get indexed entry.1).map fun taken =>
    entry.1 ++ ": `" ++ taken ++ "` takes it from an index, `" ++ entry.2 ++ "` from the workspace").insertionSort (· ≤ ·)

/-- The requirements a compile owes a solve: those pending, and those taken from another ecosystem than before. -/
def changed (before after : Compiled) : List String :=
  (before.conda.filter fun name => name ∉ after.conda ∧ name ∈ after.pypi) ++
    before.pypi.filter fun name => name ∉ after.pypi ∧ name ∈ after.conda

def moved (before after : Compiled) (pending : List String) : List String :=
  (pending ++ changed before after).dedup.insertionSort (· ≤ ·)

namespace Workspace

variable (tool : Tool) (w : Workspace) (env : String)

def withShard (shard : Shard) : Workspace := { w with shards := fun other => if other = env then shard else w.shards other }

/-- A solve's digest and pixi recorded in the shard's state; `freed` owes nothing more. -/
def bless (solved : Solved) (freed : Bool) : Workspace :=
  let shard := w.shards env
  w.withShard env { shard with state :=
    { shard.state with solvedFrom := solved.solvedFrom, solvedBy := solved.solvedBy,
                       moved := if freed then [] else shard.state.moved } }

/-- An environment's solve recorded, every other section kept; a lock the file cannot carry is refused unwritten. -/
def put (solved : Solved) : Result Unit :=
  let committed := OrderedMap.put w.committed env solved
  match (environments committed).find? fun entry => !carriable entry.2.lock with
  | some entry => ⟨w, .error (.uncarriable entry.1)⟩
  | none => ⟨{ w with committed }, .ok ()⟩

/-- The shard's blessed lock recorded in the committed lock, where there is one to record. -/
def adopted : Result (Option Solved) :=
  let shard := w.shards env
  match shard.lock with
  | none => ⟨w, .ok none⟩
  | some lock =>
      if shard.state.environment ≠ env ∨ shard.state.solvedFrom = "" then ⟨w, .ok none⟩
      else
        let solved : Solved := ⟨shard.state.solvedFrom, shard.state.solvedBy, lock.text, lock.base⟩
        let kept := w.put env solved
        ⟨kept.workspace, kept.value.map fun _ => some solved⟩

/-- The shard's lock and blessing brought in line with the committed lock. -/
def materialize : Result (Option Solved) := match get w.committed env with
  | none => w.adopted env
  | some solved =>
      let copied := w.withShard env { w.shards env with lock := some ⟨solved.lock, solved.base⟩ }
      ⟨copied.bless env solved false, .ok (some solved)⟩

/-- The shard's freshly solved lock recorded in the committed lock, then the whole file checked, then blessed. -/
def commit (freed : Bool) : Result Unit :=
  let shard := w.shards env
  match shard.manifest, shard.lock with
  | some compiled, some lock =>
      let solved : Solved := ⟨tool.digest compiled w.metadata, tool.version, lock.text, lock.base⟩
      let kept := w.put env solved
      match kept.value with
      | .error refusal => ⟨kept.workspace, .error refusal⟩
      | .ok _ =>
          match mixedSources tool kept.workspace.committed with
          | [] => ⟨kept.workspace.bless env solved freed, .ok ()⟩
          | mixed => ⟨kept.workspace, .error (.mixed mixed)⟩
  | _, _ => ⟨w, .error .absent⟩

/-- Why the committed lock does not answer the manifest compiled now, none where it does. -/
def refusal : Result (Option Refusal) :=
  let kept := w.materialize env
  match kept.value with
  | .error refusal => ⟨kept.workspace, .error refusal⟩
  | .ok solved =>
      let shard := kept.workspace.shards env
      match shard.manifest, shard.lock with
      | some compiled, some _ =>
          let current := tool.digest compiled kept.workspace.metadata
          if solved.map Solved.solvedFrom = some current then ⟨kept.workspace, .ok none⟩
          else ⟨kept.workspace, .ok (some (.unvouched current shard.state.solvedFrom solved.isSome))⟩
      | _, _ => ⟨kept.workspace, .ok none⟩

/-- Whether a committed lock answers the manifest compiled now. -/
def fresh : Result Bool :=
  let asked := w.refusal tool env
  ⟨asked.workspace, asked.value.map fun refusal => refusal.isNone && ((asked.workspace.shards env).lock).isSome⟩

/-- Refuses unless the committed lock was solved from this manifest and package metadata. -/
def vouch : Result Unit :=
  let asked := w.refusal tool env
  ⟨asked.workspace, asked.value.bind fun refusal => match refusal with
    | some refusal => .error refusal
    | none => .ok ()⟩

/-- Pixi's own write of the shard's lock, then the commit. A full solve answers to the manifest compiled now, one of
named packages to what the lock answered to before. -/
def solved (full freed : Bool) (answer : Option String) : Result Bool := match answer with
  | none => ⟨w, .error .pixi⟩
  | some text =>
      let shard := w.shards env
      let base := match shard.lock with
        | some lock => if full then shard.manifest else lock.base
        | none => shard.manifest
      let kept := (w.withShard env { shard with lock := some ⟨text, base⟩ }).commit tool env freed
      ⟨kept.workspace, kept.value.map fun _ => true⟩

/-- A lock to install from, whichever it is. -/
def standing : Result Bool := match (w.shards env).lock with
  | some _ => ⟨w, .ok false⟩
  | none => ⟨w, .error .missing⟩

/-- The shard's lock brought to what a policy allows, pixi answering with the lock it solved; whether it moved. -/
def locked (policy : LockPolicy) (update : Option (List String)) (answer : Option String) : Result Bool :=
  match update with
  | some names => w.solved tool env (decide (names = [])) (decide (names = [])) answer
  | none => match policy with
      | .update =>
          let asked := w.fresh tool env
          match asked.value with
          | .error refusal => ⟨asked.workspace, .error refusal⟩
          | .ok true => asked.workspace.standing env
          | .ok false => asked.workspace.solved tool env true true answer
      | .locked =>
          let asked := w.vouch tool env
          match asked.value with
          | .error refusal => ⟨asked.workspace, .error refusal⟩
          | .ok _ => asked.workspace.standing env
      | .frozen => w.standing env

/-- The manifest written, then, unless a crash comes between, the state beside it. -/
def compile (compiled : Compiled) (compiledFrom runtimeFrom : String) (ended : Bool) : Workspace :=
  let shard := w.shards env
  let owed := match shard.manifest with
    | some before => moved before compiled shard.state.moved
    | none => shard.state.moved
  let state := { shard.state with environment := env, compiledFrom, compiledAt := w.root, runtimeFrom, moved := owed }
  w.withShard env { shard with manifest := some compiled, state := if ended then state else shard.state }

end Workspace

/-- What happens at a workspace, each under its lock. -/
inductive Label where
  | compile (env : String) (compiled : Compiled) (compiledFrom runtimeFrom : String) (ended : Bool)
  | materialize (env : String)
  | fresh (env : String)
  | vouch (env : String)
  | locked (env : String) (policy : LockPolicy) (update : Option (List String)) (answer : Option String)
  | edit (metadata : String)
  deriving DecidableEq, Repr

def Workspace.step (tool : Tool) (w : Workspace) : Label → Workspace
  | .compile env compiled compiledFrom runtimeFrom ended => w.compile env compiled compiledFrom runtimeFrom ended
  | .materialize env => (w.materialize env).workspace
  | .fresh env => (w.fresh tool env).workspace
  | .vouch env => (w.vouch tool env).workspace
  | .locked env policy update answer => (w.locked tool env policy update answer).workspace
  | .edit metadata => { w with metadata }

section Reading

variable {tool : Tool} {w : Workspace} {env other : String} {shard : Shard}

@[simp] theorem withShard_self : (w.withShard env shard).shards env = shard := if_pos rfl

theorem withShard_other (h : other ≠ env) : (w.withShard env shard).shards other = w.shards other := if_neg h

theorem mem_moved {before after : Compiled} {pending : List String} {name : String} :
    name ∈ moved before after pending ↔ name ∈ pending ∨ name ∈ changed before after := by
  rw [moved, List.mem_insertionSort, List.mem_dedup, List.mem_append]

theorem mem_changed {before after : Compiled} {name : String} : name ∈ changed before after ↔
    (name ∈ before.conda ∧ name ∉ after.conda ∧ name ∈ after.pypi) ∨
      (name ∈ before.pypi ∧ name ∉ after.pypi ∧ name ∈ after.conda) := by
  simp only [changed, List.mem_append, List.mem_filter, decide_eq_true_eq]

/-- A solve recorded: it stands in its section and the shards are as they were, or nothing was written. -/
theorem put_cases (w : Workspace) (env : String) (solved : Solved) :
    (∃ refused, w.put env solved = ⟨w, .error (.uncarriable refused)⟩) ∨
      w.put env solved = ⟨{ w with committed := OrderedMap.put w.committed env solved }, .ok ()⟩ := by
  unfold Workspace.put
  dsimp only
  split
  · exact Or.inl ⟨_, rfl⟩
  · exact Or.inr rfl

/-- What a commit can do: nothing without a manifest and a lock, or where the file cannot carry the lock; else the
section is written, and the shard blessed where no package has two sources. -/
theorem commit_cases (tool : Tool) (w : Workspace) (env : String) (freed : Bool) :
    (∃ refusal, (∀ mixed, refusal ≠ .mixed mixed) ∧ w.commit tool env freed = ⟨w, .error refusal⟩) ∨
      ∃ compiled lock, (w.shards env).manifest = some compiled ∧ (w.shards env).lock = some lock ∧
        let solved : Solved := ⟨tool.digest compiled w.metadata, tool.version, lock.text, lock.base⟩
        let written : Workspace := { w with committed := OrderedMap.put w.committed env solved }
        (∃ mixed, mixed ≠ [] ∧ mixedSources tool written.committed = mixed ∧
          w.commit tool env freed = ⟨written, .error (.mixed mixed)⟩) ∨
        (mixedSources tool written.committed = [] ∧ w.commit tool env freed = ⟨written.bless env solved freed, .ok ()⟩) := by
  unfold Workspace.commit
  dsimp only
  split
  · rename_i compiled lock hmanifest hlock
    rcases put_cases w env ⟨tool.digest compiled w.metadata, tool.version, lock.text, lock.base⟩ with
      ⟨refused, hput⟩ | hput
    · rw [hput]
      exact Or.inl ⟨_, fun mixed => by simp, rfl⟩
    · rw [hput]
      refine Or.inr ⟨compiled, lock, hmanifest, hlock, ?_⟩
      dsimp only
      split
      · rename_i hnone
        exact Or.inr ⟨hnone, rfl⟩
      · rename_i mixed hmixed
        exact Or.inl ⟨_, hmixed, rfl, rfl⟩
  · exact Or.inl ⟨_, fun mixed => by simp, rfl⟩

end Reading

end Mainboard.Compile
