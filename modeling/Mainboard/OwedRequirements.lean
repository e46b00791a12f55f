import Mainboard.LockCompiler

/-! The requirements a workspace owes a re-resolution: those its manifest takes from another ecosystem than the manifest
its lock was last fully solved from. A compile compares with the manifest before it alone, so a requirement is owed only
as long as every compile in between still names it and ends by writing its state. -/

namespace Mainboard.Compile

open OrderedMap Runs

/-- The manifests an environment's locks were last fully solved from: its shard's own and the committed section's. -/
def Workspace.bases (w : Workspace) (env : String) : List Compiled :=
  ((w.shards env).lock.bind Lock.base).toList ++ ((get w.committed env).bind Solved.base).toList

/-- Every requirement the compiled manifest takes from another ecosystem than the manifest the present lock was last
fully solved from is owed. -/
def Owed (w : Workspace) : Prop := ∀ env compiled base, (w.shards env).manifest = some compiled →
  (w.shards env).lock.bind Lock.base = some base →
    ∀ name ∈ changed base compiled, name ∈ (w.shards env).state.moved

/-- The same of the committed section's lock too, which the next freshness question brings in. -/
def Sound (w : Workspace) : Prop := ∀ env compiled, (w.shards env).manifest = some compiled →
  ∀ base ∈ w.bases env, ∀ name ∈ changed base compiled, name ∈ (w.shards env).state.moved

/-- A compile forgets nothing: each requirement that changed ecosystem since a lock's full solve is pending already, or
the manifest compiled before names it and the compile comes to write its state. -/
def Remembers (w : Workspace) : Label → Prop
  | .compile env compiled _ _ ended => ∀ base ∈ w.bases env, ∀ name ∈ changed base compiled,
      name ∈ (w.shards env).state.moved ∨
        ended = true ∧ ∃ before, (w.shards env).manifest = some before ∧ (name ∈ before.conda ∨ name ∈ before.pypi)
  | _ => True

/-- What every other operation leaves: the manifests as they were, and each lock one the workspace had, its moves still
owed, or one solved from the manifest compiled now. -/
def Carries (before after : Workspace) : Prop := ∀ env,
  (after.shards env).manifest = (before.shards env).manifest ∧ ∀ base ∈ after.bases env,
    (before.shards env).manifest = some base ∨
      base ∈ before.bases env ∧ (before.shards env).state.moved ⊆ (after.shards env).state.moved

section Carrying

variable {tool : Tool} {w before after last : Workspace} {env : String}

theorem owed_of_sound (h : Sound w) : Owed w := fun env compiled base hmanifest hbase =>
  h env compiled hmanifest base (List.mem_append_left _ (Option.mem_toList.mpr hbase))

@[simp] theorem changed_self (compiled : Compiled) : changed compiled compiled = [] := by
  refine List.eq_nil_iff_forall_not_mem.mpr fun name hmem => ?_
  rcases mem_changed.mp hmem with ⟨hin, hout, -⟩ | ⟨hin, hout, -⟩ <;> exact hout hin

theorem Carries.refl (w : Workspace) : Carries w w := fun _ => ⟨rfl, fun _ hbase => Or.inr ⟨hbase, List.Subset.refl _⟩⟩

theorem Carries.trans (hfirst : Carries before after) (hsecond : Carries after last) : Carries before last := by
  intro env
  obtain ⟨hmanifest, hbases⟩ := hfirst env
  obtain ⟨hmanifest', hbases'⟩ := hsecond env
  refine ⟨hmanifest'.trans hmanifest, fun base hbase => ?_⟩
  rcases hbases' base hbase with hnow | ⟨hmem, hmoved'⟩
  · exact Or.inl (hmanifest ▸ hnow)
  · rcases hbases base hmem with hnow | ⟨hmem, hmoved⟩
    · exact Or.inl hnow
    · exact Or.inr ⟨hmem, List.Subset.trans hmoved hmoved'⟩

theorem Sound.carried (h : Sound before) (hcarries : Carries before after) : Sound after := by
  intro env compiled hmanifest base hbase name hname
  obtain ⟨hsame, hbases⟩ := hcarries env
  rw [hsame] at hmanifest
  rcases hbases base hbase with hnow | ⟨hmem, hmoved⟩
  · obtain rfl : base = compiled := Option.some.inj (hnow.symm.trans hmanifest)
    rw [changed_self] at hname
    exact (List.not_mem_nil hname).elim
  · exact hmoved (h env compiled hmanifest base hmem name hname)

/-- An operation on one environment answers for that one alone. -/
theorem carries_of (env : String) (hother : ∀ other, other ≠ env →
      after.shards other = before.shards other ∧ get after.committed other = get before.committed other)
    (hmanifest : (after.shards env).manifest = (before.shards env).manifest)
    (hbases : ∀ base ∈ after.bases env, (before.shards env).manifest = some base ∨
      base ∈ before.bases env ∧ (before.shards env).state.moved ⊆ (after.shards env).state.moved) :
    Carries before after := by
  intro asked
  by_cases hasked : asked = env
  · rw [hasked]
    exact ⟨hmanifest, hbases⟩
  · obtain ⟨hshard, hget⟩ := hother asked hasked
    rw [Workspace.bases, hshard, hget]
    exact ⟨rfl, fun base hbase => Or.inr ⟨hbase, List.Subset.refl _⟩⟩

/-- The shard's own lock recorded in its section. -/
theorem carries_recorded {lock : Lock} {solved : Solved} (hlock : (w.shards env).lock = some lock)
    (hbase : solved.base = lock.base) : Carries w { w with committed := OrderedMap.put w.committed env solved } := by
  refine carries_of env (fun other hother => ⟨rfl, ?_⟩) rfl fun base hmem => ?_
  · rw [get_put, if_neg hother.symm]
  · rw [Workspace.bases, get_put, if_pos rfl] at hmem
    refine Or.inr ⟨List.mem_append_left _ ?_, List.Subset.refl _⟩
    rcases List.mem_append.mp hmem with hmem | hmem
    · exact hmem
    · rw [hlock]
      rwa [Option.bind_some, hbase] at hmem

theorem carries_put {lock : Lock} {solved : Solved} (hlock : (w.shards env).lock = some lock)
    (hbase : solved.base = lock.base) : Carries w (w.put env solved).workspace := by
  rcases put_cases w env solved with ⟨refused, hput⟩ | hput
  · rw [hput]
    exact Carries.refl w
  · rw [hput]
    exact carries_recorded hlock hbase

theorem carries_bless {solved : Solved} {freed : Bool}
    (hfreed : freed = true → ∀ base ∈ w.bases env, (w.shards env).manifest = some base) :
    Carries w (w.bless env solved freed) := by
  refine carries_of env (fun other hother => ⟨withShard_other hother, rfl⟩) ?_ fun base hmem => ?_
  · rw [Workspace.bless, withShard_self]
  · have hbases : (w.bless env solved freed).bases env = w.bases env := by
      rw [Workspace.bases, Workspace.bases, Workspace.bless, withShard_self]
      rfl
    rw [hbases] at hmem
    cases freed with
    | false =>
        refine Or.inr ⟨hmem, ?_⟩
        rw [Workspace.bless, withShard_self]
        exact List.Subset.refl _
    | true => exact Or.inl (hfreed rfl base hmem)

/-- The committed section's lock copied to the shard. -/
theorem carries_copied {solved : Solved} (h : get w.committed env = some solved) :
    Carries w (w.withShard env { w.shards env with lock := some ⟨solved.lock, solved.base⟩ }) := by
  refine carries_of env (fun other hother => ⟨withShard_other hother, rfl⟩) ?_ fun base hmem => ?_
  · rw [withShard_self]
  · rw [withShard_self]
    refine Or.inr ⟨List.mem_append_right _ ?_, List.Subset.refl _⟩
    rw [Workspace.bases, withShard_self] at hmem
    rcases List.mem_append.mp hmem with hmem | hmem
    · rw [h]
      exact hmem
    · exact hmem

theorem carries_materialize : Carries w (w.materialize env).workspace := by
  unfold Workspace.materialize
  split
  · unfold Workspace.adopted
    dsimp only
    split
    · exact Carries.refl w
    · rename_i lock hlock
      split
      · exact Carries.refl w
      · exact carries_put hlock rfl
  · rename_i solved hget
    exact (carries_copied hget).trans (carries_bless fun hfreed => (Bool.false_ne_true hfreed).elim)

theorem refusal_workspace : (w.refusal tool env).workspace = (w.materialize env).workspace := by
  unfold Workspace.refusal
  dsimp only
  split
  · rfl
  · split
    · split <;> rfl
    · rfl

theorem carries_refusal : Carries w (w.refusal tool env).workspace := by
  rw [refusal_workspace]
  exact carries_materialize

/-- A commit owes nothing more only where the lock it records was solved from the manifest compiled now. -/
theorem carries_commit {freed : Bool} (hfreed : freed = true → (w.shards env).lock.bind Lock.base = (w.shards env).manifest) :
    Carries w (w.commit tool env freed).workspace := by
  rcases commit_cases tool w env freed with
    ⟨refusal, -, hcommit⟩ | ⟨compiled, lock, hmanifest, hlock, hcommit⟩
  · rw [hcommit]
    exact Carries.refl w
  · rcases hcommit with ⟨mixed, -, -, hcommit⟩ | ⟨-, hcommit⟩
    · rw [hcommit]
      exact carries_recorded hlock rfl
    · rw [hcommit]
      refine (carries_recorded hlock rfl).trans (carries_bless fun htrue base hmem => ?_)
      have hbase : lock.base = (w.shards env).manifest := by
        have h := hfreed htrue
        rwa [hlock] at h
      rw [Workspace.bases, get_put, if_pos rfl, hlock] at hmem
      change (w.shards env).manifest = some base
      rw [← hbase]
      rcases List.mem_append.mp hmem with hmem | hmem <;> exact Option.mem_toList.mp hmem

theorem carries_solved {full freed : Bool} {answer : Option String} (hfull : freed = true → full = true) :
    Carries w (w.solved tool env full freed answer).workspace := by
  unfold Workspace.solved
  split
  · exact Carries.refl w
  · rename_i text
    refine Carries.trans ?_ (carries_commit fun hfreed => ?_)
    · refine carries_of env (fun other hother => ⟨withShard_other hother, rfl⟩) ?_ fun base hmem => ?_
      · rw [withShard_self]
      · rw [Workspace.bases, withShard_self] at hmem
        rw [withShard_self]
        rcases List.mem_append.mp hmem with hmem | hmem
        · dsimp only [Option.bind_some] at hmem
          split at hmem
          · rename_i lock hlock
            split at hmem
            · exact Or.inl (Option.mem_toList.mp hmem)
            · refine Or.inr ⟨List.mem_append_left _ ?_, List.Subset.refl _⟩
              rw [hlock]
              exact hmem
          · exact Or.inl (Option.mem_toList.mp hmem)
        · exact Or.inr ⟨List.mem_append_right _ hmem, List.Subset.refl _⟩
    · rw [withShard_self, hfull hfreed]
      dsimp only [Option.bind_some]
      split <;> rfl

theorem carries_standing : Carries w (w.standing env).workspace := by
  unfold Workspace.standing
  split <;> exact Carries.refl w

theorem carries_locked {policy : LockPolicy} {update : Option (List String)} {answer : Option String} :
    Carries w (w.locked tool env policy update answer).workspace := by
  unfold Workspace.locked
  split
  · exact carries_solved id
  · split
    · dsimp only
      split
      · exact carries_refusal
      · exact carries_refusal.trans carries_standing
      · exact carries_refusal.trans (carries_solved id)
    · dsimp only
      split
      · exact carries_refusal
      · exact carries_refusal.trans carries_standing
    · exact carries_standing

/-- A requirement that changed ecosystem since the lock's solve, and that the manifest in between names, changed on one
side of it or the other. -/
theorem changed_between {base before compiled : Compiled} {name : String} (h : name ∈ changed base compiled)
    (hnamed : name ∈ before.conda ∨ name ∈ before.pypi) :
    name ∈ changed base before ∨ name ∈ changed before compiled := by
  simp only [mem_changed] at h ⊢
  by_cases hconda : name ∈ before.conda
  · by_cases hpypi : name ∈ before.pypi
    · rcases h with ⟨hin, hout, hnow⟩ | ⟨hin, hout, hnow⟩
      · exact Or.inr (Or.inl ⟨hconda, hout, hnow⟩)
      · exact Or.inr (Or.inr ⟨hpypi, hout, hnow⟩)
    · rcases h with ⟨hin, hout, hnow⟩ | ⟨hin, hout, hnow⟩
      · exact Or.inr (Or.inl ⟨hconda, hout, hnow⟩)
      · exact Or.inl (Or.inr ⟨hin, hpypi, hconda⟩)
  · have hpypi : name ∈ before.pypi := hnamed.resolve_left hconda
    rcases h with ⟨hin, hout, hnow⟩ | ⟨hin, hout, hnow⟩
    · exact Or.inl (Or.inl ⟨hin, hconda, hpypi⟩)
    · exact Or.inr (Or.inr ⟨hpypi, hout, hnow⟩)

theorem sound_compile {compiled : Compiled} {compiledFrom runtimeFrom : String} {ended : Bool} (h : Sound w)
    (hremembers : Remembers w (.compile env compiled compiledFrom runtimeFrom ended)) :
    Sound (w.compile env compiled compiledFrom runtimeFrom ended) := by
  intro asked now hmanifest base hbase name hname
  by_cases hasked : asked = env
  · subst hasked
    rw [Workspace.compile, withShard_self] at hmanifest ⊢
    obtain rfl : compiled = now := Option.some.inj hmanifest
    have hold : base ∈ w.bases asked := by
      rw [Workspace.bases, Workspace.compile, withShard_self] at hbase
      exact hbase
    rcases hremembers base hold name hname with hpending | ⟨rfl, before, hbefore, hnamed⟩
    · cases ended with
      | false => exact hpending
      | true =>
          dsimp only
          rw [if_pos rfl]
          split
          · exact mem_moved.mpr (Or.inl hpending)
          · exact hpending
    · dsimp only
      rw [if_pos rfl, hbefore]
      rcases changed_between hname hnamed with hearlier | hlater
      · exact mem_moved.mpr (Or.inl (h asked before hbefore base hold name hearlier))
      · exact mem_moved.mpr (Or.inr hlater)
  · rw [Workspace.compile, withShard_other hasked] at hmanifest ⊢
    rw [Workspace.bases, Workspace.compile, withShard_other hasked] at hbase
    exact h asked now hmanifest base hbase name hname

theorem sound_step {label : Label} (h : Sound w) (hremembers : Remembers w label) : Sound (w.step tool label) := by
  cases label with
  | compile env compiled compiledFrom runtimeFrom ended => exact sound_compile h hremembers
  | materialize env => exact h.carried carries_materialize
  | fresh env => exact h.carried carries_refusal
  | vouch env => exact h.carried carries_refusal
  | locked env policy update answer => exact h.carried carries_locked
  | edit metadata => exact h

theorem remembers_of_compile {compiled : Compiled} {compiledFrom runtimeFrom : String} {ended : Bool}
    (h : Sound (w.compile env compiled compiledFrom runtimeFrom ended)) :
    Remembers w (.compile env compiled compiledFrom runtimeFrom ended) := by
  intro base hbase name hname
  have hsound := h env compiled
  rw [Workspace.bases, Workspace.compile, withShard_self] at hsound
  have hmoved := hsound rfl base hbase name hname
  cases ended with
  | false => exact Or.inl hmoved
  | true =>
      dsimp only at hmoved
      rw [if_pos rfl] at hmoved
      split at hmoved
      · rename_i before hbefore
        refine (mem_moved.mp hmoved).imp_right fun hchanged => ⟨rfl, before, hbefore, ?_⟩
        rcases mem_changed.mp hchanged with ⟨hin, -, -⟩ | ⟨hin, -, -⟩
        · exact Or.inl hin
        · exact Or.inr hin
      · exact Or.inl hmoved

theorem remembers_of_step {label : Label} (h : Sound (w.step tool label)) : Remembers w label := by
  cases label with
  | compile env compiled compiledFrom runtimeFrom ended => exact remembers_of_compile h
  | _ => trivial

/-- The condition is exact for both locks: a run that keeps everything owed forgets nothing in any compile. -/
theorem remembers_iff {labels : List Label} (hsound : Sound w) :
    Each (Workspace.step tool) Remembers w labels ↔ Always (Workspace.step tool) Sound w labels := by
  refine ⟨invariant_always (fun _ _ => sound_step) hsound, fun h => ?_⟩
  induction labels generalizing w with
  | nil => trivial
  | cons label labels ih =>
      have hstep : Sound (w.step tool label) := h [label] (List.cons_prefix_cons.mpr ⟨rfl, List.nil_prefix⟩)
      exact ⟨remembers_of_step hstep, ih hstep h.tail⟩

end Carrying

/-- In every run of a workspace with nothing compiled yet whose compiles forget nothing, whatever changed ecosystem
since the lock was last fully solved is owed in every state. -/
theorem owed_always (tool : Tool) (root metadata : String) (labels : List Label)
    (h : Each (Workspace.step tool) Remembers { root, metadata } labels) :
    Always (Workspace.step tool) Owed { root, metadata } labels := by
  refine always_mono (fun _ => owed_of_sound) ((remembers_iff ?_).mp h)
  intro env compiled hmanifest
  cases hmanifest

/-- What answers every manifest with its own text. -/
def plainTool : Tool where
  digest compiled _ := compiled.text
  version := "0.55.0"
  entries _ := []

/-- A requirement locked from conda and then compiled from PyPI. -/
def movedOver (ended : Bool) : List Label := [.compile "default" { text := "conda", conda := ["ruff"] } "" "" true,
  .locked "default" .update none (some "lock"), .compile "default" { text := "pypi", pypi := ["ruff"] } "" "" ended]

theorem owed_always_movedOver : Always (Workspace.step plainTool) Owed { root := "/ws", metadata := "" } (movedOver true) := by
  refine owed_always plainTool "/ws" "" (movedOver true) ⟨fun base hbase => ?_, trivial, ?_, trivial⟩
  · exact (List.not_mem_nil hbase).elim
  · intro base hbase name hname
    refine Or.inr ⟨rfl, { text := "conda", conda := ["ruff"] }, rfl, Or.inl ?_⟩
    have hbases : Workspace.bases (run (Workspace.step plainTool) { root := "/ws", metadata := "" }
        ((movedOver true).take 2)) "default" ⊆ [{ text := "conda", conda := ["ruff"] }] := by decide +kernel
    obtain rfl := List.mem_singleton.mp (hbases hbase)
    have hchanged : changed { text := "conda", conda := ["ruff"] } { text := "pypi", pypi := ["ruff"] } ⊆ ["ruff"] := by
      decide
    exact hchanged hname

theorem owed_fails : ¬ ∀ (tool : Tool) (root metadata : String) (labels : List Label),
    Always (Workspace.step tool) Owed { root, metadata } labels := by
  intro h
  have howed := h plainTool "/ws" "" (movedOver false) (movedOver false) (List.prefix_refl _) "default"
    { text := "pypi", pypi := ["ruff"] } { text := "conda", conda := ["ruff"] } rfl (by decide +kernel) "ruff"
    (by decide)
  revert howed
  decide +kernel

end Mainboard.Compile
