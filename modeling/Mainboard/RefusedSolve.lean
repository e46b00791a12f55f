import Mainboard.LockCompiler

/-! A solve whose commit is refused because a package would come from the workspace in one environment and from an
index in another. The section is written before it is checked, so it stands refused, and whatever asks next takes the
committed lock as it finds it. -/

namespace Mainboard.Compile

open OrderedMap Runs

/-- The step accepts a lock text of an environment without a solve: fresh, vouched for, or locked as it stands. -/
def Accepts (tool : Tool) (w : Workspace) (env text : String) (label : Label) : Prop :=
  ((((w.step tool label).shards env).lock).map Lock.text = some text) ∧ match label with
    | .fresh asked => asked = env ∧ (w.fresh tool env).value.toOption = some true
    | .vouch asked => asked = env ∧ (w.vouch tool env).value.toOption = some ()
    | .locked asked policy update answer =>
        asked = env ∧ (w.locked tool env policy update answer).value.toOption = some false
    | _ => False

/-- The step may solve the environment anew. -/
def Solves (env : String) : Label → Prop
  | .locked asked _ _ _ => asked = env
  | _ => False

/-- The step's commit was refused over its sources. -/
def Refuses (tool : Tool) (w : Workspace) : Label → Prop
  | .locked env policy update answer =>
      ∃ mixed, (w.locked tool env policy update answer).value = .error (.mixed mixed)
  | _ => False

/-- A refused solve left the committed lock and the shard's blessing as they were, and nothing that follows accepts its
lock before the environment is solved anew. -/
def StaysRefused (tool : Tool) (w : Workspace) : Label → Prop
  | .locked env policy update answer =>
      let refused := (w.locked tool env policy update answer).workspace
      refused.committed = w.committed ∧ (refused.shards env).state = (w.shards env).state ∧
        ∀ text, ((refused.shards env).lock).map Lock.text = some text →
          ∀ labels label, (∀ earlier ∈ labels, ¬ Solves env earlier) →
            ¬ Accepts tool (run (Workspace.step tool) refused labels) env text label
  | _ => True

/-- A shard as pixi's answer leaves it, before its commit. -/
def Workspace.answered (w : Workspace) (env : String) (full : Bool) (text : String) : Workspace :=
  let shard := w.shards env
  let base := match shard.lock with
    | some lock => if full then shard.manifest else lock.base
    | none => shard.manifest
  w.withShard env { shard with lock := some ⟨text, base⟩ }

/-- The shard's lock, recorded beside the sections there are, takes a package from two kinds of source. -/
def Unsettled (tool : Tool) (w : Workspace) (env : String) : Prop :=
  ∃ compiled lock, (w.shards env).manifest = some compiled ∧ (w.shards env).lock = some lock ∧
    let written := put w.committed env ⟨tool.digest compiled w.metadata, tool.version, lock.text, lock.base⟩
    (∀ entry ∈ environments written, carriable entry.2.lock = true) ∧ mixedSources tool written ≠ []

/-- The step is to commit a solve that mixes its sources with those of the sections beside it. -/
def Mixes (tool : Tool) (w : Workspace) : Label → Prop
  | .locked env _ (some names) (some text) => Unsettled tool (w.answered env (decide (names = [])) text) env
  | .locked env .update none (some text) => (w.fresh tool env).value.toOption = some false ∧
      Unsettled tool ((w.fresh tool env).workspace.answered env true text) env
  | _ => False

section Refusing

variable {tool : Tool} {w : Workspace} {env : String}

/-- What a refused commit left: the committed lock holds the very solve of the shard's manifest and lock. -/
structure Left (tool : Tool) (env : String) (w : Workspace) : Prop where
  stands : ∃ compiled lock solved, (w.shards env).manifest = some compiled ∧ (w.shards env).lock = some lock ∧
    get w.committed env = some solved ∧ solved.lock = lock.text ∧ solved.solvedFrom = tool.digest compiled w.metadata

theorem left_of_commit {freed : Bool} (mixed : List String) (h : (w.commit tool env freed).value = .error (.mixed mixed)) :
    Left tool env (w.commit tool env freed).workspace := by
  rcases commit_cases tool w env freed with
    ⟨refusal, hnot, hcommit⟩ | ⟨compiled, lock, hmanifest, hlock, ⟨found, -, -, hcommit⟩ | ⟨-, hcommit⟩⟩
  · rw [hcommit] at h
    cases h
    exact absurd rfl (hnot mixed)
  · rw [hcommit]
    refine ⟨⟨compiled, lock, ⟨tool.digest compiled w.metadata, tool.version, lock.text, lock.base⟩, hmanifest, hlock, ?_,
      rfl, rfl⟩⟩
    rw [get_put, if_pos rfl]
  · rw [hcommit] at h
    cases h

theorem left_of_solved {full freed : Bool} {answer : Option String} {mixed : List String}
    (h : (w.solved tool env full freed answer).value = .error (.mixed mixed)) :
    Left tool env (w.solved tool env full freed answer).workspace := by
  unfold Workspace.solved at h ⊢
  cases answer with
  | none => cases h
  | some text =>
      refine left_of_commit mixed ?_
      dsimp only at h
      generalize Workspace.commit tool _ env freed = kept at h ⊢
      cases hvalue : kept.value with
      | error refusal =>
          rw [hvalue] at h
          exact congrArg Except.error (Except.error.inj h)
      | ok value =>
          rw [hvalue] at h
          cases h

/-- The committed lock brought back as it is, and found to answer the manifest compiled now. -/
theorem fresh_of_left (h : Left tool env w) : (w.fresh tool env).value = .ok true ∧
    ((w.fresh tool env).workspace.shards env).lock.map Lock.text = (w.shards env).lock.map Lock.text := by
  obtain ⟨compiled, lock, solved, hmanifest, hlock, hget, htext, hdigest⟩ := h.stands
  have hcopied : w.materialize env = ⟨(w.withShard env { w.shards env with lock := some ⟨solved.lock, solved.base⟩ }).bless env
      solved false, .ok (some solved)⟩ := by
    unfold Workspace.materialize
    rw [hget]
  have hrefusal : w.refusal tool env = ⟨(w.materialize env).workspace, .ok none⟩ := by
    unfold Workspace.refusal
    rw [hcopied]
    dsimp only [Workspace.bless]
    rw [withShard_self, withShard_self]
    dsimp only
    rw [hmanifest]
    exact if_pos (congrArg some hdigest)
  unfold Workspace.fresh
  rw [hrefusal, hcopied]
  dsimp only [Workspace.bless]
  rw [withShard_self, withShard_self, hlock]
  exact ⟨rfl, congrArg some htext⟩

theorem materialize_error {refusal : Refusal} (h : (w.materialize env).value = .error refusal) :
    ∃ refused, refusal = .uncarriable refused := by
  unfold Workspace.materialize Workspace.adopted at h
  split at h
  · dsimp only at h
    split at h
    · cases h
    · split at h
      · cases h
      · rename_i lock _ _
        rcases put_cases w env ⟨(w.shards env).state.solvedFrom, (w.shards env).state.solvedBy, lock.text,
          lock.base⟩ with ⟨refused, hput⟩ | hput
        · rw [hput] at h
          exact ⟨refused, (Except.error.inj h).symm⟩
        · rw [hput] at h
          cases h
  · cases h

theorem refusal_error {refusal : Refusal} (h : (w.refusal tool env).value = .error refusal) :
    ∃ refused, refusal = .uncarriable refused := by
  unfold Workspace.refusal at h
  dsimp only at h
  split at h
  · rename_i found hvalue
    obtain rfl : found = refusal := Except.error.inj h
    exact materialize_error hvalue
  · split at h
    · split at h <;> cases h
    · cases h

theorem refusal_unvouched {refusal : Refusal} (h : (w.refusal tool env).value = .ok (some refusal)) :
    ∃ current solvedFrom committed, refusal = .unvouched current solvedFrom committed := by
  unfold Workspace.refusal at h
  dsimp only at h
  split at h
  · cases h
  · split at h
    · split at h
      · cases h
      · exact ⟨_, _, _, (Option.some.inj (Except.ok.inj h)).symm⟩
    · cases h

/-- A call refused over its sources is one that solved, either asked to or on finding the lock stale. -/
theorem locked_mixed {policy : LockPolicy} {update : Option (List String)} {answer : Option String}
    {mixed : List String} (h : (w.locked tool env policy update answer).value = .error (.mixed mixed)) :
    (∃ names, update = some names) ∨
      update = none ∧ policy = .update ∧ (w.fresh tool env).value.toOption = some false ∧
        w.locked tool env policy update answer = (w.fresh tool env).workspace.solved tool env true true answer := by
  have hstanding : ∀ kept : Workspace, (kept.standing env).value ≠ .error (.mixed mixed) := fun kept hvalue => by
    unfold Workspace.standing at hvalue
    split at hvalue <;> cases hvalue
  cases update with
  | some names => exact Or.inl ⟨names, rfl⟩
  | none =>
      cases policy with
      | update =>
          refine Or.inr ⟨rfl, rfl, ?_⟩
          dsimp only [Workspace.locked] at h ⊢
          cases hfresh : (w.fresh tool env).value with
          | error refusal =>
              rw [hfresh] at h
              have hrefusal : (w.refusal tool env).value = .error refusal := by
                cases hvalue : (w.refusal tool env).value with
                | error other => rw [Workspace.fresh, hvalue] at hfresh; exact congrArg _ (Except.error.inj hfresh)
                | ok other => rw [Workspace.fresh, hvalue] at hfresh; cases hfresh
              obtain ⟨refused, rfl⟩ := refusal_error hrefusal
              cases h
          | ok answered =>
              rw [hfresh] at h
              cases answered with
              | true => exact absurd h (hstanding _)
              | false => exact ⟨rfl, rfl⟩
      | locked =>
          dsimp only [Workspace.locked] at h
          split at h
          · rename_i refusal hvouch
            dsimp only [Workspace.vouch] at hvouch
            cases hvalue : (w.refusal tool env).value with
            | error other =>
                rw [hvalue] at hvouch
                obtain ⟨refused, rfl⟩ := refusal_error hvalue
                obtain rfl : Refusal.uncarriable refused = refusal := Except.error.inj hvouch
                cases h
            | ok other =>
                rw [hvalue] at hvouch
                cases other with
                | none => cases hvouch
                | some found =>
                    obtain ⟨current, solvedFrom, committed, rfl⟩ := refusal_unvouched hvalue
                    obtain rfl : Refusal.unvouched current solvedFrom committed = refusal := Except.error.inj hvouch
                    cases h
          · exact absurd h (hstanding _)
      | frozen => exact absurd h (hstanding w)

/-- A call is refused over its sources only where its commit was. -/
theorem left_of_refuses {policy : LockPolicy} {update : Option (List String)} {answer : Option String}
    {mixed : List String} (h : (w.locked tool env policy update answer).value = .error (.mixed mixed)) :
    Left tool env (w.locked tool env policy update answer).workspace := by
  rcases locked_mixed h with ⟨names, rfl⟩ | ⟨-, -, -, hlocked⟩
  · exact left_of_solved h
  · rw [hlocked] at h ⊢
    exact left_of_solved h

theorem commit_mixed_iff (freed : Bool) :
    (∃ mixed, (w.commit tool env freed).value = .error (.mixed mixed)) ↔ Unsettled tool w env := by
  unfold Workspace.commit Workspace.put
  dsimp only
  constructor
  · rintro ⟨mixed, h⟩
    split at h
    · rename_i compiled lock hmanifest hlock
      refine ⟨compiled, lock, hmanifest, hlock, ?_⟩
      split at h
      · rename_i refused hvalue
        split at hvalue
        · obtain rfl : _ = refused := Except.error.inj hvalue
          cases h
        · cases hvalue
      · rename_i hvalue
        split at hvalue
        · cases hvalue
        · rename_i hnone
          rw [hnone] at h
          refine ⟨fun entry hmem => ?_, fun hsettled => ?_⟩
          · simpa using List.find?_eq_none.mp hnone entry hmem
          · dsimp only at h
            rw [hsettled] at h
            cases h
    · cases h
  · rintro ⟨compiled, lock, hmanifest, hlock, hcarried, hmixed⟩
    rw [hmanifest, hlock]
    dsimp only
    rw [List.find?_eq_none.mpr fun entry hmem => by simp [hcarried entry hmem]]
    dsimp only
    cases hvalue : mixedSources tool (put w.committed env ⟨tool.digest compiled w.metadata, tool.version, lock.text,
      lock.base⟩) with
    | nil => exact absurd hvalue hmixed
    | cons package rest => exact ⟨_, rfl⟩

theorem solved_mixed_iff {full freed : Bool} {answer : Option String} :
    (∃ mixed, (w.solved tool env full freed answer).value = .error (.mixed mixed)) ↔
      ∃ text, answer = some text ∧ Unsettled tool (w.answered env full text) env := by
  cases answer with
  | none =>
      refine ⟨?_, ?_⟩
      · rintro ⟨mixed, h⟩
        cases h
      · rintro ⟨text, h, -⟩
        cases h
  | some text =>
      have hvalue : (w.solved tool env full freed (some text)).value =
          ((w.answered env full text).commit tool env freed).value.map fun _ => true := rfl
      rw [hvalue]
      refine ⟨?_, ?_⟩
      · rintro ⟨mixed, h⟩
        refine ⟨text, rfl, (commit_mixed_iff freed).mp ⟨mixed, ?_⟩⟩
        cases hcommit : ((w.answered env full text).commit tool env freed).value with
        | error refusal =>
            rw [hcommit] at h
            exact congrArg Except.error (Except.error.inj h)
        | ok value =>
            rw [hcommit] at h
            cases h
      · rintro ⟨answered, hanswered, h⟩
        obtain rfl := Option.some.inj hanswered
        obtain ⟨mixed, hmixed⟩ := (commit_mixed_iff freed).mpr h
        exact ⟨mixed, by rw [hmixed]; rfl⟩

theorem refuses_iff {label : Label} : Refuses tool w label ↔ Mixes tool w label := by
  cases label with
  | locked env policy update answer =>
      refine ⟨?_, ?_⟩
      · rintro ⟨mixed, h⟩
        rcases locked_mixed h with ⟨names, rfl⟩ | ⟨rfl, rfl, hstale, hlocked⟩
        · obtain ⟨text, rfl, hunsettled⟩ := solved_mixed_iff.mp ⟨mixed, h⟩
          exact hunsettled
        · rw [hlocked] at h
          obtain ⟨text, rfl, hunsettled⟩ := solved_mixed_iff.mp ⟨mixed, h⟩
          exact ⟨hstale, hunsettled⟩
      · intro h
        cases answer with
        | none => cases update <;> cases policy <;> exact h.elim
        | some text =>
            cases update with
            | some names => exact solved_mixed_iff.mpr ⟨text, rfl, h⟩
            | none =>
                cases policy with
                | update =>
                    obtain ⟨hstale, hunsettled⟩ := h
                    obtain ⟨mixed, hmixed⟩ := solved_mixed_iff.mpr ⟨text, rfl, hunsettled⟩
                    refine ⟨mixed, Eq.trans ?_ hmixed⟩
                    dsimp only [Workspace.locked]
                    cases hfresh : (w.fresh tool env).value with
                    | error refusal => rw [hfresh] at hstale; cases hstale
                    | ok answered =>
                        rw [hfresh] at hstale
                        obtain rfl : answered = false := Option.some.inj hstale
                        rfl
                | locked => exact h.elim
                | frozen => exact h.elim
  | _ => exact Iff.rfl

/-- Wherever a commit is refused over its sources, the lock refused is the next one found fresh. -/
theorem not_staysRefused {label : Label} (h : Refuses tool w label) : ¬ StaysRefused tool w label := by
  cases label with
  | locked env policy update answer =>
      obtain ⟨mixed, hvalue⟩ := h
      rintro ⟨-, -, hnever⟩
      have hleft := left_of_refuses hvalue
      obtain ⟨hfresh, htext⟩ := fresh_of_left hleft
      obtain ⟨_, lock, _, -, hlock, -⟩ := hleft.stands
      refine hnever lock.text (by rw [hlock]; rfl) [] (.fresh env) (fun _ hmem => (List.not_mem_nil hmem).elim)
        ⟨?_, rfl, ?_⟩
      · change ((((w.locked tool env policy update answer).workspace.fresh tool env).workspace.shards env).lock).map _ = _
        rw [htext, hlock]
        rfl
      · change (((w.locked tool env policy update answer).workspace.fresh tool env).value).toOption = _
        rw [hfresh]
        rfl
  | _ => exact h.elim

end Refusing

/-- A run keeps every refused solve out exactly where no solve in it mixes its sources: a refused one is always taken up
again. -/
theorem stays_refused_iff (tool : Tool) (w : Workspace) (labels : List Label) :
    Each (Workspace.step tool) (fun s label => Refuses tool s label → StaysRefused tool s label) w labels ↔
      Each (Workspace.step tool) (fun s label => ¬ Mixes tool s label) w labels :=
  each_congr fun _ _ => ⟨fun h hmixes => not_staysRefused (refuses_iff.mpr hmixes) (h (refuses_iff.mpr hmixes)),
    fun h hrefused => (h (refuses_iff.mp hrefused)).elim⟩

/-- What reads `taken` as an index's package and any other lock as the workspace's own. -/
def crossedTool : Tool where
  digest compiled _ := compiled.text
  version := "0.55.0"
  entries text := [(some (if text = "taken" then "https://index/mainboard.whl" else "./"), some "mainboard")]

/-- One environment committed that takes the package from an index, another compiled and not solved. -/
def crossed : Workspace where
  committed := [("default", ⟨"", "", "taken", none⟩)]
  shards _ := { manifest := some { text := "workspace" } }

theorem stays_refused_fails : ¬ ∀ (tool : Tool) (w : Workspace) (labels : List Label),
    Each (Workspace.step tool) (fun s label => Refuses tool s label → StaysRefused tool s label) w labels := by
  intro h
  have hrefused : Refuses crossedTool crossed (.locked "lean" .update (some []) (some "built")) :=
    ⟨["mainboard: `default` takes it from an index, `lean` from the workspace"], by decide +kernel⟩
  exact not_staysRefused hrefused ((h crossedTool crossed [.locked "lean" .update (some []) (some "built")]).1 hrefused)

end Mainboard.Compile
