import Mainboard.HeldReadings

/-! What a VANISHED verdict on a held job promises. A pass reads a job's exit artifact and its claim, and asks
after that whether the allocation that claimed it ended. A job that ends in between leaves an artifact the pass
does not look for again, so the verdict is right exactly when no artifact was written since the pass read. -/

namespace Mainboard

namespace HeldLine

/-- No job the center gave VANISHED for left an exit artifact. -/
def Unrecorded (s : HeldLine) : Prop := ∀ handle ∈ s.vanished, s.spool.exits handle = none

instance (s : HeldLine) : Decidable s.Unrecorded := inferInstanceAs (Decidable (∀ handle ∈ s.vanished, _))

/-- A pass finds a claim's allocation ended only where no exit artifact came since it looked for one. -/
def Unchanged (s : HeldLine) : LineStep → Prop
  | .passMove index (.ask ended) =>
      ∀ pass ∈ s.passes[index]?, ∀ facts ∈ pass.stage.asked, ended ⊆ facts.owners pass.handles → s.Ended ended →
        ∀ handle ∈ pass.handles, facts.exits handle = none → ∀ claim ∈ facts.claims handle,
          claim.cancelled = false → claim.alloc ∈ ended → s.spool.exits handle = none
  | _ => True

variable {s : HeldLine} {index : Nat} {handle : String}

/-- The moves that leave an exit artifact: the runner's own, and its server's record. -/
def Recording : LineStep → Prop
  | .server _ (.exit _) | .server _ .record => True
  | _ => False

/-- No other move leaves one. -/
theorem exits_step (s : HeldLine) {label : LineStep} (hquiet : ¬Recording label) :
    (s.step label).spool.exits = s.spool.exits := by
  have hsteps := steps_step s label
  generalize s.step label = after at hsteps
  cases hsteps with
  | put entry => exact exits_put s.spool entry
  | server _ hserves =>
      cases hserves with
      | exited => exact absurd trivial hquiet
      | recorded => exact absurd trivial hquiet
      | _ => rfl
  | fenceMove _ hfences => cases hfences <;> rfl
  | stopMove _ hstops => cases hstops <;> rfl
  | passMove _ hpasses => cases hpasses <;> rfl
  | _ => rfl

theorem exits_run {labels : List LineStep} (hquiet : ∀ label ∈ labels, ¬Recording label) :
    (Runs.run step s labels).spool.exits = s.spool.exits := by
  induction labels generalizing s with
  | nil => rfl
  | cons label labels ih =>
      rw [Runs.run_cons, ih fun other hother => hquiet other (List.mem_cons_of_mem _ hother)]
      exact exits_step s (hquiet label List.mem_cons_self)

/-- A pass judges by what still stands when no move between its reading and its asking left an artifact. -/
theorem unchanged_of_quiet {labels : List LineStep} (hquiet : ∀ label ∈ labels, ¬Recording label)
    (hread : ∀ pass ∈ (Runs.run step s labels).passes[index]?, ∀ facts ∈ pass.stage.asked,
      ∀ handle ∈ pass.handles, facts.exits handle = none → s.spool.exits handle = none)
    (ended : List String) : (Runs.run step s labels).Unchanged (.passMove index (.ask ended)) := by
  intro pass hpass facts hfacts _ _ handle hhandle hexit _ _ _ _
  rw [exits_run hquiet]
  exact hread pass hpass facts hfacts handle hhandle hexit

/-- No server has a job in its hands that it could still leave an artifact of. -/
def Dropped (s : HeldLine) (handle : String) : Prop :=
  ∀ server ∈ s.servers, ∀ entry ∈ server.stage.entry, entry.handle ≠ handle

/-- A job that left no artifact, is claimed and is in nobody's hands. -/
structure Lost (s : HeldLine) (handle : String) : Prop where
  exits : s.spool.exits handle = none
  claimed : s.spool.claims handle ≠ none
  dropped : s.Dropped handle

/-- Another job's artifact is not its own. -/
theorem exits_exit {spool : Spool} {other : String} {status : Int} (h : other ≠ handle) :
    (spool.exit other status).exits handle = spool.exits handle :=
  Function.update_of_ne h.symm _ _

theorem exits_record {spool : Spool} {other : String} {status : Int} (h : other ≠ handle) :
    (spool.record other status).exits handle = spool.exits handle := by
  unfold Spool.record
  split
  · exact exits_exit h
  · rfl

/-- A server takes no job into its hands but one it claims. -/
theorem Dropped.serverTo (h : s.Dropped handle) {server : Server} {stage : ServerStage}
    (hentry : ∀ entry ∈ stage.entry, entry.handle ≠ handle) :
    (s.serverTo index server stage).Dropped handle := by
  intro other hother entry hheld
  rcases List.mem_or_eq_of_mem_set hother with hold | hnew
  · exact h other hold entry hheld
  · subst hnew
    exact hentry entry hheld

/-- What a server does leaves a lost job alone: it has another job in its hands. -/
theorem Lost.serves (h : s.Lost handle) {server : Server} (hserver : s.servers[index]? = some server)
    {move : ServerMove} {after : HeldLine} (hserves : Serves s index server move after) :
    after.spool.exits handle = none ∧ after.Dropped handle := by
  obtain ⟨hexits, hclaimed, hdropped⟩ := h
  have hmine := hdropped server (List.mem_of_getElem? hserver)
  cases hserves with
  | idle => exact ⟨hexits, hdropped⟩
  | looked => exact ⟨hexits, hdropped.serverTo nofun⟩
  | searched hentry =>
      refine ⟨hexits, hdropped.serverTo fun entry hheld => ?_⟩
      rw [hentry] at hheld
      cases hheld
  | @won entry hstage hfree =>
      refine ⟨hexits, Dropped.serverTo hdropped fun other hother => ?_⟩
      cases hother
      intro hsame
      exact hclaimed (hsame ▸ hfree)
  | tombstoned hstage | finished hstage =>
      rw [hstage] at hmine
      exact ⟨hexits, hdropped.serverTo hmine⟩
  | began hstage =>
      rw [hstage] at hmine
      exact ⟨hexits, Dropped.serverTo hdropped hmine⟩
  | @exited entry status hstage =>
      rw [hstage] at hmine
      exact ⟨(exits_exit (hmine entry rfl)).trans hexits, hdropped⟩
  | @recorded entry status hstage =>
      rw [hstage] at hmine
      exact ⟨(exits_record (hmine entry rfl)).trans hexits, Dropped.serverTo hdropped nofun⟩

/-- A lost job stays lost: what leaves an artifact has the job in its hands, and only a new claim takes it. -/
theorem Lost.steps (h : s.Lost handle) {label : LineStep} {after : HeldLine} (hsteps : Steps s label after) :
    after.Lost handle := by
  have hclaimed : after.spool.claims handle ≠ none :=
    fun hfree => h.claimed (Spool.free_of_grows (later_steps hsteps).spool hfree)
  have hmoved : after.spool.exits handle = none ∧ after.Dropped handle := by
    have hexits := h.exits
    have hdropped := h.dropped
    cases hsteps with
    | put entry =>
        refine ⟨?_, hdropped⟩
        rw [exits_put]
        exact hexits
    | serve alloc node ends hline =>
        refine ⟨hexits, fun server hserver entry hheld => ?_⟩
        rcases List.mem_append.mp hserver with hold | hnew
        · exact hdropped server hold entry hheld
        · rw [List.mem_singleton.mp hnew] at hheld
          cases hheld
    | server hserver hserves => exact h.serves hserver hserves
    | fenceMove _ hfences => cases hfences <;> exact ⟨hexits, hdropped⟩
    | stopMove _ hstops => cases hstops <;> exact ⟨hexits, hdropped⟩
    | passMove _ hpasses => cases hpasses <;> exact ⟨hexits, hdropped⟩
    | _ => exact ⟨hexits, hdropped⟩
  exact ⟨hmoved.1, hclaimed, hmoved.2⟩

/-- A job claimed by an allocation that ended is in nobody's hands: its claim names the one server that took
it. -/
theorem Told.dropped (h : Told s) {claim : Claim} (hclaim : s.spool.claims handle = some claim)
    {ended : List String} (hended : s.Ended ended) (halloc : claim.alloc ∈ ended) : s.Dropped handle := by
  intro server hmem entry hheld hhandle
  obtain ⟨index, hat⟩ := List.getElem?_of_mem hmem
  have hmine := h.won.entries index server hat entry hheld
  rw [hhandle] at hmine
  obtain ⟨winner, hwin, howner⟩ := h.owned handle claim hclaim
  obtain rfl : some index = winner := h.won.winner_unique hmine hwin
  have hsame : server.alloc = claim.alloc := by
    have halloc := howner.2
    rw [List.getElem?_map, hat] at halloc
    exact Option.some.inj halloc
  rw [hended claim.alloc halloc server hmem hsame] at hheld
  cases hheld

/-- A pass gives VANISHED only on the claim of an allocation that ended: the entry was published, so it is never
without a spool record. -/
theorem mem_vanished (h : Told s) {pass : Pass} {facts : Facts} (hpass : s.passes[index]? = some pass)
    (hstage : pass.stage = .asking facts) {ended : List String} :
    handle ∈ given .vanished (pass.handles.map fun name => facts.judge name ended) ↔
      handle ∈ pass.handles ∧ facts.exits handle = none ∧
        ∃ claim ∈ facts.claims handle, claim.cancelled = false ∧ claim.alloc ∈ ended := by
  rw [mem_given, Facts.judge_vanished]
  refine and_congr_right fun hhandle => and_congr_right fun _ => ?_
  constructor
  · rintro (hclaimed | ⟨-, hqueued⟩)
    · exact hclaimed
    · rw [(h.asking hpass hstage).2 handle hhandle] at hqueued
      cases hqueued
  · exact .inl

/-- What the verdicts rest on: every job that was given VANISHED is lost. -/
def Gone (s : HeldLine) : Prop := Told s ∧ ∀ handle ∈ s.vanished, s.Lost handle

theorem Gone.steps (h : Gone s) {label : LineStep} (hunchanged : s.Unchanged label) {after : HeldLine}
    (hsteps : Steps s label after) : Gone after := by
  obtain ⟨htold, hlost⟩ := h
  have hafter : Told after := htold.steps hsteps
  have hold : ∀ handle ∈ s.vanished, after.Lost handle := fun handle hmem => (hlost handle hmem).steps hsteps
  refine ⟨hafter, fun handle hvanished => ?_⟩
  cases hsteps with
  | server _ hserves => cases hserves <;> exact hold handle hvanished
  | fenceMove _ hfences => cases hfences <;> exact hold handle hvanished
  | stopMove _ hstops => cases hstops <;> exact hold handle hvanished
  | @passMove index pass _ _ hpass hpasses =>
      cases hpasses with
      | @answered facts ended hstage hasked hended =>
          rcases List.mem_append.mp hvanished with hnew | hmem
          · obtain ⟨hhandle, hexit, claim, hclaim, hserver, halloc⟩ := (mem_vanished htold hpass hstage).mp hnew
            have hstands := (htold.asking hpass hstage).1 handle claim hclaim
            have hnone : s.spool.exits handle = none :=
              hunchanged pass hpass facts (PassStage.mem_asked.mpr hstage) hasked hended handle hhandle hexit
                claim hclaim hserver halloc
            refine ⟨hnone, ?_, htold.dropped hstands hended halloc⟩
            show s.spool.claims handle ≠ none
            rw [hstands]
            exact Option.some_ne_none _
          · exact hold handle hmem
      | _ => exact hold handle hvanished
  | _ => exact hold handle hvanished

theorem gone_start : Gone start := ⟨told_start, fun _ hvanished => absurd hvanished List.not_mem_nil⟩

/-- A pass that finds an artifact it did not read gives the job VANISHED all the same. -/
theorem unchanged_of_unrecorded (h : Told s) {label : LineStep} (hafter : (s.step label).Unrecorded) :
    s.Unchanged label := by
  cases label with
  | passMove index move =>
      cases move with
      | read clock => trivial
      | ask ended =>
          intro pass hpass facts hfacts hasked hended handle hhandle hexit claim hclaim hserver halloc
          have hstage := PassStage.mem_asked.mp hfacts
          have hpass' : s.passes[index]? = some pass := hpass
          have hgiven := (mem_vanished h hpass' hstage).mpr ⟨hhandle, hexit, claim, hclaim, hserver, halloc⟩
          simp only [step, hpass', passing, hstage, if_pos (And.intro hasked hended)] at hafter
          exact hafter handle (List.mem_append_left _ hgiven)
  | server index move => trivial
  | _ => trivial

/-- Under every interleaving of the node's steps with center passes, no job that leaves an exit artifact is
given VANISHED exactly when every pass that finds a claim's allocation ended finds no artifact written since it
read. -/
theorem vanished_unrecorded_iff (labels : List LineStep) :
    Runs.Always step Unrecorded start labels ↔ Runs.Each step Unchanged start labels := by
  constructor
  · exact Runs.each_of_always (fun s label hs => hs.steps (steps_step s label))
      (fun s label hs hafter => unchanged_of_unrecorded hs hafter) told_start
  · intro hunchanged
    have hgone : Runs.Always step Gone start labels :=
      Runs.invariant_always (fun s label hs hlabel => hs.steps hlabel (steps_step s label)) gone_start hunchanged
    exact Runs.always_mono (fun s hs handle hvanished => (hs.2 handle hvanished).exits) hgone

/-- A pass reads a running job's row; the job leaves its artifact and its allocation ends; PBS says so, and the
pass gives VANISHED. -/
theorem vanished_unrecorded_fails_ended : ¬Runs.Always step Unrecorded start
    [.put ⟨"h1", 60⟩, .writeLine ⟨9000⟩, .serve "a1" "n1" 9000, .server 0 (.look 100), .server 0 .list,
      .server 0 .check, .server 0 .check, .server 0 (.choose 100), .server 0 .claim, .server 0 .begin,
      .pass ["h1"], .passMove 0 (.read 110), .passMove 0 (.read 0), .passMove 0 (.read 0), .passMove 0 (.read 0),
      .passMove 0 (.read 0), .passMove 0 (.read 0), .passMove 0 (.read 0), .server 0 (.exit 0),
      .server 0 (.finish 0), .server 0 .record, .server 0 (.look 8900), .passMove 0 (.ask ["a1"])] := by
  intro halways
  have hunrecorded := halways _ List.prefix_rfl
  revert hunrecorded
  decide +kernel

end HeldLine

end Mainboard
