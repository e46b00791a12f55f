import Mainboard.HeldReadings

/-! What a CANCELLED verdict on a held job promises. A fence and a stop take the entry's claim, so nobody starts
the job after them. A pass that finds the line over judges an entry nobody claimed CANCELLED and leaves it in the
inbox, unfenced: a server still at work then, or one that serves the line when it is opened again, starts it. -/

namespace Mainboard

/-- A server claimed a handle and did not yet look for its tombstone. -/
def ServerStage.Taken (handle : String) : ServerStage → Prop
  | .claimed entry => entry.handle = handle
  | _ => False

instance (handle : String) : (stage : ServerStage) → Decidable (stage.Taken handle)
  | .claimed _ => inferInstanceAs (Decidable (_ = _))
  | .idle | .listing | .scanning _ _ _ | .claiming _ | .running _ | .recording _ _ | .ended => .isFalse id

/-- An entry that a pass judges by the end of its line alone. -/
def Facts.Unclaimed (facts : Facts) (handle : String) : Prop :=
  facts.exits handle = none ∧ facts.claims handle = none ∧ facts.lineOver = true ∧ facts.queued handle = true

instance (facts : Facts) (handle : String) : Decidable (facts.Unclaimed handle) :=
  inferInstanceAs (Decidable (_ ∧ _))

namespace HeldLine

/-- The center gave CANCELLED to no job that was started. -/
def NeverRun (s : HeldLine) : Prop := ∀ handle ∈ s.cancelled, handle ∉ s.executed

instance (s : HeldLine) : Decidable s.NeverRun := inferInstanceAs (Decidable (∀ handle ∈ s.cancelled, _))

/-- A server may still start a job: no tombstone stops it, and it holds the claim or may yet make it. -/
def Startable (s : HeldLine) (handle : String) : Prop :=
  s.spool.cancel handle = false ∧ ∃ server ∈ s.servers,
    s.spool.claims handle = none ∧ server.stage.MayClaim handle ∨ server.stage.Taken handle

instance (s : HeldLine) (handle : String) : Decidable (s.Startable handle) :=
  inferInstanceAs (Decidable (_ ∧ ∃ server ∈ s.servers, _))

/-- A job was not started and none of the servers at work may start it. -/
def Barred (s : HeldLine) (handle : String) : Prop := handle ∉ s.executed ∧ ¬s.Startable handle

instance (s : HeldLine) (handle : String) : Decidable (s.Barred handle) := inferInstanceAs (Decidable (_ ∧ _))

/-- A pass judges an entry by the end of its line only where no server started the job or may start it, and a
server that finds its line open finds every cancelled entry claimed or tombstoned. -/
def Closed (s : HeldLine) : LineStep → Prop
  | .passMove index (.ask ended) =>
      ∀ pass ∈ s.passes[index]?, ∀ facts ∈ pass.stage.asked, ended ⊆ facts.owners pass.handles → s.Ended ended →
        ∀ handle ∈ pass.handles, facts.Unclaimed handle → s.Barred handle
  | .server index (.look clock) =>
      ∀ server ∈ s.servers[index]?, server.stage = .idle → server.finished clock s.spool = false →
        ∀ handle ∈ s.cancelled, s.spool.claims handle ≠ none ∨ s.spool.cancel handle = true
  | _ => True

instance (s : HeldLine) : (label : LineStep) → Decidable (s.Closed label)
  | .passMove _ (.ask _) => inferInstanceAs (Decidable (∀ pass ∈ s.passes[_]?, _))
  | .server _ (.look _) => inferInstanceAs (Decidable (∀ server ∈ s.servers[_]?, _))
  | .passMove _ (.read _) | .server _ .list | .server _ .check | .server _ (.choose _) | .server _ .claim
  | .server _ .begin | .server _ (.exit _) | .server _ (.finish _) | .server _ .record | .server _ .die
  | .put _ | .writeLine _ | .clearStop | .serve _ _ _ | .fence _ | .fenceMove _ _ | .stop | .stopMove _ _
  | .pass _ => .isTrue trivial

variable {s : HeldLine} {index : Nat} {handle : String}

/-- A tombstone and a claim that were not there later were not there before. -/
theorem Startable.clear {later : HeldLine} (h : later.Startable handle) (hgrows : s.spool.Grows later.spool) :
    s.spool.cancel handle = false := by
  refine Bool.eq_false_iff.mpr fun hcancel => ?_
  have hlater := hgrows.cancel handle hcancel
  rw [h.1] at hlater
  cases hlater

/-- Where no server moved, what may be started could be started before. -/
theorem Startable.before {later : HeldLine} (h : later.Startable handle) (hgrows : s.spool.Grows later.spool)
    (hservers : later.servers = s.servers) : s.Startable handle := by
  refine ⟨h.clear hgrows, ?_⟩
  obtain ⟨-, server, hserver, hstage⟩ := h
  refine ⟨server, hservers ▸ hserver, ?_⟩
  rcases hstage with ⟨hfree, hmay⟩ | htaken
  · exact .inl ⟨Spool.free_of_grows hgrows hfree, hmay⟩
  · exact .inr htaken

/-- A server's move lets no job be started that could not be before, unless it finds its line open. -/
theorem Startable.served {server : Server} (hserver : s.servers[index]? = some server) {move : ServerMove}
    {after : HeldLine} (hserves : Serves s index server move after) (h : after.Startable handle)
    (hopen : ∀ clock, move = .look clock → server.stage = .idle → server.finished clock s.spool = false →
      s.spool.claims handle ≠ none ∨ s.spool.cancel handle = true) : s.Startable handle := by
  have hgrows := (later_serves hserver hserves).spool
  have hclear := h.clear hgrows
  refine ⟨hclear, ?_⟩
  obtain ⟨-, other, hother, hstage⟩ := h
  have hold : other ∈ s.servers → ∃ server ∈ s.servers,
      s.spool.claims handle = none ∧ server.stage.MayClaim handle ∨ server.stage.Taken handle := by
    intro hmem
    refine ⟨other, hmem, ?_⟩
    rcases hstage with ⟨hfree, hmay⟩ | htaken
    · exact .inl ⟨Spool.free_of_grows hgrows hfree, hmay⟩
    · exact .inr htaken
  have hmine : server ∈ s.servers := List.mem_of_getElem? hserver
  cases hserves with
  | idle => exact hold hother
  | @looked clock hidle hlive =>
      rcases List.mem_or_eq_of_mem_set hother with hmem | rfl
      · exact hold hmem
      · rcases hstage with ⟨hfree, -⟩ | htaken
        · rcases hopen clock rfl hidle hlive with hclaimed | hcancel
          · exact absurd hfree hclaimed
          · rw [hclear] at hcancel
            cases hcancel
        · exact htaken.elim
  | @searched _ stage hentry hmay =>
      rcases List.mem_or_eq_of_mem_set hother with hmem | rfl
      · exact hold hmem
      · rcases hstage with ⟨hfree, hnext⟩ | htaken
        · exact ⟨server, hmine, .inl ⟨hfree, hmay handle hnext⟩⟩
        · cases stage with
          | claimed entry => cases hentry
          | _ => exact htaken.elim
  | @won entry hclaiming hfree =>
      rcases List.mem_or_eq_of_mem_set hother with hmem | rfl
      · exact hold hmem
      · rcases hstage with ⟨-, hmay⟩ | htaken
        · exact hmay.elim
        · obtain rfl : entry.handle = handle := htaken
          refine ⟨server, hmine, .inl ⟨hfree, ?_⟩⟩
          rw [hclaiming]
          rfl
  | exited => exact hold hother
  | _ =>
      rcases List.mem_or_eq_of_mem_set hother with hmem | rfl
      · exact hold hmem
      · rcases hstage with ⟨-, hmay⟩ | htaken
        · exact hmay.elim
        · exact htaken.elim

/-- A job that cannot be started stays so. -/
theorem Barred.steps (h : s.Barred handle) {label : LineStep} {after : HeldLine} (hsteps : Steps s label after)
    (hopen : ∀ index clock server, label = .server index (.look clock) → s.servers[index]? = some server →
      server.stage = .idle → server.finished clock s.spool = false →
      s.spool.claims handle ≠ none ∨ s.spool.cancel handle = true) : after.Barred handle := by
  obtain ⟨hrun, hstart⟩ := h
  have hgrows := (later_steps hsteps).spool
  cases hsteps with
  | serve alloc node ends hline =>
      refine ⟨hrun, fun hstartable => hstart ⟨hstartable.1, ?_⟩⟩
      obtain ⟨-, server, hserver, hstage⟩ := hstartable
      rcases List.mem_append.mp hserver with hold | hnew
      · exact ⟨server, hold, hstage⟩
      · rw [List.mem_singleton.mp hnew] at hstage
        rcases hstage with ⟨-, hmay⟩ | htaken
        · exact hmay.elim
        · exact htaken.elim
  | @server index server move _ hserver hserves =>
      refine ⟨?_, fun hstartable => hstart (hstartable.served hserver hserves fun clock hmove => ?_)⟩
      · cases hserves with
        | @began entry hstage hclear =>
            intro hexecuted
            rcases List.mem_cons.mp hexecuted with rfl | hold
            · refine hstart ⟨hclear, server, List.mem_of_getElem? hserver, .inr ?_⟩
              rw [hstage]
              rfl
            · exact hrun hold
        | _ => exact hrun
      · exact hopen index clock server (by rw [hmove]) hserver
  | fenceMove _ hfences =>
      cases hfences <;> exact ⟨hrun, fun hstartable => hstart (hstartable.before hgrows rfl)⟩
  | stopMove _ hstops =>
      cases hstops <;> exact ⟨hrun, fun hstartable => hstart (hstartable.before hgrows rfl)⟩
  | passMove _ hpasses =>
      cases hpasses <;> exact ⟨hrun, fun hstartable => hstart (hstartable.before hgrows rfl)⟩
  | _ => exact ⟨hrun, fun hstartable => hstart (hstartable.before hgrows rfl)⟩

/-- An entry a fence won is nobody's to start. -/
theorem Told.barred (h : Told s) (hwon : (handle, none) ∈ s.wins) (hclaimed : s.spool.claims handle ≠ none) :
    s.Barred handle := by
  refine ⟨h.won.not_executed hwon, fun hstartable => ?_⟩
  obtain ⟨-, server, hserver, hstage⟩ := hstartable
  rcases hstage with ⟨hfree, -⟩ | htaken
  · exact hclaimed hfree
  · obtain ⟨index, hat⟩ := List.getElem?_of_mem hserver
    cases hentry : server.stage with
    | claimed entry =>
        rw [hentry] at htaken
        obtain rfl : entry.handle = handle := htaken
        have hserver := h.won.entries index server hat entry (by rw [hentry]; rfl)
        cases h.won.winner_unique hwon hserver
    | _ =>
        rw [hentry] at htaken
        exact htaken.elim

/-- What the verdicts rest on: no job that was given CANCELLED can be started. -/
def Kept (s : HeldLine) : Prop := Told s ∧ ∀ handle ∈ s.cancelled, s.Barred handle

/-- The verdicts of a pass add no job to the cancelled ones that may be started. -/
theorem barred_answered (h : Told s) {pass : Pass} {facts : Facts} {ended : List String}
    (hpass : s.passes[index]? = some pass) (hstage : pass.stage = .asking facts)
    (hclosed : ∀ handle ∈ pass.handles, facts.Unclaimed handle → s.Barred handle)
    (hgiven : handle ∈ given .cancelled (pass.handles.map fun handle => facts.judge handle ended)) :
    s.Barred handle := by
  obtain ⟨hhandle, hjudged⟩ := mem_given.mp hgiven
  obtain ⟨hexit, ⟨claim, hclaim, hcancelled⟩ | ⟨hclaim, hover, hqueued⟩⟩ := Facts.judge_cancelled.mp hjudged
  · have hstands := (h.asking hpass hstage).1 handle claim hclaim
    refine h.barred (h.winner_none hstands hcancelled) ?_
    rw [hstands]
    exact Option.some_ne_none _
  · exact hclosed handle hhandle ⟨hexit, hclaim, hover, hqueued⟩

theorem Kept.steps (h : Kept s) {label : LineStep} (hclosed : s.Closed label) {after : HeldLine}
    (hsteps : Steps s label after) : Kept after := by
  obtain ⟨htold, hbarred⟩ := h
  have hafter : Told after := htold.steps hsteps
  have hold : ∀ handle ∈ s.cancelled, after.Barred handle := by
    intro handle hcancelled
    refine (hbarred handle hcancelled).steps hsteps fun index clock server hlabel hserver hidle hlive => ?_
    subst hlabel
    exact hclosed server hserver hidle hlive handle hcancelled
  refine ⟨hafter, fun handle hcancelled => ?_⟩
  cases hsteps with
  | server _ hserves => cases hserves <;> exact hold handle hcancelled
  | @fenceMove index fence ok after _ hfences =>
      cases hfences with
      | won hfree =>
          rcases List.mem_cons.mp hcancelled with rfl | hmem
          · refine hafter.barred List.mem_cons_self ?_
            show Function.update s.spool.claims fence.handle (some { cancelled := true }) fence.handle ≠ none
            rw [Function.update_self]
            exact Option.some_ne_none _
          · exact hold handle hmem
      | _ => exact hold handle hcancelled
  | stopMove _ hstops => cases hstops <;> exact hold handle hcancelled
  | @passMove index pass _ _ hpass hpasses =>
      cases hpasses with
      | @answered facts ended hstage hasked hended =>
          rcases List.mem_append.mp hcancelled with hnew | hmem
          · have hgiven : s.Barred handle := by
              refine barred_answered htold hpass hstage ?_ hnew
              exact hclosed pass hpass facts (PassStage.mem_asked.mpr hstage) hasked hended
            exact ⟨hgiven.1, fun hstartable => hgiven.2 (hstartable.before s.spool.grows_refl rfl)⟩
          · exact hold handle hmem
      | _ => exact hold handle hcancelled
  | _ => exact hold handle hcancelled

/-- In every run in which each entry a pass gives up on is nobody's to start by then, and is claimed or
tombstoned before a server finds its line open, no cancelled job runs: not after a fence, a stop, a deadline or a
reopening. -/
theorem cancelled_never_run (labels : List LineStep) (h : Runs.Each step Closed start labels) :
    Runs.Always step NeverRun start labels := by
  have hkept : Runs.Always step Kept start labels :=
    Runs.invariant_always (fun s label hs hclosed => hs.steps hclosed (steps_step s label))
      ⟨told_start, fun _ hcancelled => absurd hcancelled List.not_mem_nil⟩ h
  exact Runs.always_mono (fun s hs handle hcancelled => (hs.2 handle hcancelled).1) hkept

/-- An entry whose line ended, given up by a pass and then fenced, is not run by the line's next servers. -/
theorem cancelled_never_run_fenced : Runs.Always step NeverRun start
    [.put ⟨"h1", 60⟩, .writeLine ⟨1000⟩, .pass ["h1"], .passMove 0 (.read 2000), .passMove 0 (.read 0),
      .passMove 0 (.read 0), .passMove 0 (.read 0), .passMove 0 (.read 0), .passMove 0 (.read 0),
      .passMove 0 (.read 0), .passMove 0 (.ask []), .fence "h1", .fenceMove 0 true, .fenceMove 0 true,
      .fenceMove 0 true, .writeLine ⟨9000⟩, .clearStop, .serve "a1" "n1" 9000, .server 0 (.look 3000),
      .server 0 .list, .server 0 .check, .server 0 (.choose 3000)] :=
  cancelled_never_run _ (by decide +kernel)

/-- The same entry not fenced: the line is opened again, and its server starts the cancelled job. -/
theorem cancelled_never_run_fails_reopened : ¬Runs.Always step NeverRun start
    [.put ⟨"h1", 60⟩, .writeLine ⟨1000⟩, .pass ["h1"], .passMove 0 (.read 2000), .passMove 0 (.read 0),
      .passMove 0 (.read 0), .passMove 0 (.read 0), .passMove 0 (.read 0), .passMove 0 (.read 0),
      .passMove 0 (.read 0), .passMove 0 (.ask []), .writeLine ⟨9000⟩, .clearStop, .serve "a1" "n1" 9000,
      .server 0 (.look 3000), .server 0 .list, .server 0 .check, .server 0 .check, .server 0 (.choose 3000),
      .server 0 .claim, .server 0 .begin] := by
  intro halways
  have hnever := halways _ List.prefix_rfl
  revert hnever
  decide +kernel

end HeldLine

end Mainboard
