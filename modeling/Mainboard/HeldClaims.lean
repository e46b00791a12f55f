import Mainboard.HeldLine

/-! The claim and fence protocol of a held line. A claim is one link, so every handle has one winner, a server
or a fence, in every interleaving: that server alone starts the job, once, and a fenced or stopped entry is
never started. -/

namespace Mainboard

namespace HeldLine

/-- Each handle is claimed at most once and executed at most once; an entry a fence answered FENCED for, or
that a stop tombstoned, is never executed; and a stop tombstones no entry that a server claimed. -/
structure Exclusive (s : HeldLine) : Prop where
  claimed : (s.wins.map Prod.fst).Nodup
  executed : s.executed.Nodup
  fenced : ∀ handle ∈ s.fenced, handle ∉ s.executed
  stopped : ∀ handle ∈ s.stopped, handle ∉ s.executed ∧ ∀ index, (handle, some index) ∉ s.wins

/-- What the claims, the processes and what happened say of each other. -/
structure Won (s : HeldLine) : Prop where
  wins : (s.wins.map Prod.fst).Nodup
  free : ∀ handle, s.spool.claims handle = none → handle ∉ s.wins.map Prod.fst
  entries : ∀ (index : Nat) (server : Server), s.servers[index]? = some server →
    ∀ entry ∈ server.stage.entry, (entry.handle, some index) ∈ s.wins
  unstarted : ∀ (index : Nat) (server : Server) (entry : Submission), s.servers[index]? = some server →
    server.stage = .claimed entry → entry.handle ∉ s.executed
  once : s.executed.Nodup
  executed : ∀ handle ∈ s.executed, ∃ index, (handle, some index) ∈ s.wins
  fenced : ∀ handle ∈ s.fenced, (handle, none) ∈ s.wins
  stopped : ∀ handle ∈ s.stopped, (handle, none) ∈ s.wins
  marking : ∀ handle rest failed, .marking handle rest failed ∈ s.stops → (handle, none) ∈ s.wins

variable {s : HeldLine} {index : Nat}

/-- A handle has one winner. -/
theorem Won.winner_unique (h : Won s) {handle : String} {left right : Option Nat}
    (hleft : (handle, left) ∈ s.wins) (hright : (handle, right) ∈ s.wins) : left = right :=
  congrArg Prod.snd (List.inj_on_of_nodup_map h.wins hleft hright rfl)

/-- A free handle is won by a server or a fence. -/
theorem Won.win (h : Won s) {handle : String} (winner : Option Nat) (claim : Claim)
    (hfree : s.spool.claims handle = none) :
    Won { s with
      spool := { s.spool with claims := Function.update s.spool.claims handle (some claim) }
      wins := (handle, winner) :: s.wins } where
  wins := by
    rw [List.map_cons, List.nodup_cons]
    exact ⟨h.free handle hfree, h.wins⟩
  free other hother := by
    change Function.update s.spool.claims handle (some claim) other = none at hother
    rw [Function.update_apply] at hother
    split_ifs at hother with hne
    rw [List.map_cons, List.mem_cons, not_or]
    exact ⟨hne, h.free other hother⟩
  entries other server hserver entry hentry :=
    List.mem_cons_of_mem _ (h.entries other server hserver entry hentry)
  unstarted := h.unstarted
  once := h.once
  executed other hother := by
    obtain ⟨index, hwin⟩ := h.executed other hother
    exact ⟨index, List.mem_cons_of_mem _ hwin⟩
  fenced other hother := List.mem_cons_of_mem _ (h.fenced other hother)
  stopped other hother := List.mem_cons_of_mem _ (h.stopped other hother)
  marking other rest failed hmarking := List.mem_cons_of_mem _ (h.marking other rest failed hmarking)

/-- A server goes on holding no entry but one it won. -/
theorem Won.serverTo (h : Won s) {server : Server} (hserver : s.servers[index]? = some server)
    {stage : ServerStage} (hentry : ∀ entry ∈ stage.entry, (entry.handle, some index) ∈ s.wins)
    (hstart : ∀ entry, stage = .claimed entry → entry.handle ∉ s.executed) :
    Won (s.serverTo index server stage) where
  wins := h.wins
  free := h.free
  entries other next hnext entry hheld := by
    rw [getElem?_serverTo hserver] at hnext
    split_ifs at hnext with hsame
    · cases hnext
      subst hsame
      exact hentry entry hheld
    · exact h.entries other next hnext entry hheld
  unstarted other next entry hnext hclaimed := by
    rw [getElem?_serverTo hserver] at hnext
    split_ifs at hnext
    · cases hnext
      exact hstart entry hclaimed
    · exact h.unstarted other next entry hnext hclaimed
  once := h.once
  executed := h.executed
  fenced := h.fenced
  stopped := h.stopped
  marking := h.marking

/-- A stop goes on marking no entry but one it won. -/
theorem Won.stopTo (h : Won s) {stage : StopStage}
    (hmarking : ∀ handle rest failed, stage = .marking handle rest failed → (handle, none) ∈ s.wins) :
    Won (s.stopTo index stage) where
  wins := h.wins
  free := h.free
  entries := h.entries
  unstarted := h.unstarted
  once := h.once
  executed := h.executed
  fenced := h.fenced
  stopped := h.stopped
  marking handle rest failed hstage := by
    rcases List.mem_or_eq_of_mem_set hstage with hold | hnew
    · exact h.marking handle rest failed hold
    · exact hmarking handle rest failed hnew.symm

/-- What the spool says beside its claims is no part of the account. -/
theorem Won.spool (h : Won s) {spool : Spool} (hclaims : spool.claims = s.spool.claims) :
    Won { s with spool } where
  wins := h.wins
  free handle hfree := h.free handle (hclaims ▸ hfree)
  entries := h.entries
  unstarted := h.unstarted
  once := h.once
  executed := h.executed
  fenced := h.fenced
  stopped := h.stopped
  marking := h.marking

/-- The server that won a handle starts its job; no other holds it. -/
theorem Won.begin (h : Won s) {server : Server} (hserver : s.servers[index]? = some server)
    {entry : Submission} (hstage : server.stage = .claimed entry) :
    Won ({ s with executed := entry.handle :: s.executed }.serverTo index server (.running entry)) where
  wins := h.wins
  free := h.free
  entries other next hnext held hheld := by
    change (s.serverTo index server (.running entry)).servers[other]? = some next at hnext
    rw [getElem?_serverTo hserver] at hnext
    split_ifs at hnext with hsame
    · cases hnext
      subst hsame
      exact h.entries index server hserver held (hstage ▸ hheld)
    · exact h.entries other next hnext held hheld
  unstarted other next held hnext hclaimed := by
    change (s.serverTo index server (.running entry)).servers[other]? = some next at hnext
    rw [getElem?_serverTo hserver] at hnext
    split_ifs at hnext with hsame
    · cases hnext
      cases hclaimed
    · intro hexecuted
      have hhandle := (List.mem_cons.mp hexecuted).resolve_right (h.unstarted other next held hnext hclaimed)
      have hwon := h.entries other next hnext held (by rw [hclaimed]; rfl)
      have hmine := h.entries index server hserver entry (by rw [hstage]; rfl)
      rw [hhandle] at hwon
      exact hsame (Option.some.inj (h.winner_unique hmine hwon))
  once := List.nodup_cons.mpr ⟨h.unstarted index server entry hserver hstage, h.once⟩
  executed handle hhandle := by
    rcases List.mem_cons.mp hhandle with rfl | hold
    · exact ⟨index, h.entries index server hserver entry (by rw [hstage]; rfl)⟩
    · exact h.executed handle hold
  fenced := h.fenced
  stopped := h.stopped
  marking := h.marking

theorem Won.serves (h : Won s) {server : Server} (hserver : s.servers[index]? = some server)
    {move : ServerMove} {after : HeldLine} (hserves : Serves s index server move after) : Won after := by
  have hheld := h.entries index server hserver
  cases hserves with
  | idle => exact h
  | looked => exact h.serverTo hserver nofun nofun
  | searched hentry hmay =>
      refine h.serverTo hserver (fun entry hmem => ?_) fun entry hclaimed => ?_
      · rw [hentry] at hmem
        cases hmem
      · rw [hclaimed] at hentry
        cases hentry
  | @won entry hstage hfree =>
      have hstart : entry.handle ∉ s.executed := by
        intro hexecuted
        obtain ⟨winner, hwin⟩ := h.executed _ hexecuted
        exact h.free _ hfree (List.mem_map_of_mem hwin)
      refine (h.win (some index) _ hfree).serverTo hserver (fun other hother => ?_) fun other hother => ?_
      · cases hother
        exact List.mem_cons_self
      · cases hother
        exact hstart
  | tombstoned hstage =>
      rw [hstage] at hheld
      exact h.serverTo hserver hheld nofun
  | began hstage hclear => exact h.begin hserver hstage
  | exited => exact h.spool rfl
  | finished hstage =>
      rw [hstage] at hheld
      exact h.serverTo hserver hheld nofun
  | recorded => exact (h.spool (claims_record _ _ _)).serverTo hserver nofun nofun

theorem Won.fences (h : Won s) {fence : FenceRun} {ok : Bool} {after : HeldLine}
    (hfences : Fences s index fence ok after) : Won after := by
  cases hfences with
  | moved stage => exact { h with }
  | idle => exact h
  | tombstoned => exact { h with }
  | won hfree =>
      have hwon := h.win none { cancelled := true } hfree
      refine { hwon with fenced := ?_ }
      intro handle hhandle
      rcases List.mem_cons.mp hhandle with rfl | hold
      · exact List.mem_cons_self
      · exact hwon.fenced handle hold

theorem Won.stops (h : Won s) {stage : StopStage} (hstage : s.stops[index]? = some stage) {ok : Bool}
    {after : HeldLine} (hstops : Stops s index stage ok after) : Won after := by
  cases hstops with
  | idle => exact h
  | marked =>
      have hmarked : Won { s with spool := { s.spool with stop := true } } := h.spool rfl
      exact hmarked.stopTo nofun
  | moved hnext => exact h.stopTo fun handle rest failed hmarking => absurd hmarking (hnext handle rest failed)
  | won hfree =>
      refine (h.win none { cancelled := true } hfree).stopTo fun handle rest failed hmarking => ?_
      cases hmarking
      exact List.mem_cons_self
  | @tombstoned handle rest failed =>
      have hwon := h.marking handle rest failed (List.mem_of_getElem? hstage)
      have hstopped : ∀ other ∈ handle :: s.stopped, (other, none) ∈ s.wins := by
        intro other hother
        rcases List.mem_cons.mp hother with rfl | hold
        · exact hwon
        · exact h.stopped other hold
      have hmarked : Won { s with spool := s.spool.tombstone handle, stopped := handle :: s.stopped } :=
        { h with stopped := hstopped }
      exact hmarked.stopTo nofun

theorem Won.passes (h : Won s) {pass : Pass} {move : PassMove} {after : HeldLine}
    (hpasses : Passes s index pass move after) : Won after := by
  cases hpasses <;> exact { h with }

theorem Won.serve (h : Won s) (server : Server) (hentry : server.stage.entry = none) :
    Won { s with servers := s.servers ++ [server] } where
  wins := h.wins
  free := h.free
  entries index other hother entry hheld := by
    rcases getElem?_serve hother with hold | hnew
    · exact h.entries index other hold entry hheld
    · subst hnew
      rw [hentry] at hheld
      cases hheld
  unstarted index other entry hother hclaimed := by
    rcases getElem?_serve hother with hold | hnew
    · exact h.unstarted index other entry hold hclaimed
    · subst hnew
      rw [hclaimed] at hentry
      cases hentry
  once := h.once
  executed := h.executed
  fenced := h.fenced
  stopped := h.stopped
  marking := h.marking

theorem Won.steps (h : Won s) {label : LineStep} {after : HeldLine} (hsteps : Steps s label after) :
    Won after := by
  cases hsteps with
  | idle => exact h
  | put entry => exact h.spool (claims_put _ _)
  | writeLine => exact h.spool rfl
  | clearStop => exact h.spool rfl
  | serve alloc node ends hline => exact h.serve _ rfl
  | server hserver hserves => exact h.serves hserver hserves
  | fence => exact { h with }
  | fenceMove _ hfences => exact h.fences hfences
  | stop =>
      refine { h with marking := ?_ }
      intro handle rest failed hmarking
      rcases List.mem_append.mp hmarking with hold | hnew
      · exact h.marking handle rest failed hold
      · cases List.mem_singleton.mp hnew
  | stopMove hstage hstops => exact h.stops hstage hstops
  | pass => exact { h with }
  | passMove _ hpasses => exact h.passes hpasses

theorem won_step (s : HeldLine) (label : LineStep) (h : Won s) : Won (s.step label) :=
  h.steps (steps_step s label)

theorem won_start : Won start where
  wins := List.nodup_nil
  free _ _ := List.not_mem_nil
  entries index server hserver := by simp [start] at hserver
  unstarted index server entry hserver := by simp [start] at hserver
  once := List.nodup_nil
  executed _ hexecuted := absurd hexecuted List.not_mem_nil
  fenced _ hfenced := absurd hfenced List.not_mem_nil
  stopped _ hstopped := absurd hstopped List.not_mem_nil
  marking _ _ _ hmarking := absurd hmarking List.not_mem_nil

/-- What a fence won no server did, so its job is never started. -/
theorem Won.not_executed (h : Won s) {handle : String} (hwon : (handle, none) ∈ s.wins) :
    handle ∉ s.executed := by
  intro hexecuted
  obtain ⟨index, hserver⟩ := h.executed handle hexecuted
  cases h.winner_unique hwon hserver

theorem exclusive_of_won (h : Won s) : Exclusive s where
  claimed := h.wins
  executed := h.once
  fenced handle hfenced := h.not_executed (h.fenced handle hfenced)
  stopped handle hstopped := by
    refine ⟨h.not_executed (h.stopped handle hstopped), fun index hserver => ?_⟩
    cases h.winner_unique (h.stopped handle hstopped) hserver

/-- In every interleaving of puts, servers, fences, stops, reopenings and passes, with processes that die or
fail to write anywhere, each handle has one winner and at most one start, which no fence and no stop that
answered for it permits, and a stop tombstones nothing a server claimed. -/
theorem claims_exclusive (labels : List LineStep) : Runs.Always step Exclusive start labels :=
  fun taken _ => exclusive_of_won (Runs.invariant_reached won_step won_start taken)

end HeldLine

end Mainboard
