import Mainboard.HeldClaims

/-! What a center's pass knows of the spool when it judges. The spool only grows, so a claim and an entry that
a pass read are still there whatever happened since; what it did not find may have come meanwhile. -/

namespace Mainboard

namespace Spool

/-- Nothing removes or replaces a claim, a tombstone or an inbox entry. -/
structure Grows (spool later : Spool) : Prop where
  claims : ∀ handle claim, spool.claims handle = some claim → later.claims handle = some claim
  cancel : ∀ handle, spool.cancel handle = true → later.cancel handle = true
  inbox : spool.inbox ⊆ later.inbox

variable (spool : Spool)

theorem grows_refl : spool.Grows spool := ⟨fun _ _ h => h, fun _ h => h, List.Subset.refl _⟩

theorem grows_put (entry : Submission) : spool.Grows (spool.put entry) := by
  unfold put
  split_ifs
  · exact spool.grows_refl
  · exact ⟨fun _ _ h => h, fun _ h => h, List.subset_append_left _ _⟩

theorem grows_record (handle : String) (status : Int) : spool.Grows (spool.record handle status) := by
  unfold record
  split
  · exact ⟨fun _ _ h => h, fun _ h => h, List.Subset.refl _⟩
  · exact spool.grows_refl

theorem grows_tombstone (handle : String) : spool.Grows (spool.tombstone handle) where
  claims _ _ h := h
  cancel other h := by
    show Function.update spool.cancel handle true other = true
    rw [Function.update_apply]
    split_ifs
    · rfl
    · exact h
  inbox := List.Subset.refl _

variable {spool}

/-- A claim is made only where there is none. -/
theorem grows_claims {handle : String} (hfree : spool.claims handle = none) (claim : Claim) :
    spool.Grows { spool with claims := Function.update spool.claims handle (some claim) } where
  claims other old h := by
    show Function.update spool.claims handle (some claim) other = some old
    have hne : other ≠ handle := by
      intro hsame
      rw [hsame, hfree] at h
      cases h
    rw [Function.update_of_ne hne, h]
  cancel _ h := h
  inbox := List.Subset.refl _

/-- What nobody claimed later nobody had claimed before. -/
theorem free_of_grows {later : Spool} {handle : String} (hgrows : spool.Grows later)
    (hfree : later.claims handle = none) :
    spool.claims handle = none := by
  cases hclaim : spool.claims handle with
  | none => rfl
  | some claim =>
      rw [hgrows.claims handle claim hclaim] at hfree
      cases hfree

end Spool

/-- The facts of a pass that has only its verdicts left to give. -/
def PassStage.asked : PassStage → Option Facts
  | .asking facts => some facts
  | _ => none

theorem PassStage.mem_asked {stage : PassStage} {facts : Facts} :
    facts ∈ stage.asked ↔ stage = .asking facts := by
  constructor
  · intro hasked
    cases stage with
    | asking other =>
        cases hasked
        rfl
    | _ => cases hasked
  · rintro rfl
    rfl

namespace HeldLine

/-- What a state keeps of an earlier one: its files, its winners and its allocations in their order. -/
structure Later (s later : HeldLine) : Prop where
  spool : s.spool.Grows later.spool
  wins : s.wins ⊆ later.wins
  allocs : s.servers.map (·.alloc) <+: later.servers.map (·.alloc)

variable {s : HeldLine} {index : Nat}

theorem later_refl (s : HeldLine) : Later s s := ⟨s.spool.grows_refl, List.Subset.refl _, List.prefix_rfl⟩

/-- Another stage of a server is no loss. -/
theorem Later.serverTo {later : HeldLine} (h : Later s later) {server : Server} {stage : ServerStage}
    (hserver : later.servers[index]? = some server) : Later s (later.serverTo index server stage) where
  spool := h.spool
  wins := h.wins
  allocs := by
    rw [allocs_serverTo hserver]
    exact h.allocs

theorem later_serves {server : Server} (hserver : s.servers[index]? = some server) {move : ServerMove}
    {after : HeldLine} (h : Serves s index server move after) : Later s after := by
  have hkeep : Later s s := later_refl s
  cases h with
  | idle => exact hkeep
  | looked => exact hkeep.serverTo hserver
  | searched => exact hkeep.serverTo hserver
  | @won entry _ hfree =>
      have hwon : Later s { s with
          spool := { s.spool with
            claims := Function.update s.spool.claims entry.handle
              (some { alloc := server.alloc, node := server.node }) }
          wins := (entry.handle, some index) :: s.wins } :=
        ⟨Spool.grows_claims hfree _, List.subset_cons_self _ _, hkeep.allocs⟩
      exact hwon.serverTo hserver
  | tombstoned => exact hkeep.serverTo hserver
  | @began entry =>
      have hbegun : Later s { s with executed := entry.handle :: s.executed } :=
        ⟨hkeep.spool, hkeep.wins, hkeep.allocs⟩
      exact hbegun.serverTo hserver
  | exited => exact ⟨⟨fun _ _ h => h, fun _ h => h, List.Subset.refl _⟩, hkeep.wins, hkeep.allocs⟩
  | finished => exact hkeep.serverTo hserver
  | @recorded entry status =>
      have hrecorded : Later s { s with spool := s.spool.record entry.handle status } :=
        ⟨s.spool.grows_record _ _, hkeep.wins, hkeep.allocs⟩
      exact hrecorded.serverTo hserver

theorem later_fences {fence : FenceRun} {ok : Bool} {after : HeldLine} (h : Fences s index fence ok after) :
    Later s after := by
  have hkeep : Later s s := later_refl s
  cases h with
  | moved => exact ⟨hkeep.spool, hkeep.wins, hkeep.allocs⟩
  | idle => exact hkeep
  | tombstoned => exact ⟨s.spool.grows_tombstone _, hkeep.wins, hkeep.allocs⟩
  | won hfree => exact ⟨Spool.grows_claims hfree _, List.subset_cons_self _ _, hkeep.allocs⟩

theorem later_stops {stage : StopStage} {ok : Bool} {after : HeldLine} (h : Stops s index stage ok after) :
    Later s after := by
  have hkeep : Later s s := later_refl s
  cases h with
  | idle => exact hkeep
  | marked => exact ⟨⟨fun _ _ h => h, fun _ h => h, List.Subset.refl _⟩, hkeep.wins, hkeep.allocs⟩
  | moved => exact ⟨hkeep.spool, hkeep.wins, hkeep.allocs⟩
  | won hfree => exact ⟨Spool.grows_claims hfree _, List.subset_cons_self _ _, hkeep.allocs⟩
  | tombstoned => exact ⟨s.spool.grows_tombstone _, hkeep.wins, hkeep.allocs⟩

theorem later_passes {pass : Pass} {move : PassMove} {after : HeldLine} (h : Passes s index pass move after) :
    Later s after := by
  have hkeep : Later s s := later_refl s
  cases h <;> exact ⟨hkeep.spool, hkeep.wins, hkeep.allocs⟩

theorem later_steps {label : LineStep} {after : HeldLine} (h : Steps s label after) : Later s after := by
  have hkeep : Later s s := later_refl s
  cases h with
  | idle => exact hkeep
  | put entry => exact ⟨s.spool.grows_put entry, hkeep.wins, hkeep.allocs⟩
  | writeLine => exact ⟨⟨fun _ _ h => h, fun _ h => h, List.Subset.refl _⟩, hkeep.wins, hkeep.allocs⟩
  | clearStop => exact ⟨⟨fun _ _ h => h, fun _ h => h, List.Subset.refl _⟩, hkeep.wins, hkeep.allocs⟩
  | serve =>
      refine ⟨hkeep.spool, hkeep.wins, ?_⟩
      rw [List.map_append]
      exact List.prefix_append _ _
  | server hserver hserves => exact later_serves hserver hserves
  | fence => exact ⟨hkeep.spool, hkeep.wins, hkeep.allocs⟩
  | fenceMove _ hfences => exact later_fences hfences
  | stop => exact ⟨hkeep.spool, hkeep.wins, hkeep.allocs⟩
  | stopMove _ hstops => exact later_stops hstops
  | pass => exact ⟨hkeep.spool, hkeep.wins, hkeep.allocs⟩
  | passMove _ hpasses => exact later_passes hpasses

section Owners

/-- Who a claim says it is held by: a fence, or the server with the allocation it names. -/
def Owner (s : HeldLine) (claim : Claim) : Option Nat → Prop
  | none => claim.cancelled = true
  | some index => claim.cancelled = false ∧ (s.servers.map (·.alloc))[index]? = some claim.alloc

/-- A claim on the spool is its winner's. -/
def Owned (s : HeldLine) (handle : String) (claim : Claim) : Prop :=
  ∃ winner, (handle, winner) ∈ s.wins ∧ s.Owner claim winner

theorem Owned.later {later : HeldLine} {handle : String} {claim : Claim} (h : Owned s handle claim)
    (hlater : Later s later) : Owned later handle claim := by
  obtain ⟨winner, hwin, howner⟩ := h
  refine ⟨winner, hlater.wins hwin, ?_⟩
  cases winner with
  | none => exact howner
  | some index =>
      obtain ⟨hserver, halloc⟩ := howner
      obtain ⟨more, hmore⟩ := hlater.allocs
      refine ⟨hserver, ?_⟩
      rw [← hmore, List.getElem?_append_left (List.getElem?_eq_some_iff.mp halloc).1, halloc]

/-- A claim that is made is its maker's, the others stay. -/
theorem owned_update {handle other : String} {claim made : Claim} {claims : String → Option Claim}
    (h : Function.update claims handle (some made) other = some claim) {winner : Option Nat}
    (hwin : (handle, winner) ∈ s.wins) (howner : s.Owner made winner) :
    claims other = some claim ∨ Owned s other claim := by
  rw [Function.update_apply] at h
  split_ifs at h with hsame
  · cases h
    subst hsame
    exact .inr ⟨winner, hwin, howner⟩
  · exact .inl h

/-- A claim found after a step was there before it, or the step's winner made it. -/
theorem claims_steps {label : LineStep} {after : HeldLine} (hsteps : Steps s label after) {handle : String}
    {claim : Claim} (h : after.spool.claims handle = some claim) :
    s.spool.claims handle = some claim ∨ Owned after handle claim := by
  cases hsteps with
  | put entry =>
      rw [claims_put] at h
      exact .inl h
  | @server index server _ _ hserver hserves =>
      cases hserves with
      | @won entry hstage hfree =>
          refine owned_update h List.mem_cons_self ⟨rfl, ?_⟩
          show ((s.serverTo index server (.claimed entry)).servers.map (·.alloc))[index]? = some server.alloc
          rw [allocs_serverTo hserver, List.getElem?_map, hserver]
          rfl
      | recorded =>
          rw [serverTo, claims_record] at h
          exact .inl h
      | _ => exact .inl h
  | fenceMove hfence hfences =>
      cases hfences with
      | won hfree => exact owned_update h List.mem_cons_self rfl
      | _ => exact .inl h
  | stopMove hstage hstops =>
      cases hstops with
      | won hfree => exact owned_update h List.mem_cons_self rfl
      | _ => exact .inl h
  | passMove hpass hpasses => cases hpasses <;> exact .inl h
  | _ => exact .inl h

end Owners

section Readings

/-- The claims a pass saw are the ones that stand. -/
def Seen (spool : Spool) (facts : Facts) : Prop :=
  ∀ handle claim, facts.claims handle = some claim → spool.claims handle = some claim

/-- What the facts of a pass's stage tell: besides the claims it saw, every handle it is through with was found
in the inbox. -/
def Tells (spool : Spool) (handles : List String) : PassStage → Prop
  | .rows facts rest _ =>
      Seen spool facts ∧ rest ⊆ handles ∧ ∀ handle ∈ handles, handle ∈ rest ∨ facts.queued handle = true
  | .asking facts => Seen spool facts ∧ ∀ handle ∈ handles, facts.queued handle = true
  | .clock | .line _ | .stop _ _ | .answered _ => True

/-- The entries a pass asks about were published, and its facts tell what the spool holds of them. -/
def Reads (spool : Spool) (pass : Pass) : Prop :=
  pass.handles ⊆ spool.inbox.map (·.handle) ∧ Tells spool pass.handles pass.stage

theorem Seen.grows {spool later : Spool} {facts : Facts} (h : Seen spool facts) (hgrows : spool.Grows later) :
    Seen later facts := fun handle claim hclaim => hgrows.claims handle claim (h handle claim hclaim)

theorem Tells.grows {spool later : Spool} {handles : List String} {stage : PassStage}
    (h : Tells spool handles stage) (hgrows : spool.Grows later) : Tells later handles stage := by
  cases stage with
  | rows facts rest tag => exact ⟨h.1.grows hgrows, h.2⟩
  | asking facts => exact ⟨h.1.grows hgrows, h.2⟩
  | _ => trivial

theorem Reads.grows {spool later : Spool} {pass : Pass} (h : Reads spool pass) (hgrows : spool.Grows later) :
    Reads later pass := ⟨List.Subset.trans h.1 (List.map_subset _ hgrows.inbox), h.2.grows hgrows⟩

/-- A move of the pass reads no more than what the spool says. -/
theorem tells_passes {pass : Pass} {move : PassMove} {after : HeldLine} (h : Reads s.spool pass)
    (hpasses : Passes s index pass move after) :
    ∀ other ∈ after.passes, other ∈ s.passes ∨ Reads s.spool other := by
  obtain ⟨hpublished, htells⟩ := h
  have hset : ∀ stage, Tells s.spool pass.handles stage →
      ∀ other ∈ (s.passTo index pass stage).passes, other ∈ s.passes ∨ Reads s.spool other := by
    intro stage hstage other hother
    rcases List.mem_or_eq_of_mem_set hother with hold | rfl
    · exact .inl hold
    · exact .inr ⟨hpublished, hstage⟩
  cases hpasses with
  | idle => exact fun other hother => .inl hother
  | clock => exact hset _ trivial
  | line => exact hset _ trivial
  | stop => exact hset _ ⟨nofun, List.Subset.refl _, fun handle hhandle => .inl hhandle⟩
  | exit hstage =>
      rw [hstage] at htells
      exact hset _ htells
  | @claim _ facts handle rest hstage =>
      rw [hstage] at htells
      refine hset _ ⟨fun other claim hclaim => ?_, htells.2⟩
      change Function.update facts.claims handle (s.spool.claims handle) other = some claim at hclaim
      rw [Function.update_apply] at hclaim
      split_ifs at hclaim with hsame
      · rw [hsame, hclaim]
      · exact htells.1 other claim hclaim
  | @queued _ facts handle rest hstage =>
      rw [hstage] at htells
      obtain ⟨hseen, hrest, hthrough⟩ := htells
      refine hset _ ⟨hseen, fun other hother => hrest (List.mem_cons_of_mem _ hother), fun other hother => ?_⟩
      show other ∈ rest ∨ Function.update facts.queued handle _ other = true
      rw [Function.update_apply]
      split_ifs with hsame
      · right
        exact decide_eq_true (hpublished (hrest List.mem_cons_self))
      · rcases hthrough other hother with hlater | hqueued
        · exact .inl ((List.mem_cons.mp hlater).resolve_left hsame)
        · exact .inr hqueued
  | rows hstage =>
      rw [hstage] at htells
      obtain ⟨hseen, -, hthrough⟩ := htells
      exact hset _ ⟨hseen, fun handle hhandle => (hthrough handle hhandle).resolve_left List.not_mem_nil⟩
  | answered => exact hset _ trivial

end Readings

/-- The handles a pass gives a verdict to are among those it asks about. -/
theorem mem_given {verdict : Word} {facts : Facts} {handles ended : List String} {handle : String} :
    handle ∈ given verdict (handles.map fun name => facts.judge name ended) ↔
      handle ∈ handles ∧ (facts.judge handle ended).verdict = verdict := by
  simp only [given, List.mem_map, List.mem_filter, decide_eq_true_eq]
  constructor
  · rintro ⟨state, ⟨⟨name, hname, rfl⟩, hverdict⟩, hhandle⟩
    rw [Facts.judge_handle] at hhandle
    subst hhandle
    exact ⟨hname, hverdict⟩
  · intro ⟨hhandle, hverdict⟩
    exact ⟨_, ⟨⟨handle, hhandle, rfl⟩, hverdict⟩, Facts.judge_handle⟩

/-- What holds of the claims and of every reading of them. -/
structure Told (s : HeldLine) : Prop where
  won : Won s
  owned : ∀ handle claim, s.spool.claims handle = some claim → Owned s handle claim
  reads : ∀ pass ∈ s.passes, Reads s.spool pass

theorem Told.steps (h : Told s) {label : LineStep} {after : HeldLine} (hsteps : Steps s label after) :
    Told after where
  won := h.won.steps hsteps
  owned handle claim hclaim := by
    rcases claims_steps hsteps hclaim with hold | hnew
    · exact (h.owned handle claim hold).later (later_steps hsteps)
    · exact hnew
  reads pass hpass := by
    have hgrows : s.spool.Grows after.spool := (later_steps hsteps).spool
    have hkeep : pass ∈ s.passes ∨ Reads s.spool pass := by
      cases hsteps with
      | server _ hserves => cases hserves <;> exact .inl hpass
      | fenceMove _ hfences => cases hfences <;> exact .inl hpass
      | stopMove _ hstops => cases hstops <;> exact .inl hpass
      | pass hpublished =>
          rcases List.mem_append.mp hpass with hold | hnew
          · exact .inl hold
          · rw [List.mem_singleton.mp hnew]
            exact .inr ⟨hpublished, trivial⟩
      | passMove hat hpasses =>
          exact tells_passes (h.reads _ (List.mem_of_getElem? hat)) hpasses pass hpass
      | _ => exact .inl hpass
    rcases hkeep with hold | hread
    · exact (h.reads pass hold).grows hgrows
    · exact hread.grows hgrows

theorem told_start : Told start where
  won := won_start
  owned _ _ hclaim := absurd hclaim (Option.not_mem_none _)
  reads _ hpass := absurd hpass List.not_mem_nil

/-- When a pass judges, the claims it saw stand and its entries were all queued. -/
theorem Told.asking (h : Told s) {pass : Pass} {facts : Facts} (hpass : s.passes[index]? = some pass)
    (hstage : pass.stage = .asking facts) :
    Seen s.spool facts ∧ ∀ handle ∈ pass.handles, facts.queued handle = true := by
  have htells := (h.reads pass (List.mem_of_getElem? hpass)).2
  rw [hstage] at htells
  exact htells

/-- An entry on which a fence's claim stands is no server's. -/
theorem Told.winner_none (h : Told s) {handle : String} {claim : Claim}
    (hclaim : s.spool.claims handle = some claim) (hcancelled : claim.cancelled = true) :
    (handle, none) ∈ s.wins := by
  obtain ⟨winner, hwin, howner⟩ := h.owned handle claim hclaim
  cases winner with
  | none => exact hwin
  | some index => rw [howner.1] at hcancelled; cases hcancelled

end HeldLine

end Mainboard
