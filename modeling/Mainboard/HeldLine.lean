import Mainboard.HeldSpool
import Mainboard.Runs

/-! A held line under every interleaving of puts, servers, fences, stops, reopenings and center passes. Each
process makes one access to the spool at a time; a server dies with its allocation wherever it stands, and
a shell of the center may be killed or fail to write anywhere. Clock readings are the reader's own. -/

namespace Mainboard

/-- Where a server's loop stands. `queued` first lists the inbox and then tests each entry for a claim and
for a tombstone (`unclaimed` between the two). -/
inductive ServerStage
  | idle
  | listing
  | scanning (rest waiting : List Submission) (unclaimed : Bool)
  | claiming (entry : Submission)
  | claimed (entry : Submission)
  | running (entry : Submission)
  | recording (entry : Submission) (status : Int)
  | ended
  deriving DecidableEq, Repr

/-- One allocation's worth of a line; `line` is the line as the server read it when it started. -/
structure Server where
  alloc : String
  node : String
  ends : Int
  line : LineSpec
  stage : ServerStage
  deriving DecidableEq, Repr

inductive FenceStage
  | testing
  | marking
  | linking
  | answered (word : Fence)
  | failed
  deriving DecidableEq, Repr

structure FenceRun where
  handle : String
  stage : FenceStage
  deriving DecidableEq, Repr

/-- Where a stop stands: the marker, then every listed entry fenced and, when that won, tombstoned. -/
inductive StopStage
  | starting
  | listing
  | fencing (rest : List String) (failed : Bool)
  | marking (handle : String) (rest : List String) (failed : Bool)
  | done (failed : Bool)
  deriving DecidableEq, Repr

/-- The fact about a handle a pass reads next. -/
inductive Tag
  | exit
  | claim
  | queued
  deriving DecidableEq, Repr

/-- Where a center's pass stands: the line's facts, each handle's rows, then the allocations. -/
inductive PassStage
  | clock
  | line (now : Int)
  | stop (now : Int) (line : Option LineSpec)
  | rows (facts : Facts) (rest : List String) (tag : Tag)
  | asking (facts : Facts)
  | answered (states : List JobState)

structure Pass where
  handles : List String
  stage : PassStage

/-- The spool, the processes on it, and what happened: who won each claim (a server, or a fence), each start
of a job, each entry fenced or tombstoned by a stop, and each CANCELLED and VANISHED given. -/
structure HeldLine where
  spool : Spool
  servers : List Server
  fences : List FenceRun
  stops : List StopStage
  passes : List Pass
  wins : List (String × Option Nat)
  executed : List String
  fenced : List String
  stopped : List String
  cancelled : List String
  vanished : List String

/-- `exit` is the runner's own artifact, `finish` the end of the job's process. -/
inductive ServerMove
  | look (clock : Int)
  | list
  | check
  | choose (clock : Int)
  | claim
  | begin
  | exit (status : Int)
  | finish (status : Int)
  | record
  | die
  deriving DecidableEq, Repr

inductive PassMove
  | read (clock : Int)
  | ask (ended : List String)
  deriving DecidableEq, Repr

/-- `ok` says whether what the shell writes next could be written. -/
inductive LineStep
  | put (entry : Submission)
  | writeLine (line : LineSpec)
  | clearStop
  | serve (alloc node : String) (ends : Int)
  | server (index : Nat) (move : ServerMove)
  | fence (handle : String)
  | fenceMove (index : Nat) (ok : Bool)
  | stop
  | stopMove (index : Nat) (ok : Bool)
  | pass (handles : List String)
  | passMove (index : Nat) (move : PassMove)
  deriving DecidableEq, Repr

/-- What a terminated runner records. -/
def terminated : Int := 143

/-- The handles some states give a verdict to. -/
def given (verdict : Word) (states : List JobState) : List String :=
  (states.filter fun state => state.verdict = verdict).map (·.handle)

namespace ServerStage

/-- The entry a server holds: claimed by it and not yet recorded. -/
def entry : ServerStage → Option Submission
  | .claimed entry | .running entry | .recording entry _ => some entry
  | _ => none

/-- A server may still claim a handle before it looks at the line again. -/
def MayClaim (handle : String) : ServerStage → Prop
  | .listing => True
  | .scanning rest waiting _ => handle ∈ (rest ++ waiting).map (·.handle)
  | .claiming entry => entry.handle = handle
  | _ => False

instance (handle : String) : (stage : ServerStage) → Decidable (stage.MayClaim handle)
  | .listing => .isTrue trivial
  | .scanning _ _ _ => inferInstanceAs (Decidable (_ ∈ _))
  | .claiming _ => inferInstanceAs (Decidable (_ = _))
  | .idle | .claimed _ | .running _ | .recording _ _ | .ended => .isFalse id

end ServerStage

namespace Server

variable (server : Server) (clock : Int)

/-- Seconds left before the allocation or the line's deadline, whichever comes first. -/
def usable : Int := min server.ends server.line.deadline - clock

/-- Nothing more may start: released, or no job could fit with its grace. -/
def finished (spool : Spool) : Bool := spool.stop ∨ server.usable clock ≤ LineSpec.grace

end Server

namespace HeldLine

variable (s : HeldLine)

/-- A server stands at another stage. -/
def serverTo (index : Nat) (server : Server) (stage : ServerStage) : HeldLine :=
  { s with servers := s.servers.set index { server with stage } }

def fenceTo (index : Nat) (fence : FenceRun) (stage : FenceStage) : HeldLine :=
  { s with fences := s.fences.set index { fence with stage } }

def stopTo (index : Nat) (stage : StopStage) : HeldLine := { s with stops := s.stops.set index stage }

def passTo (index : Nat) (pass : Pass) (stage : PassStage) : HeldLine :=
  { s with passes := s.passes.set index { pass with stage } }

/-- One move of the server at `index`. -/
def served (index : Nat) (server : Server) (move : ServerMove) : HeldLine :=
  match move, server.stage with
  | .look clock, .idle =>
      if server.finished clock s.spool then s.serverTo index server .ended else s.serverTo index server .listing
  | .list, .listing => s.serverTo index server (.scanning s.spool.listed [] false)
  | .check, .scanning (entry :: rest) waiting false =>
      if (s.spool.claims entry.handle).isSome then s.serverTo index server (.scanning rest waiting false)
      else s.serverTo index server (.scanning (entry :: rest) waiting true)
  | .check, .scanning (entry :: rest) waiting true =>
      if s.spool.cancel entry.handle then s.serverTo index server (.scanning rest waiting false)
      else s.serverTo index server (.scanning rest (waiting ++ [entry]) false)
  | .choose clock, .scanning [] waiting _ =>
      match waiting.find? fun entry => entry.fits (server.usable clock) with
      | some entry => s.serverTo index server (.claiming entry)
      | none => s.serverTo index server .idle
  | .claim, .claiming entry =>
      match s.spool.claim entry.handle { alloc := server.alloc, node := server.node } with
      | some spool =>
          { s with spool, wins := (entry.handle, some index) :: s.wins }.serverTo index server (.claimed entry)
      | none => s.serverTo index server .idle
  | .begin, .claimed entry =>
      if s.spool.cancel entry.handle then s.serverTo index server (.recording entry terminated)
      else { s with executed := entry.handle :: s.executed }.serverTo index server (.running entry)
  | .exit status, .running entry => { s with spool := s.spool.exit entry.handle status }
  | .finish status, .running entry => s.serverTo index server (.recording entry status)
  | .record, .recording entry status =>
      { s with spool := s.spool.record entry.handle status }.serverTo index server .idle
  | .die, _ => s.serverTo index server .ended
  | _, _ => s

/-- One move of the fence at `index`. -/
def fencing (index : Nat) (fence : FenceRun) (ok : Bool) : HeldLine :=
  match fence.stage with
  | .testing =>
      if (s.spool.exits fence.handle).isSome then s.fenceTo index fence (.answered .exited)
      else s.fenceTo index fence .marking
  | .marking =>
      if ok then { s with spool := s.spool.tombstone fence.handle }.fenceTo index fence .linking
      else s.fenceTo index fence .failed
  | .linking =>
      if ok then
        match s.spool.claim fence.handle { cancelled := true } with
        | some spool =>
            { s with
              spool
              wins := (fence.handle, none) :: s.wins
              fenced := fence.handle :: s.fenced
              cancelled := fence.handle :: s.cancelled }.fenceTo index fence (.answered .fenced)
        | none => s.fenceTo index fence (.answered .claimed)
      else s.fenceTo index fence .failed
  | .answered _ | .failed => s

/-- One move of the stop at `index`. -/
def stopping (index : Nat) (stage : StopStage) (ok : Bool) : HeldLine :=
  match stage with
  | .starting =>
      if ok then { s with spool := { s.spool with stop := true } }.stopTo index .listing
      else s.stopTo index (.done true)
  | .listing =>
      if ok then s.stopTo index (.fencing (s.spool.inbox.map (·.handle)) false) else s.stopTo index (.done true)
  | .fencing [] failed => s.stopTo index (.done failed)
  | .fencing (handle :: rest) failed =>
      if ok then
        match s.spool.claim handle { cancelled := true } with
        | some spool =>
            { s with spool, wins := (handle, none) :: s.wins }.stopTo index (.marking handle rest failed)
        | none => s.stopTo index (.fencing rest failed)
      else s.stopTo index (.fencing rest true)
  | .marking handle rest failed =>
      if ok then
        { s with
          spool := s.spool.tombstone handle
          stopped := handle :: s.stopped }.stopTo index (.fencing rest failed)
      else s.stopTo index (.fencing rest true)
  | .done _ => s

/-- PBS reports an allocation ended only once it has. -/
def Ended (ended : List String) : Prop :=
  ∀ alloc ∈ ended, ∀ server ∈ s.servers, server.alloc = alloc → server.stage = .ended

instance (ended : List String) : Decidable (s.Ended ended) :=
  inferInstanceAs (Decidable (∀ alloc ∈ ended, ∀ server ∈ s.servers, _ → _))

/-- One move of the center's pass at `index`. -/
def passing (index : Nat) (pass : Pass) (move : PassMove) : HeldLine :=
  match move, pass.stage with
  | .read clock, .clock => s.passTo index pass (.line clock)
  | .read _, .line now => s.passTo index pass (.stop now s.spool.line)
  | .read _, .stop now line =>
      s.passTo index pass
        (.rows ⟨now, line, s.spool.stop, fun _ => none, fun _ => none, fun _ => false⟩ pass.handles .exit)
  | .read _, .rows facts (handle :: rest) .exit =>
      let exits := Function.update facts.exits handle (s.spool.exits handle)
      s.passTo index pass (.rows { facts with exits } (handle :: rest) .claim)
  | .read _, .rows facts (handle :: rest) .claim =>
      let claims := Function.update facts.claims handle (s.spool.claims handle)
      s.passTo index pass (.rows { facts with claims } (handle :: rest) .queued)
  | .read _, .rows facts (handle :: rest) .queued =>
      let queued := Function.update facts.queued handle (handle ∈ s.spool.inbox.map (·.handle))
      s.passTo index pass (.rows { facts with queued } rest .exit)
  | .read _, .rows facts [] _ => s.passTo index pass (.asking facts)
  | .ask ended, .asking facts =>
      if ended ⊆ facts.owners pass.handles ∧ s.Ended ended then
        let states := pass.handles.map fun handle => facts.judge handle ended
        { s with
          cancelled := given .cancelled states ++ s.cancelled
          vanished := given .vanished states ++ s.vanished }.passTo index pass (.answered states)
      else s
  | _, _ => s

/-- One step of the system; a step that is not enabled changes nothing. A line that is opened again is
written first and its stop marker cleared after; a pass asks for handles whose entries are published. -/
def step (s : HeldLine) : LineStep → HeldLine
  | .put entry => { s with spool := s.spool.put entry }
  | .writeLine line => { s with spool := { s.spool with line := some line } }
  | .clearStop => { s with spool := { s.spool with stop := false } }
  | .serve alloc node ends =>
      match s.spool.line with
      | some line => { s with servers := s.servers ++ [⟨alloc, node, ends, line, .idle⟩] }
      | none => s
  | .server index move =>
      match s.servers[index]? with
      | some server => s.served index server move
      | none => s
  | .fence handle => { s with fences := s.fences ++ [⟨handle, .testing⟩] }
  | .fenceMove index ok =>
      match s.fences[index]? with
      | some fence => s.fencing index fence ok
      | none => s
  | .stop => { s with stops := s.stops ++ [.starting] }
  | .stopMove index ok =>
      match s.stops[index]? with
      | some stage => s.stopping index stage ok
      | none => s
  | .pass handles =>
      if handles ⊆ s.spool.inbox.map (·.handle) then { s with passes := s.passes ++ [⟨handles, .clock⟩] } else s
  | .passMove index move =>
      match s.passes[index]? with
      | some pass => s.passing index pass move
      | none => s

/-- An empty spool, nobody at work. -/
def start : HeldLine where
  spool := ⟨[], fun _ => none, fun _ => false, fun _ => none, none, false⟩
  servers := []
  fences := []
  stops := []
  passes := []
  wins := []
  executed := []
  fenced := []
  stopped := []
  cancelled := []
  vanished := []

section Access

variable {s} {index : Nat}

/-- Another stage of one server leaves the others where they stand. -/
theorem getElem?_serverTo {server : Server} {stage : ServerStage} (h : s.servers[index]? = some server)
    (other : Nat) : (s.serverTo index server stage).servers[other]? =
      if index = other then some { server with stage } else s.servers[other]? := by
  obtain ⟨hlt, -⟩ := List.getElem?_eq_some_iff.mp h
  rw [serverTo, List.getElem?_set, if_pos hlt]

/-- A server that starts comes after the others. -/
theorem getElem?_serve {server other : Server} (h : (s.servers ++ [server])[index]? = some other) :
    s.servers[index]? = some other ∨ other = server := by
  rw [List.getElem?_append] at h
  split_ifs at h
  · exact .inl h
  · exact .inr (List.mem_singleton.mp (List.mem_of_getElem? h))

/-- A server keeps its allocation from stage to stage. -/
theorem allocs_serverTo {server : Server} {stage : ServerStage} (h : s.servers[index]? = some server) :
    (s.serverTo index server stage).servers.map (·.alloc) = s.servers.map (·.alloc) := by
  apply List.ext_getElem?
  intro other
  rw [List.getElem?_map, List.getElem?_map, getElem?_serverTo h]
  split_ifs with hsame
  · subst hsame
    rw [h]
    rfl
  · rfl

@[simp] theorem claims_record (spool : Spool) (handle : String) (status : Int) :
    (spool.record handle status).claims = spool.claims := by
  unfold Spool.record
  split <;> rfl

@[simp] theorem claims_put (spool : Spool) (entry : Submission) :
    (spool.put entry).claims = spool.claims := by
  unfold Spool.put
  split_ifs <;> rfl

@[simp] theorem exits_put (spool : Spool) (entry : Submission) :
    (spool.put entry).exits = spool.exits := by
  unfold Spool.put
  split_ifs <;> rfl

end Access

section Moves

variable {s}

/-- What a move of the server at `index` comes to. A search move makes or keeps no claim and widens no
search. -/
inductive Serves (s : HeldLine) (index : Nat) (server : Server) : ServerMove → HeldLine → Prop
  | idle (move : ServerMove) : Serves s index server move s
  | looked {clock : Int} (hstage : server.stage = .idle) (hopen : server.finished clock s.spool = false) :
      Serves s index server (.look clock) (s.serverTo index server .listing)
  | searched {move : ServerMove} {stage : ServerStage} (hentry : stage.entry = none)
      (hmay : ∀ handle, stage.MayClaim handle → server.stage.MayClaim handle) :
      Serves s index server move (s.serverTo index server stage)
  | won {entry : Submission} (hstage : server.stage = .claiming entry)
      (hfree : s.spool.claims entry.handle = none) :
      Serves s index server .claim
        ({ s with
          spool := { s.spool with
            claims := Function.update s.spool.claims entry.handle
              (some { alloc := server.alloc, node := server.node }) }
          wins := (entry.handle, some index) :: s.wins }.serverTo index server (.claimed entry))
  | tombstoned {entry : Submission} (hstage : server.stage = .claimed entry) :
      Serves s index server .begin (s.serverTo index server (.recording entry terminated))
  | began {entry : Submission} (hstage : server.stage = .claimed entry)
      (hclear : s.spool.cancel entry.handle = false) :
      Serves s index server .begin
        ({ s with executed := entry.handle :: s.executed }.serverTo index server (.running entry))
  | exited {entry : Submission} {status : Int} (hstage : server.stage = .running entry) :
      Serves s index server (.exit status) { s with spool := s.spool.exit entry.handle status }
  | finished {entry : Submission} {status : Int} (hstage : server.stage = .running entry) :
      Serves s index server (.finish status) (s.serverTo index server (.recording entry status))
  | recorded {entry : Submission} {status : Int} (hstage : server.stage = .recording entry status) :
      Serves s index server .record
        ({ s with spool := s.spool.record entry.handle status }.serverTo index server .idle)

theorem serves_served (s : HeldLine) (index : Nat) (server : Server) (move : ServerMove) :
    Serves s index server move (s.served index server move) := by
  unfold served
  split
  next clock hstage =>
      split_ifs with hfinished
      · exact .searched rfl fun _ hmay => hmay.elim
      · exact .looked hstage (Bool.eq_false_iff.mpr hfinished)
  next hstage =>
      refine .searched rfl fun handle _ => ?_
      rw [hstage]
      trivial
  next entry rest waiting hstage =>
      split_ifs
      · refine .searched rfl fun handle hmay => ?_
        rw [hstage]
        exact List.mem_cons_of_mem _ hmay
      · refine .searched rfl fun handle hmay => ?_
        rw [hstage]
        exact hmay
  next entry rest waiting hstage =>
      split_ifs
      · refine .searched rfl fun handle hmay => ?_
        rw [hstage]
        exact List.mem_cons_of_mem _ hmay
      · refine .searched rfl fun handle hmay => ?_
        rw [hstage]
        simp only [ServerStage.MayClaim, List.map_append, List.mem_append, List.map_cons, List.map_nil,
          List.mem_cons, List.cons_append] at hmay ⊢
        tauto
  next clock waiting unclaimed hstage =>
      split
      next entry hfound =>
          refine .searched rfl fun handle hmay => ?_
          obtain rfl : entry.handle = handle := hmay
          rw [hstage]
          exact List.mem_map_of_mem (List.mem_of_find?_eq_some hfound)
      next => exact .searched rfl fun _ hmay => hmay.elim
  next entry hstage =>
      unfold Spool.claim
      cases hclaim : s.spool.claims entry.handle with
      | none => exact .won hstage hclaim
      | some claim => exact .searched rfl fun _ hmay => hmay.elim
  next entry hstage =>
      split_ifs with hcancel
      · exact .tombstoned hstage
      · exact .began hstage (Bool.eq_false_iff.mpr hcancel)
  next status entry hstage => exact .exited hstage
  next status entry hstage => exact .finished hstage
  next entry status hstage => exact .recorded hstage
  · exact .searched rfl fun _ hmay => hmay.elim
  · exact .idle _

/-- What a move of a fence comes to. -/
inductive Fences (s : HeldLine) (index : Nat) (fence : FenceRun) : Bool → HeldLine → Prop
  | moved {ok : Bool} (stage : FenceStage) : Fences s index fence ok (s.fenceTo index fence stage)
  | idle (ok : Bool) : Fences s index fence ok s
  | tombstoned : Fences s index fence true
      ({ s with spool := s.spool.tombstone fence.handle }.fenceTo index fence .linking)
  | won (hfree : s.spool.claims fence.handle = none) : Fences s index fence true
      ({ s with
        spool := { s.spool with
          claims := Function.update s.spool.claims fence.handle (some { cancelled := true }) }
        wins := (fence.handle, none) :: s.wins
        fenced := fence.handle :: s.fenced
        cancelled := fence.handle :: s.cancelled }.fenceTo index fence (.answered .fenced))

theorem fences_fencing (s : HeldLine) (index : Nat) (fence : FenceRun) (ok : Bool) :
    Fences s index fence ok (s.fencing index fence ok) := by
  unfold fencing
  cases fence.stage with
  | testing =>
      dsimp only
      split_ifs
      · exact .moved _
      · exact .moved _
  | marking =>
      cases ok with
      | true => exact .tombstoned
      | false => exact .moved _
  | linking =>
      cases ok with
      | true =>
          simp only [Spool.claim, if_true]
          cases hclaim : s.spool.claims fence.handle with
          | none => exact .won hclaim
          | some claim => exact .moved _
      | false => exact .moved _
  | answered word => exact .idle _
  | failed => exact .idle _

/-- What a move of a stop comes to. -/
inductive Stops (s : HeldLine) (index : Nat) : StopStage → Bool → HeldLine → Prop
  | idle (stage : StopStage) (ok : Bool) : Stops s index stage ok s
  | marked : Stops s index .starting true
      ({ s with spool := { s.spool with stop := true } }.stopTo index .listing)
  | moved {stage next : StopStage} {ok : Bool}
      (hnext : ∀ handle rest failed, next ≠ .marking handle rest failed) :
      Stops s index stage ok (s.stopTo index next)
  | won {handle : String} {rest : List String} {failed : Bool} (hfree : s.spool.claims handle = none) :
      Stops s index (.fencing (handle :: rest) failed) true
        ({ s with
          spool := { s.spool with
            claims := Function.update s.spool.claims handle (some { cancelled := true }) }
          wins := (handle, none) :: s.wins }.stopTo index (.marking handle rest failed))
  | tombstoned {handle : String} {rest : List String} {failed : Bool} :
      Stops s index (.marking handle rest failed) true
        ({ s with
          spool := s.spool.tombstone handle
          stopped := handle :: s.stopped }.stopTo index (.fencing rest failed))

theorem stops_stopping (s : HeldLine) (index : Nat) (stage : StopStage) (ok : Bool) :
    Stops s index stage ok (s.stopping index stage ok) := by
  unfold stopping
  split
  · cases ok with
    | true => exact .marked
    | false => exact .moved nofun
  · cases ok with
    | true => exact .moved nofun
    | false => exact .moved nofun
  · exact .moved nofun
  next handle rest failed =>
      cases ok with
      | true =>
          simp only [Spool.claim, if_true]
          cases hclaim : s.spool.claims handle with
          | none => exact .won hclaim
          | some claim => exact .moved nofun
      | false => exact .moved nofun
  next handle rest failed =>
      cases ok with
      | true => exact .tombstoned
      | false => exact .moved nofun
  · exact .idle _ _

/-- What a move of a center's pass comes to, one case for each command of its read. -/
inductive Passes (s : HeldLine) (index : Nat) (pass : Pass) : PassMove → HeldLine → Prop
  | idle (move : PassMove) : Passes s index pass move s
  | clock {clock : Int} (hstage : pass.stage = .clock) :
      Passes s index pass (.read clock) (s.passTo index pass (.line clock))
  | line {clock now : Int} (hstage : pass.stage = .line now) :
      Passes s index pass (.read clock) (s.passTo index pass (.stop now s.spool.line))
  | stop {clock now : Int} {line : Option LineSpec} (hstage : pass.stage = .stop now line) :
      Passes s index pass (.read clock) (s.passTo index pass
        (.rows ⟨now, line, s.spool.stop, fun _ => none, fun _ => none, fun _ => false⟩ pass.handles .exit))
  | exit {clock : Int} {facts : Facts} {handle : String} {rest : List String}
      (hstage : pass.stage = .rows facts (handle :: rest) .exit) :
      Passes s index pass (.read clock) (s.passTo index pass
        (.rows { facts with exits := Function.update facts.exits handle (s.spool.exits handle) }
          (handle :: rest) .claim))
  | claim {clock : Int} {facts : Facts} {handle : String} {rest : List String}
      (hstage : pass.stage = .rows facts (handle :: rest) .claim) :
      Passes s index pass (.read clock) (s.passTo index pass
        (.rows { facts with claims := Function.update facts.claims handle (s.spool.claims handle) }
          (handle :: rest) .queued))
  | queued {clock : Int} {facts : Facts} {handle : String} {rest : List String}
      (hstage : pass.stage = .rows facts (handle :: rest) .queued) :
      Passes s index pass (.read clock) (s.passTo index pass
        (.rows { facts with
          queued := Function.update facts.queued handle (handle ∈ s.spool.inbox.map (·.handle)) } rest .exit))
  | rows {clock : Int} {facts : Facts} {tag : Tag} (hstage : pass.stage = .rows facts [] tag) :
      Passes s index pass (.read clock) (s.passTo index pass (.asking facts))
  | answered {facts : Facts} {ended : List String} (hstage : pass.stage = .asking facts)
      (hasked : ended ⊆ facts.owners pass.handles) (hended : s.Ended ended) :
      Passes s index pass (.ask ended)
        ({ s with
          cancelled := given .cancelled (pass.handles.map fun handle => facts.judge handle ended) ++ s.cancelled
          vanished := given .vanished (pass.handles.map fun handle => facts.judge handle ended) ++
            s.vanished }.passTo
          index pass (.answered (pass.handles.map fun handle => facts.judge handle ended)))

theorem passes_passing (s : HeldLine) (index : Nat) (pass : Pass) (move : PassMove) :
    Passes s index pass move (s.passing index pass move) := by
  unfold passing
  split
  next clock hstage => exact .clock hstage
  next clock now hstage => exact .line hstage
  next clock now line hstage => exact .stop hstage
  next clock facts handle rest hstage => exact .exit hstage
  next clock facts handle rest hstage => exact .claim hstage
  next clock facts handle rest hstage => exact .queued hstage
  next clock facts tag hstage => exact .rows hstage
  next ended facts hstage =>
      split_ifs with hguard
      · exact .answered hstage hguard.1 hguard.2
      · exact .idle _
  · exact .idle _

/-- What a step comes to: the move of the process that takes it, or nothing when it is not enabled. -/
inductive Steps (s : HeldLine) : LineStep → HeldLine → Prop
  | idle (label : LineStep) : Steps s label s
  | put (entry : Submission) : Steps s (.put entry) { s with spool := s.spool.put entry }
  | writeLine (line : LineSpec) :
      Steps s (.writeLine line) { s with spool := { s.spool with line := some line } }
  | clearStop : Steps s .clearStop { s with spool := { s.spool with stop := false } }
  | serve {line : LineSpec} (alloc node : String) (ends : Int) (hline : s.spool.line = some line) :
      Steps s (.serve alloc node ends) { s with servers := s.servers ++ [⟨alloc, node, ends, line, .idle⟩] }
  | server {index : Nat} {server : Server} {move : ServerMove} {after : HeldLine}
      (hserver : s.servers[index]? = some server) (hserves : Serves s index server move after) :
      Steps s (.server index move) after
  | fence (handle : String) : Steps s (.fence handle) { s with fences := s.fences ++ [⟨handle, .testing⟩] }
  | fenceMove {index : Nat} {fence : FenceRun} {ok : Bool} {after : HeldLine}
      (hfence : s.fences[index]? = some fence) (hfences : Fences s index fence ok after) :
      Steps s (.fenceMove index ok) after
  | stop : Steps s .stop { s with stops := s.stops ++ [.starting] }
  | stopMove {index : Nat} {stage : StopStage} {ok : Bool} {after : HeldLine}
      (hstage : s.stops[index]? = some stage) (hstops : Stops s index stage ok after) :
      Steps s (.stopMove index ok) after
  | pass {handles : List String} (hpublished : handles ⊆ s.spool.inbox.map (·.handle)) :
      Steps s (.pass handles) { s with passes := s.passes ++ [⟨handles, .clock⟩] }
  | passMove {index : Nat} {pass : Pass} {move : PassMove} {after : HeldLine}
      (hpass : s.passes[index]? = some pass) (hpasses : Passes s index pass move after) :
      Steps s (.passMove index move) after

theorem steps_step (s : HeldLine) (label : LineStep) : Steps s label (s.step label) := by
  cases label with
  | put entry => exact .put entry
  | writeLine line => exact .writeLine line
  | clearStop => exact .clearStop
  | serve alloc node ends =>
      simp only [step]
      split
      next line hline => exact .serve alloc node ends hline
      next => exact .idle _
  | server index move =>
      simp only [step]
      split
      next server hserver => exact .server hserver (serves_served s index server move)
      next => exact .idle _
  | fence handle => exact .fence handle
  | fenceMove index ok =>
      simp only [step]
      split
      next fence hfence => exact .fenceMove hfence (fences_fencing s index fence ok)
      next => exact .idle _
  | stop => exact .stop
  | stopMove index ok =>
      simp only [step]
      split
      next stage hstage => exact .stopMove hstage (stops_stopping s index stage ok)
      next => exact .idle _
  | pass handles =>
      simp only [step]
      split_ifs with hpublished
      · exact .pass hpublished
      · exact .idle _
  | passMove index move =>
      simp only [step]
      split
      next pass hpass => exact .passMove hpass (passes_passing s index pass move)
      next => exact .idle _

end Moves

end HeldLine

end Mainboard
