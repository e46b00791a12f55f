import Mainboard.ProcessSessions

/-! The keeper's sweep: the ledger names the supervisor by its pid and the start time read of it, and every process
still in its session is looked for by session id and start time. Where no other process that ran under that pid leaves
a session it leads to others, is closed to the user or reads the same start time, only the supervisor's own session is
found and signalled. -/

namespace Mainboard.Serve

open Sessions Runs

/-- A process as the ledger names it: its pid and its start time. -/
structure Leader where
  pid : ℕ
  started : ℤ
  deriving DecidableEq, Repr

namespace Leader

variable (t : Table)

def reading (process : Process) : ℤ := t.boot + process.start

/-- A process's start time, infinity for one gone or closed to this user. -/
def startedAt (pid : ℕ) : Option ℤ :=
  (t.find pid).bind fun process => if process.opened then some (reading t process) else none

/-- A process's session id, 0 for one gone or closed to this user. -/
def session (pid : ℕ) : ℕ := match t.find pid with
  | some process => if process.opened then process.session else 0
  | none => 0

/-- The process a pid is now. -/
def of (pid : ℕ) : Option Leader := (startedAt t pid).map fun started => ⟨pid, started⟩

/-- When the process that has the pid now started, where that is another one; infinity otherwise. -/
def bound (self : Leader) : Option ℤ := match of t self.pid with
  | some now => if now ≠ self then some now.started else none
  | none => none

/-- Every process still in this leader's session. -/
def members (self : Leader) : List Process :=
  t.processes.filter fun process => session t process.pid = self.pid && match startedAt t process.pid with
    | some started => self.started ≤ started && (match bound t self with
        | some limit => started < limit
        | none => true)
    | none => false

end Leader

/-- What the ledger records, beside the session it was the supervisor's. -/
structure Recorded where
  leader : Leader
  origin : ℕ
  deriving DecidableEq, Repr

/-- A machine with a ledger, and each process a sweep signalled beside what the ledger then named. -/
structure Served where
  table : Table := {}
  ledger : Option Recorded := none
  signalled : List (Process × Recorded) := []

/-- What can happen: the machine's own events, a ledger written, and a sweep that the named processes outlast. -/
inductive Label where
  | event (event : Event)
  | record (pid : ℕ)
  | sweep (spared : List ℕ)
  deriving DecidableEq, Repr

namespace Served

/-- The supervisor recorded: a session leader the keeper started, read or named by the time it was looked for. -/
def record (s : Served) (pid : ℕ) : Served := match s.table.find pid with
  | some process =>
      if process.session = pid ∧ pid ≠ 1 then
        { s with ledger := some ⟨(Leader.of s.table pid).getD ⟨pid, s.table.boot + s.table.tick⟩, process.origin⟩ }
      else s
  | none => s

/-- Every process still in the recorded session signalled; the ledger is forgotten once none is left. -/
def sweep (s : Served) (spared : List ℕ) : Served := match s.ledger with
  | some recorded =>
      let members := recorded.leader.members s.table
      let table := { s.table with processes := s.table.processes.filter fun process =>
        !(decide (process ∈ members) && decide (process.pid ∉ spared)) }
      { table, ledger := if recorded.leader.members table = [] then none else s.ledger,
        signalled := s.signalled ++ members.map fun process => (process, recorded) }
  | none => s

def step (s : Served) : Label → Served
  | .event event => { s with table := s.table.step event }
  | .record pid => s.record pid
  | .sweep spared => s.sweep spared

end Served

/-- Sweeps find and signal processes of the recorded session alone. -/
structure SweepsOwn (s : Served) : Prop where
  members : ∀ recorded, s.ledger = some recorded → ∀ process ∈ recorded.leader.members s.table,
    process.origin = recorded.origin
  signalled : ∀ entry ∈ s.signalled, entry.1.origin = entry.2.origin

/-- No process that runs under the recorded pid in another session leaves that session to others, is or becomes closed
to this user, or reads the recorded start time. -/
def Spares (t : Table) (recorded : Recorded) : Event → Prop
  | .adjust boot => ∀ process ∈ t.processes, process.pid = recorded.leader.pid → process.origin ≠ recorded.origin →
      boot + process.start ≠ recorded.leader.started
  | .fork parent child => child = recorded.leader.pid → ∀ found ∈ t.find parent,
      found.opened = true ∧ t.boot + t.tick ≠ recorded.leader.started
  | .turn pid opened => pid = recorded.leader.pid → opened = false →
      ∀ process ∈ t.processes, process.pid = pid → process.origin = recorded.origin
  | .exit pid => pid = recorded.leader.pid →
      ∀ process ∈ t.processes, process.session = pid → process.pid ≠ pid → process.origin = recorded.origin
  | .tick | .setsid _ | .reboot _ => True

instance (t : Table) (recorded : Recorded) : (event : Event) → Decidable (Spares t recorded event)
  | .adjust boot => inferInstanceAs (Decidable (∀ process ∈ t.processes, process.pid = recorded.leader.pid →
      process.origin ≠ recorded.origin → boot + process.start ≠ recorded.leader.started))
  | .fork parent child => inferInstanceAs (Decidable (child = recorded.leader.pid → ∀ found ∈ t.find parent,
      found.opened = true ∧ t.boot + t.tick ≠ recorded.leader.started))
  | .turn pid opened => inferInstanceAs (Decidable (pid = recorded.leader.pid → opened = false →
      ∀ process ∈ t.processes, process.pid = pid → process.origin = recorded.origin))
  | .exit pid => inferInstanceAs (Decidable (pid = recorded.leader.pid →
      ∀ process ∈ t.processes, process.session = pid → process.pid ≠ pid → process.origin = recorded.origin))
  | .tick | .setsid _ | .reboot _ => .isTrue trivial

/-- The condition on a step, asked while a ledger stands. -/
def Meets (s : Served) : Label → Prop
  | .event event => ∀ recorded ∈ s.ledger, Spares s.table recorded event
  | .record _ | .sweep _ => True

instance (s : Served) : (label : Label) → Decidable (Meets s label)
  | .event event => inferInstanceAs (Decidable (∀ recorded ∈ s.ledger, Spares s.table recorded event))
  | .record _ | .sweep _ => .isTrue trivial

/-- What holds of a ledger while its condition is met: the recorded session goes by the recorded pid; a process under
that pid in another session is open and reads another start; and where processes of another session go by that id, its
leader still runs. -/
structure Guarded (t : Table) (recorded : Recorded) : Prop where
  positive : 0 < recorded.leader.pid
  notFirst : recorded.leader.pid ≠ 1
  made : recorded.origin < t.sessions
  numbered : ∀ process ∈ t.processes, process.origin = recorded.origin → process.session = recorded.leader.pid
  newcomer : ∀ process ∈ t.processes, process.pid = recorded.leader.pid → process.origin ≠ recorded.origin →
    process.opened = true ∧ t.boot + process.start ≠ recorded.leader.started
  led : ∀ process ∈ t.processes, process.session = recorded.leader.pid → process.origin ≠ recorded.origin →
    ∃ leader ∈ t.processes, leader.pid = recorded.leader.pid

section Members

variable {t : Table} {recorded : Recorded} {process : Process}

theorem mem_members (h : t.Kept) {self : Leader} (hself : 0 < self.pid) (hmember : process ∈ self.members t) :
    process ∈ t.processes ∧ process.session = self.pid ∧
      ∀ limit, Leader.bound t self = some limit → Leader.reading t process < limit := by
  obtain ⟨hprocess, hholds⟩ := List.mem_filter.mp hmember
  rw [Bool.and_eq_true, decide_eq_true_eq, Leader.session, Leader.startedAt, h.find hprocess] at hholds
  obtain ⟨hsession, hstarted⟩ := hholds
  dsimp only [Option.bind_some] at hsession hstarted
  split at hsession
  · rename_i hopened
    refine ⟨hprocess, hsession, fun limit hlimit => ?_⟩
    rw [if_pos hopened, hlimit] at hstarted
    simp only [Bool.and_eq_true, decide_eq_true_eq] at hstarted
    exact hstarted.2
  · omega

/-- The members found are of the recorded session. -/
theorem members_own (h : t.Kept) (hguarded : Guarded t recorded) (hmember : process ∈ recorded.leader.members t) :
    process.origin = recorded.origin := by
  obtain ⟨hprocess, hsession, hbound⟩ := mem_members h hguarded.positive hmember
  by_contra horigin
  obtain ⟨leader, hleader, hpid⟩ := hguarded.led process hprocess hsession horigin
  obtain ⟨hled, hstart⟩ := h.leads process hprocess leader hleader (hpid.trans hsession.symm)
  have hother : leader.origin ≠ recorded.origin := fun heq =>
    horigin (((h.sessions leader hleader process hprocess).mp hled).symm.trans heq)
  obtain ⟨hopened, hreads⟩ := hguarded.newcomer leader hleader hpid hother
  have hnow : Leader.of t recorded.leader.pid = some ⟨recorded.leader.pid, Leader.reading t leader⟩ := by
    rw [Leader.of, Leader.startedAt, ← hpid, h.find hleader, Option.bind_some, if_pos hopened, Option.map_some]
  have huntil : Leader.bound t recorded.leader = some (Leader.reading t leader) := by
    unfold Leader.bound
    rw [hnow]
    exact if_pos fun heq => hreads (congrArg Leader.started heq)
  have hlt := hbound _ huntil
  unfold Leader.reading at hlt
  omega

end Members

section Guarding

variable {t : Table} {recorded : Recorded}

theorem Guarded.fork (h : Guarded t recorded) {parent child : ℕ} {found : Process} (hfound : t.find parent = some found)
    (hspares : Spares t recorded (.fork parent child)) :
    Guarded { t with processes := t.processes ++ [⟨child, found.session, t.tick, found.origin, found.opened⟩] }
      recorded := by
  have hparent := (Table.mem_of_find hfound).1
  refine ⟨h.positive, h.notFirst, h.made, fun process hprocess horigin => ?_, fun process hprocess hpid horigin => ?_,
    fun process hprocess hsession horigin => ?_⟩
  · rcases List.mem_append.mp hprocess with hold | hnew
    · exact h.numbered process hold horigin
    · rw [List.mem_singleton.mp hnew] at horigin ⊢
      exact h.numbered found hparent horigin
  · rcases List.mem_append.mp hprocess with hold | hnew
    · exact h.newcomer process hold hpid horigin
    · rw [List.mem_singleton.mp hnew] at hpid ⊢
      exact hspares hpid found hfound
  · have hold : ∃ leader ∈ t.processes, leader.pid = recorded.leader.pid := by
      rcases List.mem_append.mp hprocess with hold | hnew
      · exact h.led process hold hsession horigin
      · rw [List.mem_singleton.mp hnew] at hsession horigin
        exact h.led found hparent hsession horigin
    obtain ⟨leader, hleader, hpid⟩ := hold
    exact ⟨leader, List.mem_append_left _ hleader, hpid⟩

theorem Guarded.setsid (h : Guarded t recorded) {pid : ℕ} (hunused : ∀ process ∈ t.processes, process.session ≠ pid) :
    Guarded { t with processes := t.alter pid fun process => { process with session := pid, origin := t.sessions }
                     sessions := t.sessions + 1 } recorded := by
  refine ⟨h.positive, h.notFirst, h.made.trans (Nat.lt_succ_self _), fun process hprocess horigin => ?_,
    fun process hprocess hpid horigin => ?_, fun process hprocess hsession horigin => ?_⟩
  · rcases Table.mem_alter.mp hprocess with ⟨old, hold, -, rfl⟩ | ⟨hold, -⟩
    · exact absurd horigin h.made.ne'
    · exact h.numbered process hold horigin
  · rcases Table.mem_alter.mp hprocess with ⟨old, hold, hsame, rfl⟩ | ⟨hold, -⟩
    · refine h.newcomer old hold hpid fun heq => ?_
      exact hunused old hold ((h.numbered old hold heq).trans (hpid.symm.trans hsame))
    · exact h.newcomer process hold hpid horigin
  · have hkeep : ∀ leader ∈ t.processes, ∃ kept ∈ t.alter pid fun process => { process with session := pid, origin := t.sessions },
        kept.pid = leader.pid := fun leader hleader => by
      by_cases hsame : leader.pid = pid
      · exact ⟨_, Table.mem_alter.mpr (Or.inl ⟨leader, hleader, hsame, rfl⟩), rfl⟩
      · exact ⟨leader, Table.mem_alter.mpr (Or.inr ⟨hleader, hsame⟩), rfl⟩
    rcases Table.mem_alter.mp hprocess with ⟨old, hold, hsame, rfl⟩ | ⟨hold, -⟩
    · exact ⟨_, hprocess, hsame.trans hsession⟩
    · obtain ⟨leader, hleader, hpid⟩ := h.led process hold hsession horigin
      obtain ⟨kept, hkept, heq⟩ := hkeep leader hleader
      exact ⟨kept, hkept, heq.trans hpid⟩

theorem Guarded.turn (h : Guarded t recorded) {pid : ℕ} {opened : Bool}
    (hspares : Spares t recorded (.turn pid opened)) :
    Guarded { t with processes := t.alter pid fun process => { process with opened } } recorded := by
  refine ⟨h.positive, h.notFirst, h.made, fun process hprocess horigin => ?_, fun process hprocess hpid horigin => ?_,
    fun process hprocess hsession horigin => ?_⟩
  · rcases Table.mem_alter.mp hprocess with ⟨old, hold, -, rfl⟩ | ⟨hold, -⟩
    · exact h.numbered old hold horigin
    · exact h.numbered process hold horigin
  · rcases Table.mem_alter.mp hprocess with ⟨old, hold, hsame, rfl⟩ | ⟨hold, -⟩
    · refine ⟨?_, (h.newcomer old hold hpid horigin).2⟩
      by_contra hclosed
      exact horigin (hspares (hsame.symm.trans hpid) (Bool.eq_false_iff.mpr hclosed) old hold hsame)
    · exact h.newcomer process hold hpid horigin
  · have hold : ∃ leader ∈ t.processes, leader.pid = recorded.leader.pid := by
      rcases Table.mem_alter.mp hprocess with ⟨old, hold, -, rfl⟩ | ⟨hold, -⟩
      · exact h.led old hold hsession horigin
      · exact h.led process hold hsession horigin
    obtain ⟨leader, hleader, hpid⟩ := hold
    by_cases hsame : leader.pid = pid
    · exact ⟨_, Table.mem_alter.mpr (Or.inl ⟨leader, hleader, hsame, rfl⟩), hpid⟩
    · exact ⟨leader, Table.mem_alter.mpr (Or.inr ⟨hleader, hsame⟩), hpid⟩

/-- Some processes gone, where none leads another session of the recorded id that is still there. -/
theorem Guarded.part (h : Guarded t recorded) {rest : List Process} (hrest : ∀ process ∈ rest, process ∈ t.processes)
    (hleader : ∀ process ∈ rest, process.session = recorded.leader.pid → process.origin ≠ recorded.origin →
      ∀ leader ∈ t.processes, leader.pid = recorded.leader.pid → leader ∈ rest) :
    Guarded { t with processes := rest } recorded := by
  refine ⟨h.positive, h.notFirst, h.made, fun process hprocess => h.numbered process (hrest process hprocess),
    fun process hprocess => h.newcomer process (hrest process hprocess), fun process hprocess hsession horigin => ?_⟩
  obtain ⟨leader, hmem, hpid⟩ := h.led process (hrest process hprocess) hsession horigin
  exact ⟨leader, hleader process hprocess hsession horigin leader hmem hpid, hpid⟩

/-- An event that meets the condition keeps the ledger guarded. -/
theorem guarded_step (event : Event) (h : Guarded t recorded) (hspares : Spares t recorded event) :
    Guarded (t.step event) recorded := by
  cases event with
  | tick => exact ⟨h.positive, h.notFirst, h.made, h.numbered, h.newcomer, h.led⟩
  | adjust boot =>
      refine ⟨h.positive, h.notFirst, h.made, h.numbered, fun process hprocess hpid horigin => ?_, h.led⟩
      exact ⟨(h.newcomer process hprocess hpid horigin).1, hspares process hprocess hpid horigin⟩
  | fork parent child =>
      dsimp only [Table.step]
      split
      · rename_i found hfound
        split
        · exact h.fork hfound hspares
        · exact h
      · exact h
  | setsid pid =>
      dsimp only [Table.step]
      split
      · rename_i hunused
        exact h.setsid hunused
      · exact h
  | turn pid opened => exact h.turn hspares
  | exit pid =>
      refine h.part (fun process hprocess => (List.mem_filter.mp hprocess).1) ?_
      intro process hprocess hsession horigin leader hleader hpid
      obtain ⟨hmem, hstays⟩ := List.mem_filter.mp hprocess
      refine List.mem_filter.mpr ⟨hleader, decide_eq_true fun hsame => ?_⟩
      exact horigin (hspares (hsame.symm.trans hpid) process hmem (hsession.trans (hpid.symm.trans hsame))
        (of_decide_eq_true hstays))
  | reboot boot =>
      refine ⟨h.positive, h.notFirst, h.made.trans (Nat.lt_succ_self _), fun process hprocess horigin => ?_,
        fun process hprocess hpid => ?_, fun process hprocess hsession => ?_⟩
      · rw [List.mem_singleton.mp hprocess] at horigin
        exact absurd horigin h.made.ne'
      · rw [List.mem_singleton.mp hprocess] at hpid
        exact absurd hpid.symm h.notFirst
      · rw [List.mem_singleton.mp hprocess] at hsession
        exact absurd hsession h.positive.ne

/-- A ledger just written is guarded. -/
theorem guarded_record (hkept : t.Kept) {pid : ℕ} {process : Process} (hfind : t.find pid = some process)
    (hleads : process.session = pid) (hfirst : pid ≠ 1) :
    Guarded t ⟨(Leader.of t pid).getD ⟨pid, t.boot + t.tick⟩, process.origin⟩ := by
  obtain ⟨hprocess, hpid⟩ := Table.mem_of_find hfind
  have hnamed : ((Leader.of t pid).getD ⟨pid, t.boot + t.tick⟩).pid = pid := by
    unfold Leader.of
    cases Leader.startedAt t pid <;> rfl
  refine ⟨?_, ?_, hkept.made process hprocess, ?_, ?_, ?_⟩
  · rw [hnamed, ← hpid]
    exact hkept.positive process hprocess
  · rw [hnamed]
    exact hfirst
  · intro other hother horigin
    rw [hnamed, ← hleads]
    exact (hkept.sessions other hother process hprocess).mpr horigin
  · intro other hother hsame horigin
    have heq : other = process :=
      List.inj_on_of_nodup_map hkept.distinct hother hprocess ((hsame.trans hnamed).trans hpid.symm)
    exact absurd (congrArg Process.origin heq) horigin
  · intro other hother hsession horigin
    have hsame := hsession.trans (hnamed.trans hleads.symm)
    exact absurd ((hkept.sessions other hother process hprocess).mp hsame) horigin

end Guarding

/-- What holds of a machine whose history met the condition. -/
structure Sound (s : Served) : Prop where
  kept : s.table.Kept
  guarded : ∀ recorded, s.ledger = some recorded → Guarded s.table recorded
  signalled : ∀ entry ∈ s.signalled, entry.1.origin = entry.2.origin

theorem Sound.sweepsOwn {s : Served} (h : Sound s) : SweepsOwn s :=
  ⟨fun recorded hledger _ hmember => members_own h.kept (h.guarded recorded hledger) hmember, h.signalled⟩

theorem Sound.sweep {s : Served} (h : Sound s) (spared : List ℕ) : Sound (s.sweep spared) := by
  unfold Served.sweep
  split
  · rename_i recorded hledger
    have hguarded := h.guarded recorded hledger
    refine ⟨h.kept.part List.filter_sublist, fun other hother => ?_, fun entry hentry => ?_⟩
    · obtain rfl : recorded = other := by
        dsimp only at hother
        split at hother
        · cases hother
        · exact Option.some.inj (hledger.symm.trans hother)
      refine hguarded.part (fun process hprocess => (List.mem_filter.mp hprocess).1) ?_
      intro process hprocess hsession horigin leader hleader hpid
      have hmem := (List.mem_filter.mp hprocess).1
      refine List.mem_filter.mpr ⟨hleader, ?_⟩
      have hled := (h.kept.leads process hmem leader hleader (hpid.trans hsession.symm)).1
      have hother : leader.origin ≠ recorded.origin := fun heq =>
        horigin (((h.kept.sessions leader hleader process hmem).mp hled).symm.trans heq)
      rw [decide_eq_false fun hmember => hother (members_own h.kept hguarded hmember)]
      rfl
    · rcases List.mem_append.mp hentry with hold | hnew
      · exact h.signalled entry hold
      · obtain ⟨process, hprocess, rfl⟩ := List.mem_map.mp hnew
        exact members_own h.kept hguarded hprocess
  · exact h

theorem sound_step {s : Served} (label : Label) (h : Sound s) (hmeets : Meets s label) : Sound (s.step label) := by
  cases label with
  | event event =>
      exact ⟨Table.kept_step event h.kept, fun recorded hledger =>
        guarded_step event (h.guarded recorded hledger) (hmeets recorded hledger), h.signalled⟩
  | record pid =>
      dsimp only [Served.step, Served.record]
      split
      · rename_i process hfind
        split
        · rename_i hleads
          refine ⟨h.kept, fun recorded hledger => ?_, h.signalled⟩
          cases hledger
          exact guarded_record h.kept hfind hleads.1 hleads.2
        · exact h
      · exact h
  | sweep spared => exact h.sweep spared

/-- Over every history that meets the condition, sweeps find and signal the recorded supervisor's session alone. -/
theorem sweep_own {labels : List Label} (hmeets : Each Served.step Meets {} labels) :
    Always Served.step SweepsOwn {} labels := by
  have hinit : Sound {} := by
    refine ⟨⟨by decide, by decide, by decide, by decide, by decide, by decide⟩, fun recorded h => ?_, fun entry h => ?_⟩
    · cases h
    · cases h
  exact always_mono (fun s h => h.sweepsOwn) (invariant_always (fun s label h hlabel => sound_step label h hlabel) hinit hmeets)

/-- A supervisor recorded and swept with its child, and gone with its session, its pid given to a process that makes a
session of its own and stays in it until its child has ended. -/
def succeeded : List Label :=
  [.event (.fork 1 7), .event (.setsid 7), .record 7, .event (.fork 7 8), .sweep [], .event (.exit 8),
    .event (.exit 7), .event .tick, .event (.fork 1 7),
    .event (.setsid 7), .event (.fork 7 8), .event (.exit 8), .event (.exit 7), .sweep []]

theorem sweep_own_succeeded : Always Served.step SweepsOwn {} succeeded ∧
    (run Served.step {} (succeeded.take 5)).signalled ≠ [] :=
  ⟨sweep_own (by decide +kernel), by decide +kernel⟩

/-- The same, but the process that has the pid ends before its child. -/
def outlived : List Label :=
  [.event (.fork 1 7), .event (.setsid 7), .record 7, .event (.exit 7), .event .tick, .event (.fork 1 7),
    .event (.setsid 7), .event (.fork 7 8), .event (.exit 7), .sweep []]

/-- The child is then signalled, of a session the supervisor never led. -/
theorem sweep_own_fails : ¬ ∀ labels : List Label, Always Served.step SweepsOwn {} labels := by
  intro h
  have hsignalled := (h outlived outlived (List.prefix_refl _)).signalled
  revert hsignalled
  decide +kernel

end Mainboard.Serve
