import Mathlib.Data.List.Nodup
import Mainboard.Runs

/-! Processes of one machine as a user sees them: their pids and session ids, which the kernel gives out again, when
they started, and which session they are of, which no kernel call tells. A number is given to a new process only where
no process has it, as its own or as its session's, and a session is named after the process that made it. -/

namespace Sessions

/-- A process. Its session goes by the number `session` and is the one made as number `origin` of all sessions ever. -/
structure Process where
  pid : ℕ
  session : ℕ
  start : ℕ
  origin : ℕ
  opened : Bool := true
  deriving DecidableEq, Repr

/-- The processes there are, the clock's reading at the boot and the ticks since, and how many sessions were made. -/
structure Table where
  processes : List Process := [⟨1, 0, 0, 0, true⟩]
  boot : ℤ := 0
  tick : ℕ := 0
  sessions : ℕ := 1

/-- What a process or the machine does. -/
inductive Event where
  | tick
  | adjust (boot : ℤ)
  | fork (parent child : ℕ)
  | setsid (pid : ℕ)
  | turn (pid : ℕ) (opened : Bool)
  | exit (pid : ℕ)
  | reboot (boot : ℤ)
  deriving DecidableEq, Repr

namespace Table

variable (t : Table)

/-- The process of a pid. -/
def find (pid : ℕ) : Option Process := t.processes.find? fun process => process.pid = pid

/-- A process changed where it stands. -/
def alter (pid : ℕ) (change : Process → Process) : List Process :=
  t.processes.map fun process => if process.pid = pid then change process else process

/-- A number no process has, as its own or as its session's. -/
def Free (number : ℕ) : Prop := ∀ process ∈ t.processes, process.pid ≠ number ∧ process.session ≠ number

instance (number : ℕ) : Decidable (t.Free number) :=
  inferInstanceAs (Decidable (∀ process ∈ t.processes, process.pid ≠ number ∧ process.session ≠ number))

/-- What an event leaves; one the kernel refuses leaves all as it was. -/
def step : Event → Table
  | .tick => { t with tick := t.tick + 1 }
  | .adjust boot => { t with boot }
  | .fork parent child => match t.find parent with
      | some found =>
          if 0 < child ∧ t.Free child then
            { t with processes := t.processes ++ [⟨child, found.session, t.tick, found.origin, found.opened⟩] }
          else t
      | none => t
  | .setsid pid =>
      if ∀ process ∈ t.processes, process.session ≠ pid then
        { t with processes := t.alter pid fun process => { process with session := pid, origin := t.sessions }
                 sessions := t.sessions + 1 }
      else t
  | .turn pid opened => { t with processes := t.alter pid fun process => { process with opened } }
  | .exit pid => { t with processes := t.processes.filter fun process => process.pid ≠ pid }
  | .reboot boot => { processes := [⟨1, 0, 0, t.sessions, true⟩], boot, tick := 0, sessions := t.sessions + 1 }

/-- What the kernel keeps true of its processes: pids tell them apart, session ids tell sessions apart, and whoever has
a session's id leads it and started before every other process in it. -/
structure Kept : Prop where
  distinct : (t.processes.map Process.pid).Nodup
  positive : ∀ process ∈ t.processes, 0 < process.pid
  sessions : ∀ one ∈ t.processes, ∀ other ∈ t.processes, one.session = other.session ↔ one.origin = other.origin
  leads : ∀ member ∈ t.processes, ∀ leader ∈ t.processes, leader.pid = member.session →
    leader.session = member.session ∧ leader.start ≤ member.start
  begun : ∀ process ∈ t.processes, process.start ≤ t.tick
  made : ∀ process ∈ t.processes, process.origin < t.sessions

variable {t} {process : Process} {pid child : ℕ} {change : Process → Process}

theorem mem_of_find (h : t.find pid = some process) : process ∈ t.processes ∧ process.pid = pid :=
  ⟨List.mem_of_find?_eq_some h, of_decide_eq_true (List.find?_some h :)⟩

/-- A process is the one of its pid. -/
theorem Kept.find (h : t.Kept) (hprocess : process ∈ t.processes) : t.find process.pid = some process := by
  cases hfind : t.find process.pid with
  | none => exact absurd (decide_eq_true rfl) (List.find?_eq_none.mp hfind process hprocess)
  | some found =>
      obtain ⟨hfound, hpid⟩ := mem_of_find hfind
      exact congrArg some (List.inj_on_of_nodup_map h.distinct hfound hprocess hpid)

theorem mem_alter {changed : Process} : changed ∈ t.alter pid change ↔
    (∃ process ∈ t.processes, process.pid = pid ∧ changed = change process) ∨
      (changed ∈ t.processes ∧ changed.pid ≠ pid) := by
  unfold alter
  rw [List.mem_map]
  constructor
  · rintro ⟨process, hprocess, rfl⟩
    split
    · rename_i hpid
      exact Or.inl ⟨process, hprocess, hpid, rfl⟩
    · rename_i hpid
      exact Or.inr ⟨hprocess, hpid⟩
  · rintro (⟨process, hprocess, hpid, rfl⟩ | ⟨hprocess, hpid⟩)
    · exact ⟨process, hprocess, if_pos hpid⟩
    · exact ⟨changed, hprocess, if_neg hpid⟩

theorem distinct_alter (h : (t.processes.map Process.pid).Nodup) (hpid : ∀ process, (change process).pid = process.pid) :
    ((t.alter pid change).map Process.pid).Nodup := by
  have hsame : (t.alter pid change).map Process.pid = t.processes.map Process.pid := by
    rw [alter, List.map_map]
    refine List.map_congr_left fun process _ => ?_
    rw [Function.comp_apply]
    split
    · exact hpid process
    · rfl
  rwa [hsame]

theorem Kept.fork (h : t.Kept) {found : Process} (hfound : found ∈ t.processes) (hchild : 0 < child) (hfree : t.Free child) :
    Kept { t with processes := t.processes ++ [⟨child, found.session, t.tick, found.origin, found.opened⟩] } := by
  refine ⟨?_, ?_, ?_, ?_, ?_, ?_⟩
  · rw [List.map_append, List.map_singleton]
    refine List.nodup_append.mpr ⟨h.distinct, List.nodup_singleton _, fun one hone other hother => ?_⟩
    obtain ⟨process, hprocess, rfl⟩ := List.mem_map.mp hone
    rw [List.mem_singleton.mp hother]
    exact (hfree process hprocess).1
  · intro process hprocess
    rcases List.mem_append.mp hprocess with hold | hnew
    · exact h.positive process hold
    · rw [List.mem_singleton.mp hnew]
      exact hchild
  · -- the child stands for its parent
    have hstand : ∀ process ∈ t.processes ++ [⟨child, found.session, t.tick, found.origin, found.opened⟩],
        ∃ old ∈ t.processes, process.session = old.session ∧ process.origin = old.origin := by
      intro process hprocess
      rcases List.mem_append.mp hprocess with hold | hnew
      · exact ⟨process, hold, rfl, rfl⟩
      · rw [List.mem_singleton.mp hnew]
        exact ⟨found, hfound, rfl, rfl⟩
    intro one hone other hother
    obtain ⟨_, hleft, hsession, horigin⟩ := hstand one hone
    obtain ⟨_, hright, hsession', horigin'⟩ := hstand other hother
    rw [hsession, horigin, hsession', horigin']
    exact h.sessions _ hleft _ hright
  · intro member hmember leader hleader hleads
    rcases List.mem_append.mp hleader with hold | hnew
    · rcases List.mem_append.mp hmember with hmember | hmember
      · exact h.leads member hmember leader hold hleads
      · rw [List.mem_singleton.mp hmember] at hleads ⊢
        exact ⟨(h.leads found hfound leader hold hleads).1, h.begun leader hold⟩
    · rw [List.mem_singleton.mp hnew] at hleads ⊢
      have hsession : ∃ process ∈ t.processes, process.session = child := by
        rcases List.mem_append.mp hmember with hold | hmember
        · exact ⟨member, hold, hleads.symm⟩
        · rw [List.mem_singleton.mp hmember] at hleads
          exact ⟨found, hfound, hleads.symm⟩
      obtain ⟨process, hprocess, hused⟩ := hsession
      exact absurd hused (hfree process hprocess).2
  · intro process hprocess
    rcases List.mem_append.mp hprocess with hold | hnew
    · exact h.begun process hold
    · rw [List.mem_singleton.mp hnew]
  · intro process hprocess
    rcases List.mem_append.mp hprocess with hold | hnew
    · exact h.made process hold
    · rw [List.mem_singleton.mp hnew]
      exact h.made found hfound

theorem Kept.setsid (h : t.Kept) (hunused : ∀ process ∈ t.processes, process.session ≠ pid) :
    Kept { t with processes := t.alter pid fun process => { process with session := pid, origin := t.sessions }
                  sessions := t.sessions + 1 } := by
  have hcases : ∀ process ∈ t.alter pid fun process => { process with session := pid, origin := t.sessions },
      (process.session = pid ∧ process.pid = pid ∧ process.origin = t.sessions ∧ 0 < process.pid ∧ process.start ≤ t.tick) ∨
        (process ∈ t.processes ∧ process.pid ≠ pid) := by
    intro process hprocess
    rcases mem_alter.mp hprocess with ⟨old, hold, hpid, rfl⟩ | hother
    · exact Or.inl ⟨rfl, hpid, rfl, h.positive old hold, h.begun old hold⟩
    · exact Or.inr hother
  have hdistinct : ((t.alter pid fun process => { process with session := pid, origin := t.sessions }).map
      Process.pid).Nodup := distinct_alter h.distinct fun _ => rfl
  refine ⟨hdistinct, ?_, ?_, ?_, ?_, ?_⟩
  · intro process hprocess
    rcases hcases process hprocess with ⟨-, -, -, hpositive, -⟩ | ⟨hold, -⟩
    · exact hpositive
    · exact h.positive process hold
  · intro one hone other hother
    rcases hcases one hone with ⟨hsession, -, horigin, -⟩ | ⟨hold, -⟩
    · rcases hcases other hother with ⟨hsession', -, horigin', -⟩ | ⟨hold', -⟩
      · rw [hsession, hsession', horigin, horigin']
        exact ⟨fun _ => rfl, fun _ => rfl⟩
      · rw [hsession, horigin]
        exact ⟨fun heq => absurd heq.symm (hunused other hold'), fun heq => absurd heq (h.made other hold').ne'⟩
    · rcases hcases other hother with ⟨hsession', -, horigin', -⟩ | ⟨hold', -⟩
      · rw [hsession', horigin']
        exact ⟨fun heq => absurd heq (hunused one hold), fun heq => absurd heq (h.made one hold).ne⟩
      · exact h.sessions one hold other hold'
  · intro member hmember leader hleader hleads
    rcases hcases member hmember with ⟨hsession, hpid, -⟩ | ⟨hold, -⟩
    · have hsame : leader = member :=
        List.inj_on_of_nodup_map hdistinct hleader hmember (hleads.trans (hsession.trans hpid.symm))
      rw [hsame]
      exact ⟨rfl, Nat.le_refl _⟩
    · rcases hcases leader hleader with ⟨-, hpid, -⟩ | ⟨hold', -⟩
      · exact absurd (hleads.symm.trans hpid) (hunused member hold)
      · exact h.leads member hold leader hold' hleads
  · intro process hprocess
    rcases hcases process hprocess with ⟨-, -, -, -, hbegun⟩ | ⟨hold, -⟩
    · exact hbegun
    · exact h.begun process hold
  · intro process hprocess
    rcases hcases process hprocess with ⟨-, -, horigin, -⟩ | ⟨hold, -⟩
    · rw [horigin]
      exact Nat.lt_succ_self _
    · exact (h.made process hold).trans (Nat.lt_succ_self _)

/-- What holds of processes holds of some of them. -/
theorem Kept.part (h : t.Kept) {rest : List Process} (hrest : rest.Sublist t.processes) :
    Kept { t with processes := rest } :=
  ⟨h.distinct.sublist (hrest.map _), fun process hprocess => h.positive process (hrest.subset hprocess),
    fun one hone other hother => h.sessions one (hrest.subset hone) other (hrest.subset hother),
    fun member hmember leader hleader => h.leads member (hrest.subset hmember) leader (hrest.subset hleader),
    fun process hprocess => h.begun process (hrest.subset hprocess),
    fun process hprocess => h.made process (hrest.subset hprocess)⟩

theorem Kept.turn (h : t.Kept) (opened : Bool) :
    Kept { t with processes := t.alter pid fun process => { process with opened } } := by
  have hstand : ∀ process ∈ t.alter pid fun process => { process with opened }, ∃ old ∈ t.processes,
      process.pid = old.pid ∧ process.session = old.session ∧ process.origin = old.origin ∧ process.start = old.start := by
    intro process hprocess
    rcases mem_alter.mp hprocess with ⟨old, hold, -, rfl⟩ | ⟨hold, -⟩
    · exact ⟨old, hold, rfl, rfl, rfl, rfl⟩
    · exact ⟨process, hold, rfl, rfl, rfl, rfl⟩
  refine ⟨distinct_alter h.distinct fun _ => rfl, ?_, ?_, ?_, ?_, ?_⟩
  · intro process hprocess
    obtain ⟨old, hold, hpid, -⟩ := hstand process hprocess
    exact hpid ▸ h.positive old hold
  · intro one hone other hother
    obtain ⟨_, hleft, -, hsession, horigin, -⟩ := hstand one hone
    obtain ⟨_, hright, -, hsession', horigin', -⟩ := hstand other hother
    rw [hsession, horigin, hsession', horigin']
    exact h.sessions _ hleft _ hright
  · intro member hmember leader hleader hleads
    obtain ⟨_, hleft, -, hsession, -, hstart⟩ := hstand member hmember
    obtain ⟨_, hright, hpid, hsession', -, hstart'⟩ := hstand leader hleader
    rw [hsession, hpid] at hleads
    rw [hsession, hsession', hstart, hstart']
    exact h.leads _ hleft _ hright hleads
  · intro process hprocess
    obtain ⟨old, hold, -, -, -, hstart⟩ := hstand process hprocess
    exact hstart ▸ h.begun old hold
  · intro process hprocess
    obtain ⟨old, hold, -, -, horigin, -⟩ := hstand process hprocess
    exact horigin ▸ h.made old hold

/-- Every event keeps what the kernel keeps. -/
theorem kept_step (event : Event) (h : t.Kept) : (t.step event).Kept := by
  cases event with
  | tick => exact ⟨h.distinct, h.positive, h.sessions, h.leads, fun process hprocess => Nat.le_succ_of_le (h.begun process hprocess), h.made⟩
  | adjust boot => exact ⟨h.distinct, h.positive, h.sessions, h.leads, h.begun, h.made⟩
  | fork parent child =>
      dsimp only [step]
      split
      · rename_i found hfound
        split
        · rename_i hfree
          exact h.fork (mem_of_find hfound).1 hfree.1 hfree.2
        · exact h
      · exact h
  | setsid pid =>
      dsimp only [step]
      split
      · rename_i hunused
        exact h.setsid hunused
      · exact h
  | turn pid opened => exact h.turn opened
  | exit pid => exact h.part List.filter_sublist
  | reboot boot =>
      refine ⟨List.nodup_singleton _, ?_, ?_, ?_, ?_, ?_⟩
      · exact fun process hprocess => (List.mem_singleton.mp hprocess) ▸ Nat.one_pos
      · intro one hone other hother
        rw [List.mem_singleton.mp hone, List.mem_singleton.mp hother]
        exact ⟨fun _ => rfl, fun _ => rfl⟩
      · intro member hmember leader hleader hleads
        rw [List.mem_singleton.mp hmember, List.mem_singleton.mp hleader] at hleads
        cases hleads
      · exact fun process hprocess => (List.mem_singleton.mp hprocess) ▸ Nat.le_refl _
      · exact fun process hprocess => (List.mem_singleton.mp hprocess) ▸ Nat.lt_succ_self _

end Table

end Sessions
