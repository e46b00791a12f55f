import Mathlib.Logic.Function.Basic
import Mainboard.Runs

/-! The lease a session takes on a card: a file naming a pid, a time and a token, linked into place whole, judged
stale by a later acquirer, renamed aside and placed anew, and unlinked by its owner's release. Every step on the
path is atomic and none of them are taken together: attempts of any number of processes interleave, and a process
may die between any two. An attempt that finds the lease it judged still standing reclaims it alone; the runs in
which it moves another one aside are the ones that let two sessions measure beside each other. -/

namespace Mainboard.CardLease

/-- What a lease file says: its owner's pid, when it was opened, and the token of the attempt that wrote it. -/
structure Lease where
  pid : ℕ
  opened : ℕ
  token : ℕ
  deriving DecidableEq, Repr

/-- Where an attempt stands between two of its steps. -/
inductive Phase where
  /-- Its lease is written under a private name and about to be linked. -/
  | drafted (opened : ℕ)
  /-- A lease stood at the path already. -/
  | refused
  /-- It read the holder, nothing where the file could not be read. -/
  | read (holder : Option Lease)
  /-- It judged the holder it read stale and is about to rename the path aside. -/
  | stale (holder : Option Lease)
  | aside
  | redrafted (opened : ℕ)
  | holding (opened : ℕ)
  /-- Its release read its own token and is about to unlink the path. -/
  | releasing (opened : ℕ)
  /-- It was refused, gave its lease back, or its process died. -/
  | ended
  deriving DecidableEq, Repr

/-- One `CardLease`: the process that asked, the ttl it asked with, and how far it got. -/
structure Attempt where
  pid : ℕ
  ttl : ℕ
  phase : Phase
  deriving DecidableEq, Repr

/-- A host: its clock, the pids that exist, the lease standing at the card's path, and the attempts by token. -/
structure Host where
  now : ℕ := 0
  living : ℕ → Bool := fun _ => false
  path : Option Lease := none
  attempts : ℕ → Option Attempt := fun _ => none

/-- What happens next. `advance` is the next step of an attempt under way, `readable` whether a read of the path
it makes succeeds. -/
inductive Label where
  | wait (seconds : ℕ)
  | spawn (pid : ℕ)
  | die (pid : ℕ)
  | acquire (token pid ttl : ℕ)
  | advance (token : ℕ) (readable : Bool)
  | release (token : ℕ) (readable : Bool)
  /-- A step of the attempt raised, on a full disk or a folder that refuses it. -/
  | raise (token : ℕ)
  deriving DecidableEq, Repr

/-- The attempt moves on to a phase. -/
def Host.enter (s : Host) (token : ℕ) (attempt : Attempt) (phase : Phase) : Host :=
  { s with attempts := Function.update s.attempts token (some { attempt with phase }) }

/-- The pid, opening time and token the lease file names, nothing where it cannot be read. -/
def holder (s : Host) (readable : Bool) : Option Lease := if readable then s.path else none

/-- The drafted lease is linked into place, unless one already stands there. -/
def placed (s : Host) (token : ℕ) (attempt : Attempt) (opened : ℕ) (standing : Phase) : Host :=
  match s.path with
  | none => { s.enter token attempt (.holding opened) with path := some ⟨attempt.pid, opened, token⟩ }
  | some _ => s.enter token attempt standing

/-- The holder is inside the acquirer's ttl and its pid exists. -/
def busy (s : Host) (ttl : ℕ) (lease : Lease) : Bool := decide (s.now - lease.opened ≤ ttl) && s.living lease.pid

/-- The next step of an attempt: `acquire` up to the lease it takes or the refusal it raises, and the end of a
`release`. The private names are no other attempt's, so only what each step does to the path is kept. -/
def advance (s : Host) (token : ℕ) (attempt : Attempt) (readable : Bool) : Host :=
  match attempt.phase with
  | .drafted opened => placed s token attempt opened .refused
  | .refused => s.enter token attempt (.read (holder s readable))
  | .read holder => s.enter token attempt (if holder.any (busy s attempt.ttl) then .ended else .stale holder)
  | .stale _ => { s.enter token attempt .aside with path := none }
  | .aside => s.enter token attempt (.redrafted s.now)
  | .redrafted opened => placed s token attempt opened .ended
  | .holding _ => s
  | .releasing _ => { s.enter token attempt .ended with path := none }
  | .ended => s

/-- A release reads the path, and goes on to the unlink where it names this attempt's token. -/
def release (s : Host) (token : ℕ) (attempt : Attempt) (readable : Bool) : Host :=
  match attempt.phase with
  | .holding opened =>
      s.enter token attempt (if (holder s readable).any (·.token = token) then .releasing opened else .ended)
  | _ => s

/-- A step that raises ends the attempt; a session that holds its lease is taking no step. -/
def raised (s : Host) (token : ℕ) (attempt : Attempt) : Host :=
  match attempt.phase with
  | .holding _ => s
  | _ => s.enter token attempt .ended

/-- What a dying process leaves of an attempt. -/
def Attempt.survives (pid : ℕ) (attempt : Attempt) : Attempt :=
  if attempt.pid = pid then { attempt with phase := .ended } else attempt

/-- One step of the host. -/
def step (s : Host) : Label → Host
  | .wait seconds => { s with now := s.now + seconds }
  | .spawn pid => { s with living := Function.update s.living pid true }
  | .die pid => { s with living := Function.update s.living pid false,
                         attempts := fun token => (s.attempts token).map (Attempt.survives pid) }
  | .acquire token pid ttl =>
      if s.living pid ∧ s.attempts token = none then s.enter token ⟨pid, ttl, .ended⟩ (.drafted s.now) else s
  | .advance token readable => ((s.attempts token).map fun attempt => advance s token attempt readable).getD s
  | .release token readable => ((s.attempts token).map fun attempt => release s token attempt readable).getD s
  | .raise token => ((s.attempts token).map fun attempt => raised s token attempt).getD s

/-- The opening time of the lease an attempt holds, from its link to its unlink. -/
def Phase.held : Phase → Option ℕ
  | .holding opened => some opened
  | .releasing opened => some opened
  | _ => none

/-- The attempt holds a lease, its process lives, and the lease is within its ttl. -/
def holds (s : Host) (token : ℕ) : Bool :=
  (s.attempts token).any fun attempt =>
    s.living attempt.pid && attempt.phase.held.any fun opened => decide (s.now - opened ≤ attempt.ttl)

/-- At most one live process holds the card within its lease's ttl. -/
def Exclusive (s : Host) : Prop := ∀ one other, holds s one → holds s other → one = other

/-- A step of a release that takes a lease from the path takes its own. -/
def OwnOnly (s : Host) : Label → Prop
  | .advance token _ => ∀ attempt ∈ s.attempts token, ∀ opened, attempt.phase = .releasing opened →
      ∀ lease ∈ s.path, lease.token = token
  | _ => True

/-- What an acquirer about to rename the path aside finds there: nothing, the very lease it read and judged with a
ttl no shorter than the owner's, or one that no live process holds within its ttl. -/
def reclaims (s : Host) (ttl : ℕ) (read : Option Lease) : Bool :=
  s.path.all fun lease =>
    (read = some lease && (s.attempts lease.token).all fun owner => decide (owner.ttl ≤ ttl)) ||
      !holds s lease.token

/-- The step moves no lease aside but a stale one, and unlinks within the ttl or before a successor's link. -/
def clear (s : Host) : Label → Bool
  | .advance token _ => (s.attempts token).all fun attempt =>
      match attempt.phase with
      | .stale read => reclaims s attempt.ttl read
      | .releasing opened => decide (s.now - opened ≤ attempt.ttl) || s.path.all (·.token = token)
      | _ => true
  | _ => true

/-! ### What is known of a lease once it was placed -/

/-- The lease was linked into place: its attempt holds it still, or has ended. -/
def Placed (s : Host) (lease : Lease) : Prop :=
  ∃ owner, s.attempts lease.token = some owner ∧ owner.pid = lease.pid ∧
    (owner.phase.held = some lease.opened ∨ owner.phase = .ended)

/-- What an attempt's phase says it found out, and is still so. -/
def Knows (s : Host) (attempt : Attempt) : Prop :=
  match attempt.phase with
  | .read (some lease) => Placed s lease
  | .stale (some lease) => Placed s lease ∧
      ((∀ owner, s.attempts lease.token = some owner → owner.ttl ≤ attempt.ttl) → holds s lease.token = false)
  | _ => True

/-- What the host keeps at every clear step. -/
structure Sound (s : Host) : Prop where
  running : ∀ token attempt, s.attempts token = some attempt → attempt.phase ≠ .ended → s.living attempt.pid
  standing : ∀ token, holds s token → ∃ lease, s.path = some lease ∧ lease.token = token
  placed : ∀ lease, s.path = some lease → Placed s lease
  knows : ∀ token attempt, s.attempts token = some attempt → Knows s attempt

theorem holds_iff {s : Host} {token : ℕ} : holds s token = true ↔
    ∃ attempt opened, s.attempts token = some attempt ∧ s.living attempt.pid = true ∧
      attempt.phase.held = some opened ∧ s.now - opened ≤ attempt.ttl := by
  unfold holds
  rw [Option.any_eq_true]
  constructor
  · rintro ⟨attempt, hattempt, hboth⟩
    rw [Bool.and_eq_true, Option.any_eq_true] at hboth
    obtain ⟨hlives, opened, hopened, hage⟩ := hboth
    exact ⟨attempt, opened, hattempt, hlives, hopened, of_decide_eq_true hage⟩
  · rintro ⟨attempt, opened, hattempt, hlives, hopened, hage⟩
    refine ⟨attempt, hattempt, ?_⟩
    rw [Bool.and_eq_true, Option.any_eq_true]
    exact ⟨hlives, opened, hopened, decide_eq_true hage⟩

/-- What a step can make of an attempt: its process and ttl stay, a lease held stays held or its attempt ends. -/
structure Attempt.Follows (attempt later : Attempt) : Prop where
  pid : later.pid = attempt.pid
  ttl : later.ttl = attempt.ttl
  ended : attempt.phase = .ended → later.phase = .ended
  held : ∀ opened, attempt.phase.held = some opened →
    later.phase.held = some opened ∨ later.phase = .ended

theorem Attempt.Follows.refl (attempt : Attempt) : attempt.Follows attempt :=
  ⟨rfl, rfl, id, fun _ h => Or.inl h⟩

/-- The clock does not fall and every attempt is followed. -/
structure Evolves (s later : Host) : Prop where
  now : s.now ≤ later.now
  follows : ∀ token attempt, s.attempts token = some attempt →
    ∃ next, later.attempts token = some next ∧ attempt.Follows next

theorem Placed.evolves {s later : Host} {lease : Lease} (h : Placed s lease) (he : Evolves s later) :
    Placed later lease := by
  obtain ⟨owner, howner, hpid, hphase⟩ := h
  obtain ⟨next, hnext, hfollows⟩ := he.follows _ _ howner
  refine ⟨next, hnext, hfollows.pid.trans hpid, ?_⟩
  rcases hphase with hheld | hended
  · exact hfollows.held _ hheld
  · exact Or.inr (hfollows.ended hended)

/-- A lease once placed that no live process holds is held by none later. -/
theorem holds_of_evolves {s later : Host} {lease : Lease} (h : Sound s) (he : Evolves s later)
    (hplaced : Placed s lease) (hlater : holds later lease.token = true) : holds s lease.token = true := by
  obtain ⟨owner, howner, -, hphase⟩ := hplaced
  obtain ⟨next, hnext, hfollows⟩ := he.follows _ _ howner
  obtain ⟨attempt, opened, hattempt, hlives, hheld, hage⟩ := holds_iff.mp hlater
  obtain rfl : next = attempt := Option.some.inj (hnext.symm.trans hattempt)
  rcases hphase with howned | hended
  · -- The owner still holds what it opened then, at a later time of the clock.
    have hopened : opened = lease.opened := by
      rcases hfollows.held _ howned with hsame | hover
      · exact Option.some.inj (hheld.symm.trans hsame)
      · rw [hover] at hheld
        cases hheld
    have hactive : owner.phase ≠ .ended := by
      intro hended
      rw [hended] at howned
      cases howned
    have hnow := he.now
    have httl := hfollows.ttl
    exact holds_iff.mpr ⟨owner, lease.opened, howner, h.running _ _ howner hactive, howned, by omega⟩
  · rw [hfollows.ended hended] at hheld
    cases hheld

theorem Knows.evolves {s later : Host} {attempt : Attempt} (h : Sound s) (he : Evolves s later)
    (hknows : Knows s attempt) : Knows later attempt := by
  unfold Knows at hknows ⊢
  split at hknows
  · exact hknows.evolves he
  · obtain ⟨hplaced, hjudged⟩ := hknows
    refine ⟨hplaced.evolves he, fun hshorter => ?_⟩
    have hbefore : holds s _ = false := hjudged fun owner howner => by
      obtain ⟨next, hnext, hfollows⟩ := he.follows _ _ howner
      exact hfollows.ttl ▸ hshorter next hnext
    rw [Bool.eq_false_iff] at hbefore ⊢
    exact fun hlater => hbefore (holds_of_evolves h he hplaced hlater)
  · trivial

/-! ### One step -/

/-- An attempt enters a phase while the path is set to what the step leaves there. -/
def Host.entered (s : Host) (token : ℕ) (attempt : Attempt) (phase : Phase) (path : Option Lease) : Host :=
  { s.enter token attempt phase with path }

section Entering

variable {s : Host} {token : ℕ} {attempt : Attempt} {phase : Phase} {path : Option Lease}

theorem entered_self : (s.entered token attempt phase path).attempts token = some { attempt with phase } :=
  Function.update_self ..

theorem entered_of_ne {other : ℕ} (hne : other ≠ token) :
    (s.entered token attempt phase path).attempts other = s.attempts other := Function.update_of_ne hne ..

theorem enter_eq_entered : s.enter token attempt phase = s.entered token attempt phase s.path := rfl

theorem entered_evolves (hattempt : s.attempts token = some attempt) (hactive : attempt.phase ≠ .ended)
    (hheld : ∀ opened, attempt.phase.held = some opened → phase.held = some opened ∨ phase = .ended) :
    Evolves s (s.entered token attempt phase path) := by
  refine ⟨le_refl _, fun other attempt' hattempt' => ?_⟩
  by_cases hsame : other = token
  · subst hsame
    obtain rfl : attempt = attempt' := Option.some.inj (hattempt.symm.trans hattempt')
    exact ⟨_, entered_self, ⟨rfl, rfl, fun hended => absurd hended hactive, hheld⟩⟩
  · exact ⟨attempt', (entered_of_ne hsame).trans hattempt', .refl _⟩

theorem holds_entered_of_ne {other : ℕ} (hne : other ≠ token) :
    holds (s.entered token attempt phase path) other = holds s other := by
  unfold holds
  rw [entered_of_ne hne]
  rfl

/-- An attempt that entered a phase without a lease holds none. -/
theorem not_holds_entered (hphase : phase.held = none) :
    holds (s.entered token attempt phase path) token = false := by
  unfold holds
  rw [entered_self, Option.any_some, hphase]
  exact Bool.and_false _

/-- What a step has to show: it knows what its new phase says, who holds a lease has it at the path, and what
stands there was placed. -/
theorem Sound.entered (h : Sound s) (hattempt : s.attempts token = some attempt) (hactive : attempt.phase ≠ .ended)
    (hheld : ∀ opened, attempt.phase.held = some opened → phase.held = some opened ∨ phase = .ended)
    (hknows : Knows s { attempt with phase })
    (hstanding : ∀ other, holds (s.entered token attempt phase path) other →
      ∃ lease, path = some lease ∧ lease.token = other)
    (hplaced : ∀ lease, path = some lease → Placed (s.entered token attempt phase path) lease) :
    Sound (s.entered token attempt phase path) := by
  have hevolves : Evolves s (s.entered token attempt phase path) := entered_evolves hattempt hactive hheld
  refine ⟨?_, hstanding, hplaced, ?_⟩
  · intro other attempt' hattempt' hphase
    by_cases hsame : other = token
    · subst hsame
      obtain rfl : { attempt with phase } = attempt' := Option.some.inj (entered_self.symm.trans hattempt')
      have hlives : s.living attempt.pid := h.running _ _ hattempt hactive
      exact hlives
    · exact h.running _ _ ((entered_of_ne hsame).symm.trans hattempt') hphase
  · intro other attempt' hattempt'
    by_cases hsame : other = token
    · subst hsame
      obtain rfl : { attempt with phase } = attempt' := Option.some.inj (entered_self.symm.trans hattempt')
      exact hknows.evolves h hevolves
    · exact (h.knows _ _ ((entered_of_ne hsame).symm.trans hattempt')).evolves h hevolves

/-- A step that leaves the path alone and holds no lease afterwards. -/
theorem Sound.enter (h : Sound s) (hattempt : s.attempts token = some attempt) (hactive : attempt.phase ≠ .ended)
    (hheld : attempt.phase.held = none ∨ phase = .ended) (hphase : phase.held = none)
    (hknows : Knows s { attempt with phase }) : Sound (s.enter token attempt phase) := by
  have hkeeps : ∀ opened, attempt.phase.held = some opened → phase.held = some opened ∨ phase = .ended := by
    intro opened hopened
    rcases hheld with hnone | hended
    · rw [hnone] at hopened
      cases hopened
    · exact Or.inr hended
  rw [enter_eq_entered]
  refine h.entered hattempt hactive hkeeps hknows ?_ ?_
  · intro other hholds
    by_cases hsame : other = token
    · subst hsame
      rw [not_holds_entered hphase] at hholds
      cases hholds
    · rw [holds_entered_of_ne hsame] at hholds
      exact h.standing other hholds
  · exact fun lease hlease => (h.placed lease hlease).evolves (entered_evolves hattempt hactive hkeeps)

/-- A step that empties a path on which no other attempt's live lease stands. -/
theorem Sound.emptied (h : Sound s) (hattempt : s.attempts token = some attempt) (hactive : attempt.phase ≠ .ended)
    (hheld : attempt.phase.held = none ∨ phase = .ended) (hphase : phase.held = none)
    (hknows : Knows s { attempt with phase })
    (hfree : ∀ other, holds s other → other = token) : Sound (s.entered token attempt phase none) := by
  refine h.entered hattempt hactive ?_ hknows ?_ (fun lease hlease => (by cases hlease))
  · intro opened hopened
    rcases hheld with hnone | hended
    · rw [hnone] at hopened
      cases hopened
    · exact Or.inr hended
  · intro other hholds
    by_cases hsame : other = token
    · subst hsame
      rw [not_holds_entered hphase] at hholds
      cases hholds
    · rw [holds_entered_of_ne hsame] at hholds
      exact absurd (hfree other hholds) hsame

/-- A lease linked into an empty path is the only one held. -/
theorem Sound.placed_step (h : Sound s) (hattempt : s.attempts token = some attempt)
    (hactive : attempt.phase ≠ .ended) (hheld : attempt.phase.held = none) {opened : ℕ} {standing : Phase}
    (hstanding : standing.held = none) (hknows : Knows s { attempt with phase := standing }) :
    Sound (CardLease.placed s token attempt opened standing) := by
  unfold CardLease.placed
  cases hpath : s.path with
  | some lease => exact h.enter hattempt hactive (Or.inl hheld) hstanding hknows
  | none =>
      change Sound (s.entered token attempt (.holding opened) (some ⟨attempt.pid, opened, token⟩))
      refine h.entered hattempt hactive (fun opened hopened => ?_) trivial ?_ ?_
      · rw [hheld] at hopened
        cases hopened
      · intro other hholds
        by_cases hsame : other = token
        · exact ⟨_, rfl, hsame.symm⟩
        · rw [holds_entered_of_ne hsame] at hholds
          obtain ⟨lease, hlease, -⟩ := h.standing other hholds
          rw [hpath] at hlease
          cases hlease
      · intro lease hlease
        obtain rfl := Option.some.inj hlease
        exact ⟨_, entered_self, rfl, Or.inl rfl⟩

end Entering

/-- Time passes, and whoever holds a lease then held it before. -/
theorem Sound.wait {s : Host} (h : Sound s) (seconds : ℕ) : Sound { s with now := s.now + seconds } := by
  have hevolves : Evolves s { s with now := s.now + seconds } :=
    ⟨Nat.le_add_right _ _, fun _ attempt hattempt => ⟨attempt, hattempt, .refl _⟩⟩
  refine ⟨h.running, fun token hholds => ?_, fun lease hlease => (h.placed lease hlease).evolves hevolves,
    fun token attempt hattempt => (h.knows token attempt hattempt).evolves h hevolves⟩
  obtain ⟨attempt, opened, hattempt, hlives, hheld, hage⟩ := holds_iff.mp hholds
  dsimp only at hage
  exact h.standing token (holds_iff.mpr ⟨attempt, opened, hattempt, hlives, hheld, by omega⟩)

/-- A process is born, under a pid no attempt under way has. -/
theorem Sound.spawn {s : Host} (h : Sound s) (pid : ℕ) :
    Sound { s with living := Function.update s.living pid true } := by
  have hgrows : ∀ other, s.living other = true → Function.update s.living pid true other = true := by
    intro other hlives
    by_cases hsame : other = pid
    · subst hsame
      exact Function.update_self ..
    · rwa [Function.update_of_ne hsame]
  have hevolves : Evolves s { s with living := Function.update s.living pid true } :=
    ⟨le_refl _, fun _ attempt hattempt => ⟨attempt, hattempt, .refl _⟩⟩
  refine ⟨fun token attempt hattempt hphase => hgrows _ (h.running token attempt hattempt hphase),
    fun token hholds => ?_, fun lease hlease => (h.placed lease hlease).evolves hevolves,
    fun token attempt hattempt => (h.knows token attempt hattempt).evolves h hevolves⟩
  obtain ⟨attempt, opened, hattempt, -, hheld, hage⟩ := holds_iff.mp hholds
  have hactive : attempt.phase ≠ .ended := by
    intro hended
    rw [hended] at hheld
    cases hheld
  exact h.standing token (holds_iff.mpr ⟨attempt, opened, hattempt, h.running _ _ hattempt hactive, hheld, hage⟩)

theorem survives_follows (pid : ℕ) (attempt : Attempt) : attempt.Follows (attempt.survives pid) := by
  unfold Attempt.survives
  split
  · exact ⟨rfl, rfl, fun _ => rfl, fun _ _ => Or.inr rfl⟩
  · exact .refl _

theorem survives_phase {pid : ℕ} {attempt : Attempt} (h : (attempt.survives pid).phase ≠ .ended) :
    attempt.pid ≠ pid ∧ attempt.survives pid = attempt := by
  unfold Attempt.survives at h ⊢
  by_cases hown : attempt.pid = pid
  · rw [if_pos hown] at h
    exact absurd rfl h
  · exact ⟨hown, if_neg hown⟩

/-- What a process that dies knew is of no use to it any more. -/
theorem Knows.survives {s : Host} {attempt : Attempt} (pid : ℕ) (h : Knows s attempt) :
    Knows s (attempt.survives pid) := by
  unfold Attempt.survives
  split
  · trivial
  · exact h

/-- A process dies with its attempts, and the leases they held stay at the path. -/
theorem Sound.die {s : Host} (h : Sound s) (pid : ℕ) : Sound (step s (.die pid)) := by
  have hevolves : Evolves s (step s (.die pid)) := by
    refine ⟨le_refl _, fun token attempt hattempt => ⟨attempt.survives pid, ?_, survives_follows pid attempt⟩⟩
    dsimp only [step]
    rw [hattempt]
    rfl
  have hlater : ∀ token attempt', (step s (.die pid)).attempts token = some attempt' →
      ∃ attempt, s.attempts token = some attempt ∧ attempt.survives pid = attempt' :=
    fun token attempt' hattempt => Option.map_eq_some_iff.mp hattempt
  refine ⟨?_, ?_, fun lease hlease => (h.placed lease hlease).evolves hevolves, ?_⟩
  · intro token attempt' hattempt' hphase
    obtain ⟨attempt, hattempt, rfl⟩ := hlater token attempt' hattempt'
    obtain ⟨hother, hsame⟩ := survives_phase hphase
    rw [hsame] at hphase ⊢
    dsimp only [step]
    rw [Function.update_of_ne hother]
    exact h.running token attempt hattempt hphase
  · intro token hholds
    obtain ⟨attempt', opened, hattempt', -, hheld, hage⟩ := holds_iff.mp hholds
    obtain ⟨attempt, hattempt, rfl⟩ := hlater token attempt' hattempt'
    have hphase : (attempt.survives pid).phase ≠ .ended := by
      intro hended
      rw [hended] at hheld
      cases hheld
    rw [(survives_phase hphase).2] at hheld hage hphase
    exact h.standing token
      (holds_iff.mpr ⟨attempt, opened, hattempt, h.running _ _ hattempt hphase, hheld, hage⟩)
  · intro token attempt' hattempt'
    obtain ⟨attempt, hattempt, rfl⟩ := hlater token attempt' hattempt'
    exact ((h.knows token attempt hattempt).evolves h hevolves).survives pid

end Mainboard.CardLease
