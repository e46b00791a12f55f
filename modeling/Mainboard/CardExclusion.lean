import Mainboard.CardLease

/-! A card is leased to one live session at a time, and a release takes its own lease only, in every run whose
reclaimers move aside the lease they judged or a lapsed one and whose releases are not overtaken. The invariant is
that whoever holds a lease within its ttl has it standing at the path. -/

namespace Mainboard.CardLease
open Runs

/-- A new attempt drafts its lease. -/
theorem Sound.acquire {s : Host} (h : Sound s) {token pid ttl : ℕ} (hlives : s.living pid = true)
    (hnew : s.attempts token = none) : Sound (s.enter token ⟨pid, ttl, .ended⟩ (.drafted s.now)) := by
  have hother : ∀ other attempt, s.attempts other = some attempt → other ≠ token := by
    intro other attempt hattempt hsame
    rw [hsame, hnew] at hattempt
    cases hattempt
  rw [enter_eq_entered]
  have hevolves : Evolves s (s.entered token ⟨pid, ttl, .ended⟩ (.drafted s.now) s.path) :=
    ⟨le_refl _, fun other attempt hattempt =>
      ⟨attempt, (entered_of_ne (hother other attempt hattempt)).trans hattempt, .refl _⟩⟩
  refine ⟨?_, ?_, fun lease hlease => (h.placed lease hlease).evolves hevolves, ?_⟩
  · intro other attempt hattempt hphase
    by_cases hsame : other = token
    · subst hsame
      obtain rfl := Option.some.inj (entered_self.symm.trans hattempt)
      exact hlives
    · exact h.running _ _ ((entered_of_ne hsame).symm.trans hattempt) hphase
  · intro other hholds
    by_cases hsame : other = token
    · subst hsame
      rw [not_holds_entered rfl] at hholds
      cases hholds
    · rw [holds_entered_of_ne hsame] at hholds
      exact h.standing other hholds
  · intro other attempt hattempt
    by_cases hsame : other = token
    · subst hsame
      obtain rfl := Option.some.inj (entered_self.symm.trans hattempt)
      trivial
    · exact (h.knows _ _ ((entered_of_ne hsame).symm.trans hattempt)).evolves h hevolves

/-- Two holders have the same lease at the path. -/
theorem Sound.exclusive {s : Host} (h : Sound s) : Exclusive s := by
  intro one other hone hother
  obtain ⟨lease, hlease, rfl⟩ := h.standing one hone
  obtain ⟨lease', hlease', rfl⟩ := h.standing other hother
  rw [Option.some.inj (hlease.symm.trans hlease')]

/-- A holder judged stale under a ttl no shorter than its owner's is held by no live process within its ttl. -/
theorem not_holds_of_judged {s : Host} {lease : Lease} {ttl : ℕ} (hplaced : Placed s lease)
    (hjudged : busy s ttl lease = false)
    (hshorter : ∀ owner, s.attempts lease.token = some owner → owner.ttl ≤ ttl) : holds s lease.token = false := by
  rw [Bool.eq_false_iff]
  intro hholds
  obtain ⟨attempt, opened, hattempt, hlives, hheld, hage⟩ := holds_iff.mp hholds
  obtain ⟨owner, howner, hpid, hphase⟩ := hplaced
  obtain rfl : owner = attempt := Option.some.inj (howner.symm.trans hattempt)
  have hopened : opened = lease.opened := by
    rcases hphase with hsame | hended
    · exact Option.some.inj (hheld.symm.trans hsame)
    · rw [hended] at hheld
      cases hheld
  have httl := hshorter owner howner
  have hbusy : busy s ttl lease = true := by
    unfold busy
    rw [Bool.and_eq_true, decide_eq_true_eq, ← hpid]
    exact ⟨by omega, hlives⟩
  rw [hbusy] at hjudged
  cases hjudged

/-- A reclaimer that may go on finds no live process's lease standing. -/
theorem Sound.reclaims {s : Host} (h : Sound s) {token ttl pid : ℕ} {read : Option Lease}
    (hattempt : s.attempts token = some ⟨pid, ttl, .stale read⟩) (hclear : reclaims s ttl read = true)
    (other : ℕ) : ¬ holds s other := by
  intro hholds
  obtain ⟨lease, hlease, rfl⟩ := h.standing other hholds
  unfold CardLease.reclaims at hclear
  rw [hlease, Option.all_some, Bool.or_eq_true, Bool.and_eq_true] at hclear
  rcases hclear with ⟨hread, hshorter⟩ | hlapsed
  · obtain rfl := of_decide_eq_true hread
    have hknows : Knows s ⟨pid, ttl, .stale (some lease)⟩ := h.knows _ _ hattempt
    rw [Option.all_eq_true] at hshorter
    have hnot := hknows.2 fun owner howner => of_decide_eq_true (hshorter owner howner)
    rw [hnot] at hholds
    cases hholds
  · rw [hholds] at hlapsed
    cases hlapsed

/-- A release that may go on finds its own lease standing, or nothing that any other attempt holds. -/
theorem Sound.unlinks {s : Host} (h : Sound s) {token ttl pid opened : ℕ}
    (hattempt : s.attempts token = some ⟨pid, ttl, .releasing opened⟩)
    (hclear : (decide (s.now - opened ≤ ttl) || s.path.all (·.token = token)) = true) (lease : Lease)
    (hlease : s.path = some lease) : lease.token = token := by
  rw [Bool.or_eq_true, hlease, Option.all_some, decide_eq_true_eq, decide_eq_true_eq] at hclear
  rcases hclear with hage | hown
  · have hlives : s.living pid = true := h.running _ _ hattempt (fun hended => (by cases hended))
    have hholds : holds s token = true := holds_iff.mpr ⟨_, opened, hattempt, hlives, rfl, hage⟩
    obtain ⟨standing, hstanding, hown⟩ := h.standing token hholds
    rw [← Option.some.inj (hlease.symm.trans hstanding)] at hown
    exact hown
  · exact hown

/-- Each step of an attempt, by the phase it is in. -/
theorem Sound.advance {s : Host} (h : Sound s) {token : ℕ} {attempt : Attempt} {readable : Bool}
    (hattempt : s.attempts token = some attempt) (hclear : clear s (.advance token readable) = true) :
    Sound (advance s token attempt readable) := by
  dsimp only [clear] at hclear
  rw [hattempt, Option.all_some] at hclear
  obtain ⟨pid, ttl, phase⟩ := attempt
  cases phase with
  | drafted opened => exact h.placed_step hattempt (fun hended => (by cases hended)) rfl rfl trivial
  | refused =>
      refine h.enter hattempt (fun hended => (by cases hended)) (Or.inl rfl) rfl ?_
      unfold Knows
      dsimp only
      cases readable with
      | false => trivial
      | true =>
          unfold holder
          rw [if_pos rfl]
          cases hpath : s.path with
          | none => trivial
          | some lease => exact h.placed lease hpath
  | read holder =>
      refine h.enter hattempt (fun hended => (by cases hended)) (Or.inl rfl) (by split <;> rfl) ?_
      have hknows : Knows s ⟨pid, ttl, .read holder⟩ := h.knows _ _ hattempt
      by_cases hbusy : holder.any (busy s ttl) = true
      · rw [if_pos hbusy]
        trivial
      · rw [if_neg hbusy]
        cases holder with
        | none => trivial
        | some lease =>
            rw [Option.any_some, Bool.not_eq_true] at hbusy
            exact ⟨hknows, not_holds_of_judged hknows hbusy⟩
  | stale read =>
      exact h.emptied hattempt (fun hended => (by cases hended)) (Or.inl rfl) rfl trivial
        fun other hholds => absurd hholds (h.reclaims hattempt hclear other)
  | aside => exact h.enter hattempt (fun hended => (by cases hended)) (Or.inl rfl) rfl trivial
  | redrafted opened => exact h.placed_step hattempt (fun hended => (by cases hended)) rfl rfl trivial
  | holding opened => exact h
  | releasing opened =>
      refine h.emptied hattempt (fun hended => (by cases hended)) (Or.inr rfl) rfl trivial fun other hholds => ?_
      obtain ⟨lease, hlease, rfl⟩ := h.standing other hholds
      exact h.unlinks hattempt hclear lease hlease
  | ended => exact h

/-- A release that read its own token holds its lease until the unlink. -/
theorem Sound.release {s : Host} (h : Sound s) {token : ℕ} {attempt : Attempt} {readable : Bool}
    (hattempt : s.attempts token = some attempt) : Sound (release s token attempt readable) := by
  unfold CardLease.release
  obtain ⟨pid, ttl, phase⟩ := attempt
  cases phase with
  | holding opened =>
      by_cases hown : (holder s readable).any (·.token = token) = true
      · dsimp only
        rw [if_pos hown, enter_eq_entered]
        have hactive : Phase.holding opened ≠ .ended := fun hended => (by cases hended)
        refine h.entered hattempt hactive (fun _ hopened => Or.inl hopened) trivial ?_ ?_
        · intro other hholds
          by_cases hsame : other = token
          · subst hsame
            unfold holds at hholds
            rw [entered_self] at hholds
            refine h.standing other ?_
            unfold holds
            rw [hattempt]
            exact hholds
          · rw [holds_entered_of_ne hsame] at hholds
            exact h.standing other hholds
        · exact fun lease hlease => (h.placed lease hlease).evolves
            (entered_evolves hattempt hactive fun _ hopened => Or.inl hopened)
      · dsimp only
        rw [if_neg hown]
        exact h.enter hattempt (fun hended => (by cases hended)) (Or.inr rfl) rfl trivial
  | drafted | refused | read | stale | aside | redrafted | releasing | ended => exact h

theorem Sound.raised {s : Host} (h : Sound s) {token : ℕ} {attempt : Attempt}
    (hattempt : s.attempts token = some attempt) : Sound (raised s token attempt) := by
  unfold CardLease.raised
  split
  · exact h
  · by_cases hended : attempt.phase = .ended
    · have hsame : s.enter token attempt .ended = s := by
        unfold Host.enter
        rw [← hended, show ({ attempt with phase := attempt.phase } : Attempt) = attempt from rfl, ← hattempt,
          Function.update_eq_self]
      rw [hsame]
      exact h
    · exact h.enter hattempt hended (Or.inr rfl) rfl trivial

/-- A clear step of the host keeps the leases sound. -/
theorem step_sound (s : Host) (label : Label) (h : Sound s) (hclear : clear s label = true) :
    Sound (step s label) := by
  cases label with
  | wait seconds => exact h.wait seconds
  | spawn pid => exact h.spawn pid
  | die pid => exact h.die pid
  | acquire token pid ttl =>
      dsimp only [step]
      split
      case isTrue hnew => exact h.acquire hnew.1 hnew.2
      case isFalse => exact h
  | advance token readable =>
      dsimp only [step]
      cases hattempt : s.attempts token with
      | none => exact h
      | some attempt => exact h.advance hattempt hclear
  | release token readable =>
      dsimp only [step]
      cases hattempt : s.attempts token with
      | none => exact h
      | some attempt => exact h.release hattempt
  | raise token =>
      dsimp only [step]
      cases hattempt : s.attempts token with
      | none => exact h
      | some attempt => exact h.raised hattempt

/-- A clear step of a release takes its own lease. -/
theorem step_ownOnly (s : Host) (label : Label) (h : Sound s) (hclear : clear s label = true) :
    OwnOnly s label := by
  cases label with
  | advance token readable =>
      rintro ⟨pid, ttl, phase⟩ hattempt opened rfl lease hlease
      dsimp only [clear] at hclear
      rw [Option.mem_def.mp hattempt, Option.all_some] at hclear
      exact h.unlinks hattempt hclear lease hlease
  | wait | spawn | die | acquire | release | raise => trivial

/-- A host on which nobody has asked for the card. -/
def fresh (now : ℕ) (living : ℕ → Bool) : Host := { now, living }

theorem fresh_sound (now : ℕ) (living : ℕ → Bool) : Sound (fresh now living) :=
  ⟨fun _ _ hattempt => (by cases hattempt), fun _ hholds => (by cases hholds), fun _ hlease => (by cases hlease),
    fun _ _ hattempt => (by cases hattempt)⟩

/-- In every run that is clear at each step, one live session at most holds the card at any time, and no release
takes a successor's lease. -/
theorem card_exclusive (now : ℕ) (living : ℕ → Bool) (labels : List Label)
    (hclear : Each step (fun s label => clear s label = true) (fresh now living) labels) :
    Always step Exclusive (fresh now living) labels ∧ Each step OwnOnly (fresh now living) labels :=
  ⟨always_mono (fun _ h => h.exclusive) (invariant_always step_sound (fresh_sound now living) hclear),
    each_of_invariant step_sound step_ownOnly (fresh_sound now living) hclear⟩

/-- Process 1 takes the card and dies; 2 reclaims it alone and gives it back; 3 finds the path free. -/
def reclaimed : List Label :=
  [.spawn 1, .spawn 2, .spawn 3, .acquire 0 1 9, .advance 0 true, .wait 2, .die 1, .acquire 1 2 9, .advance 1 true,
    .advance 1 true, .advance 1 true, .advance 1 true, .advance 1 true, .advance 1 true, .release 1 true,
    .advance 1 true, .acquire 2 3 9, .advance 2 true]

theorem card_exclusive_reclaimed :
    Always step Exclusive (fresh 0 fun _ => false) reclaimed ∧
      Each step OwnOnly (fresh 0 fun _ => false) reclaimed :=
  card_exclusive 0 (fun _ => false) reclaimed (by decide +kernel)

/-- Process 1 takes the card and dies; 2 and 3 both read its lease and judge it stale; 2 reclaims it and measures,
and 3 then renames the lease of 2 aside. -/
def together : List Label :=
  [.spawn 1, .spawn 2, .spawn 3, .acquire 0 1 9, .advance 0 true, .die 1, .acquire 1 2 9, .acquire 2 3 9,
    .advance 1 true, .advance 2 true, .advance 1 true, .advance 2 true, .advance 1 true, .advance 2 true,
    .advance 1 true, .advance 1 true, .advance 1 true, .advance 2 true, .advance 2 true, .advance 2 true]

theorem card_exclusive_fails : ¬ ∀ (now : ℕ) (living : ℕ → Bool) (labels : List Label),
    Always step Exclusive (fresh now living) labels ∧ Each step OwnOnly (fresh now living) labels := by
  intro hclaim
  have hexclusive : Exclusive (run step (fresh 0 fun _ => false) together) :=
    (hclaim 0 (fun _ => false) together).1 together List.prefix_rfl
  have hone : holds (run step (fresh 0 fun _ => false) together) 1 = true := by decide +kernel
  have hother : holds (run step (fresh 0 fun _ => false) together) 2 = true := by decide +kernel
  cases hexclusive 1 2 hone hother

end Mainboard.CardLease
