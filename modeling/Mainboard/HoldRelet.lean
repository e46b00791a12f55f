import Mainboard.LeasePricing
import Mainboard.VerdictLifecycle

/-! A machine held past its setup: its rental is priced for a landing and the hold, and once the machine is ready its
lease is moved to the hold's end, counted from then. What landing and setup really took is in no price, and the registry
moves a lease on whatever its run has come to, so what the price promised holds in the runs where the machine is ready
soon enough and its run still stands. -/

namespace Runs

variable {σ ι : Type*} {step : σ → ι → σ} {P : σ → Prop} {Q : σ → ι → Prop}

/-- Where every step keeps a property exactly under a condition, a run does exactly where its steps all meet it. -/
theorem always_iff_each (hstep : ∀ s label, P s → (P (step s label) ↔ Q s label)) {s : σ} (hinit : P s)
    (labels : List ι) : Always step P s labels ↔ Each step Q s labels := by
  induction labels generalizing s with
  | nil =>
      refine iff_of_true (fun taken htaken => ?_) trivial
      rw [List.prefix_nil.mp htaken]
      exact hinit
  | cons label labels ih =>
      rw [each_cons]
      constructor
      · intro h
        have hafter : P (step s label) := h [label] (List.cons_prefix_cons.mpr ⟨rfl, List.nil_prefix⟩)
        exact ⟨(hstep s label hinit).mp hafter, (ih hafter).mp h.tail⟩
      · rintro ⟨hmeets, hrest⟩ taken htaken
        have hafter := (hstep s label hinit).mpr hmeets
        cases taken with
        | nil => exact hinit
        | cons first taken =>
            obtain ⟨rfl, htail⟩ := List.cons_prefix_cons.mp htaken
            exact (ih hafter).mpr hrest taken htail

end Runs

namespace Mainboard.Holds

open Pricing Runs

/-- `walltime`. -/
def walltime (seconds : ℕ) : Walltime := ⟨seconds / 3600, seconds / 60 % 60, seconds % 60⟩

/-- A hold's rental: what was asked, when it was priced and its machine created, and the lease it was accepted at. -/
structure Rental where
  offer : Offer
  maxUsd : Option ℚ
  seconds : ℕ
  setup : ℤ
  pricedAt : ℤ
  created : ℤ
  handle : String
  host : String
  lease : Pricing.Lease
  priced : priced offer ⟨maxUsd, some (walltime seconds)⟩ setup pricedAt = .ok lease
  later : pricedAt ≤ created

/-- How far a hold is: its rental's record read, the machine ready and the hold's end counted, the record marked as
pending, the lease moved. -/
inductive Phase
  | rented
  | kept (record : RunRecord)
  | ready (record : RunRecord) (deadline : ℤ)
  | delivered (answer : RunRecord) (deadline : ℤ)
  | moved (relet : RunRecord) (deadline : ℤ)
  | failed
  deriving DecidableEq

/-- A hold in its workspace, other processes working on the registry beside it. -/
structure State where
  workspace : Workspace
  now : ℤ
  phase : Phase

/-- What happens next: time passes, another process's operation, or the hold's own next call. -/
inductive Label
  | wait (micros : ℕ)
  | other (operation : Operation)
  | keep
  | ready
  | deliver
  | relet

variable (lifecycle : Lifecycle) (digest : String → String) (rental : Rental)

/-- `_keep` and `_relet`, call by call. -/
def step (s : State) : Label → State
  | .wait micros => { s with now := s.now + micros }
  | .other operation => { s with workspace := s.workspace.step lifecycle digest operation }
  | .keep => match s.phase with
      | .rented => match s.workspace.log.run rental.handle rental.host with
          | .ok record => { s with phase := .kept record }
          | .error _ => { s with phase := .failed }
      | _ => s
  | .ready => match s.phase with
      | .kept record => { s with phase := .ready record (s.now + rental.seconds * second) }
      | _ => s
  | .deliver => match s.phase with
      | .ready record deadline => match s.workspace.log.delivery record "pending" with
          | .ok (log, answer) => { s with workspace := { s.workspace with log }, phase := .delivered answer deadline }
          | .error _ => { s with phase := .failed }
      | _ => s
  | .relet => match s.phase with
      | .delivered answer deadline => match s.workspace.log.relet answer ⟨deadline⟩ with
          | .ok (log, relet) => { s with workspace := { s.workspace with log }, phase := .moved relet deadline }
          | .error _ => { s with phase := .failed }
      | _ => s

/-- The rental's own lease has not expired when the machine is ready, a hold's length before its end. -/
def Unexpired (deadline : ℤ) : Prop := deadline - rental.seconds * second < rental.lease.releaseBy

/-- What pricing promised of the lease a hold ends with, and that its run had not ended. -/
def Kept (s : State) : Prop :=
  match s.phase with
  | .moved relet deadline => Unexpired rental deadline →
      billAt rental.lease.billing rental.created deadline ≤ rental.lease.maxUsd ∧ terminal relet.verdict = false
  | _ => True

/-- The machine is ready soon enough after its creation: the time it took, the hold and the release fit the quanta the
budget buys, and so does the provider's minimum. -/
def Timely (deadline : ℤ) : Prop :=
  rental.lease.billing.minimumS * rental.lease.billing.rateUsdHr ≤
      (rental.lease.maxUsd - rental.lease.billing.feesUsd) * secondsPerHour ∧
    deadline - rental.seconds * second - rental.created + (rental.seconds + releaseSeconds) * second ≤
      exactQuanta rental.lease.billing rental.lease.maxUsd * rental.lease.billing.granularityS * second

/-- Where a step moves the lease, the machine was ready soon enough and its run still stands. -/
def Meets (s : State) : Label → Prop
  | .relet => match s.phase with
      | .delivered answer deadline => ∀ current, s.workspace.log.at? answer.identity = some current →
          Unexpired rental deadline → Timely rental deadline ∧ terminal current.verdict = false
      | _ => True
  | _ => True

variable {rental} {s : State} {deadline : ℤ}

theorem timely_iff : billAt rental.lease.billing rental.created deadline ≤ rental.lease.maxUsd ↔ Timely rental deadline := by
  have haccepted := accepted_of_priced rental.priced
  have hsecond : (0 : ℚ) < second := by norm_num [second]
  unfold billAt Timely
  rw [costUsd_le_iff haccepted.rate haccepted.quantum, zero_add]
  refine and_congr_right fun _ => ?_
  rw [div_add' _ _ _ hsecond.ne', div_le_iff₀ hsecond]
  have hcast : ((deadline - rental.created : ℤ) : ℚ) + (releaseSeconds : ℤ) * second =
      ((deadline - rental.seconds * second - rental.created + (rental.seconds + releaseSeconds) * second : ℤ) : ℚ) := by
    push_cast
    ring
  rw [hcast, ← Int.cast_mul, Int.cast_le]

/-- A lease moved keeps what was promised exactly where the step that moved it met its condition. -/
theorem relet_kept (answer : RunRecord) (hphase : s.phase = .delivered answer deadline) :
    Kept rental (step lifecycle digest rental s .relet) ↔ Meets rental s .relet := by
  dsimp only [step, Meets]
  rw [hphase]
  dsimp only
  rcases Registry.change_cases s.workspace.log answer (fun _ => false) (·.withLease ⟨deadline⟩) with
    ⟨refusal, hrefused⟩ | ⟨current, hcurrent, hrelet⟩
  · have hnone : s.workspace.log.at? answer.identity = none := by
      unfold Registry.change at hrefused
      split at hrefused
      · assumption
      · cases hrefused
    have hraised : s.workspace.log.relet answer ⟨deadline⟩ = .error refusal := hrefused
    rw [hraised, hnone]
    exact iff_of_true trivial fun _ hsome => by cases hsome
  · have hmoved : s.workspace.log.relet answer ⟨deadline⟩ =
        .ok (s.workspace.log.put (current.withLease ⟨deadline⟩), current.withLease ⟨deadline⟩) := hrelet
    rw [hmoved, hcurrent]
    unfold Kept
    dsimp only
    rw [timely_iff]
    constructor
    · rintro hkept other hother hunexpired
      obtain rfl := Option.some.inj hother
      exact hkept hunexpired
    · exact fun hall hunexpired => hall current rfl hunexpired

theorem step_kept (s : State) (label : Label) (h : Kept rental s) :
    Kept rental (step lifecycle digest rental s label) ↔ Meets rental s label := by
  cases label with
  | wait micros => exact iff_of_true h trivial
  | other operation => exact iff_of_true h trivial
  | keep =>
      refine iff_of_true ?_ trivial
      dsimp only [step]
      split
      · split <;> trivial
      · exact h
  | ready =>
      refine iff_of_true ?_ trivial
      dsimp only [step]
      split
      · trivial
      · exact h
  | deliver =>
      refine iff_of_true ?_ trivial
      dsimp only [step]
      split
      · split <;> trivial
      · exact h
  | relet =>
      cases hphase : s.phase with
      | delivered answer deadline => exact relet_kept lifecycle digest answer hphase
      | _ =>
          dsimp only [step, Meets]
          rw [hphase]
          exact iff_of_true h trivial

variable (rental)

/-- A hold keeps what its rental was priced for exactly in the runs whose every move of the lease is timely and on a
run that has not ended. -/
theorem hold_kept_iff (workspace : Workspace) (now : ℤ) (labels : List Label) :
    Always (step lifecycle digest rental) (Kept rental) ⟨workspace, now, .rented⟩ labels ↔
      Each (step lifecycle digest rental) (Meets rental) ⟨workspace, now, .rented⟩ labels :=
  always_iff_each (step_kept lifecycle digest) (show Kept rental ⟨workspace, now, .rented⟩ from trivial) labels

/-- A rental at a dollar an hour for a dollar: 300 s of setup priced beside a hold of 50 minutes. -/
def dollarHour : Rental where
  offer := ⟨some ⟨1, 1, 0, 0⟩⟩
  maxUsd := some 1
  seconds := 3000
  setup := 300
  pricedAt := 0
  created := 0
  handle := "42"
  host := "vast"
  lease := ⟨⟨3420000000⟩, ⟨1, 1, 0, 0⟩, 1⟩
  priced := by decide +kernel
  later := le_rfl

/-- The rental's record as it was created. -/
def rented : RunRecord where
  handle := "42"
  target := "vast"
  submittedAt := 0
  verdict := some Word.queued.value
  lease := some ⟨3420000000⟩

/-- The hold's own calls, its setup taking so long, and what the sweep does meanwhile. -/
def keeping (micros : ℕ) (meanwhile : List Operation) : List Label :=
  .keep :: .wait micros :: meanwhile.map Label.other ++ ([.ready, .deliver, .relet] : List Label)

/-- The state a hold starts in, its rental just recorded. -/
def fresh : State := ⟨⟨[⟨rented, false⟩], []⟩, 0, .rented⟩

/-- A setup of 1000 seconds puts the hold's end past what the dollar buys, and a run the sweep settles during setup has
its lease moved all the same. -/
theorem hold_kept_fails :
    ¬ Always (step .table id dollarHour) (Kept dollarHour) fresh (keeping 1000000000 []) ∧
      ¬ Always (step .table id dollarHour) (Kept dollarHour) fresh
        (keeping 100000000 [.resolve rented (some "vanished") none Word.vanished.value]) := by
  constructor
  · intro h
    have hend : (run (step .table id dollarHour) fresh (keeping 1000000000 [])).phase =
        .moved { rented with evidence := "pending", lease := some ⟨4000000000⟩ } 4000000000 := by decide +kernel
    have hkept := h _ List.prefix_rfl
    unfold Kept at hkept
    rw [hend] at hkept
    have hover : ¬ billAt dollarHour.lease.billing dollarHour.created 4000000000 ≤ dollarHour.lease.maxUsd := by
      decide +kernel
    exact hover (hkept (by unfold Unexpired; decide +kernel)).1
  · intro h
    have hend : (run (step .table id dollarHour) fresh
        (keeping 100000000 [.resolve rented (some "vanished") none Word.vanished.value])).phase =
        .moved { rented with state := some "vanished", verdict := some "vanished", evidence := "pending",
                             lease := some ⟨3100000000⟩ } 3100000000 := by decide +kernel
    have hkept := h _ List.prefix_rfl
    unfold Kept at hkept
    rw [hend] at hkept
    have hended : terminal (some "vanished") = true := by decide +kernel
    exact Bool.noConfusion (hended.symm.trans (hkept (by unfold Unexpired; decide +kernel)).2)

end Mainboard.Holds
