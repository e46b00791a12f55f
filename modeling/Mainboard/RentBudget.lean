import Mathlib.Algebra.Field.Rat
import Mathlib.Algebra.Order.Ring.NNRat
import Mainboard.GrantStore
import Mainboard.Runs
import Mainboard.SpendingWindow

/-! The spend line of the policy: a rental is checked against what the ledger shows billed over the trailing
window, its own budget included, and past the line it goes ahead under a grant only. The ledger shows a rental
once a pass recorded its settlement, at the rate its estimate quoted, so the line bounds what rentals are billed in
the runs whose checks leave room for what the rentals already let through are or may be billed. -/

namespace Mainboard.Policy
open Runs Windows

/-- What rentals may cost over a trailing window of days. -/
structure Budget where
  usd : ℚ≥0
  days : ℕ := 7
  positive : 0 < usd
  lasting : 0 < days

def secondsPerDay : ℕ := 86400

def secondsPerHour : ℕ := 3600

namespace Budget

/-- Whether a rental budgeted at `max` still fits beside what was billed already. -/
def allows (budget : Budget) (spent max : ℚ≥0) : Bool := decide (spent + max ≤ budget.usd)

/-- The moment the window that ends now reaches back to. -/
def since (budget : Budget) (now : ℤ) : ℤ := now - budget.days * secondsPerDay

end Budget

/-- One row of the lake's `costs`, as far as a check reads it. -/
structure Observation where
  submitted : ℤ
  billed : ℚ≥0
  deriving DecidableEq

/-- An amount at four decimals, of two as near the even one. -/
def rounded (usd : ℚ≥0) : ℚ≥0 :=
  let scaled := usd * 10000
  let below := scaled.num / scaled.den
  let rest := 2 * (scaled.num % scaled.den)
  (if scaled.den < rest ∨ rest = scaled.den ∧ below % 2 = 1 then below + 1 else below : ℕ) / 10000

/-- What a pass takes a rental's bill for: the rate its estimate quoted, over the time since it was submitted. -/
def actual (rate : ℚ≥0) (opened ended : ℤ) : ℚ≥0 := rate * (ended - opened).toNat / secondsPerHour

/-- What the ledger shows billed to rentals submitted since a moment. -/
def spent (since : ℤ) (ledger : List Observation) : ℚ≥0 :=
  ((ledger.filter fun row => decide (since ≤ row.submitted)).map Observation.billed).sum

/-- What a check answers about a rental whose provider has a cap. -/
inductive Leave where
  | within
  | granted
  | refused
  deriving DecidableEq

/-- The check: the budget line, and past it a grant on the provider. -/
def rent (budget : Budget) (ledger : List Observation) (grants : Grants) (provider : Text) (max : ℚ≥0) (now : ℤ) :
    Leave :=
  if budget.allows (spent (budget.since now) ledger) max then .within
  else if (grants.covering .rent provider now).isSome then .granted
  else .refused

/-- How far a rental let through has got. -/
inductive Course where
  | asked
  | dropped
  | running (submitted : ℤ)
  | settled (submitted : ℤ) (usd : ℚ≥0)
  | recorded (submitted : ℤ) (usd : ℚ≥0)
  deriving DecidableEq

namespace Course

def submitted : Course → Option ℤ
  | asked => none
  | dropped => none
  | running submitted => some submitted
  | settled submitted _ => some submitted
  | recorded submitted _ => some submitted

/-- What the rental was billed so far: a bill comes whole, when it settles. -/
def billed : Course → ℚ≥0
  | settled _ usd => usd
  | recorded _ usd => usd
  | _ => 0

end Course

/-- A rental a check let through: what it was checked with, when, and how. -/
structure Rental where
  id : ℕ
  checked : ℤ
  max : ℚ≥0
  granted : Bool
  course : Course
  deriving DecidableEq

/-- What rentals spend: the clock, the ledger, and the rentals let through, newest first. -/
structure Spending where
  now : ℤ
  ledger : List Observation := []
  rentals : List Rental := []

/-- What happens next: a check, or a step of a rental let through. The grants a check reads are the file's as it
then stands. -/
inductive Move where
  | wait (seconds : ℕ)
  | check (provider : Text) (max : ℚ≥0) (grants : Grants)
  | submit (id : ℕ)
  /-- The provider refused it, or its dispatch died before the rental. -/
  | drop (id : ℕ)
  | settle (id : ℕ) (usd : ℚ≥0)
  /-- A pass finds it settled and records it, by the rate that was quoted for it, zero where none was. -/
  | record (id : ℕ) (rate : ℚ≥0)
  deriving DecidableEq

namespace Rental

/-- The rental is submitted, refused, settled or recorded, where it has got that far. A bill is within what the
rental was checked with. -/
def moved (rental : Rental) (now : ℤ) : Move → Rental
  | .submit id => match rental.course with
      | .asked => if rental.id = id then { rental with course := .running now } else rental
      | _ => rental
  | .drop id => match rental.course with
      | .asked => if rental.id = id then { rental with course := .dropped } else rental
      | _ => rental
  | .settle id usd => match rental.course with
      | .running submitted =>
          if rental.id = id ∧ usd ≤ rental.max then { rental with course := .settled submitted usd }
          else rental
      | _ => rental
  | .record id _ => match rental.course with
      | .settled submitted usd =>
          if rental.id = id then { rental with course := .recorded submitted usd } else rental
      | _ => rental
  | _ => rental

/-- The row a recording writes about the rental. -/
def observed (id : ℕ) (rate : ℚ≥0) (now : ℤ) (rental : Rental) : Option Observation :=
  match rental.course with
  | .settled submitted _ => if rental.id = id then some ⟨submitted, rounded (actual rate submitted now)⟩ else none
  | _ => none

end Rental

/-- One step of the machine. -/
def spend (budget : Budget) (s : Spending) (label : Move) : Spending :=
  match label with
  | .wait seconds => { s with now := s.now + seconds }
  | .check provider max grants =>
      match rent budget s.ledger grants provider max s.now with
      | .within => { s with rentals := ⟨s.rentals.length, s.now, max, false, .asked⟩ :: s.rentals }
      | .granted => { s with rentals := ⟨s.rentals.length, s.now, max, true, .asked⟩ :: s.rentals }
      | .refused => s
  | .record id rate => { s with ledger := s.ledger ++ s.rentals.filterMap (Rental.observed id rate s.now),
                                rentals := s.rentals.map fun rental => rental.moved s.now label }
  | _ => { s with rentals := s.rentals.map fun rental => rental.moved s.now label }

/-- The rental was submitted in the window that starts then. -/
def Rental.inWindow (budget : Budget) (start : ℤ) (rental : Rental) : Bool :=
  rental.course.submitted.any fun submitted =>
    decide (start ≤ submitted ∧ submitted ≤ start + budget.days * secondsPerDay)

/-- What was billed to the rentals submitted in the window. -/
def Spending.billed (s : Spending) (budget : Budget) (start : ℤ) : ℚ≥0 :=
  ((s.rentals.filter (Rental.inWindow budget start)).map fun rental => rental.course.billed).sum

/-- Rentals of no window without a granted one were billed past the line. -/
def Bounded (budget : Budget) (s : Spending) : Prop :=
  ∀ start, (∀ rental ∈ s.rentals, rental.inWindow budget start → rental.granted = false) →
    s.billed budget start ≤ budget.usd

/-- What a rental let through on the line weighs since a moment: what it may be billed, and its bill once it has one. -/
def Rental.weight (since : ℤ) (rental : Rental) : ℚ≥0 :=
  if rental.granted then 0
  else match rental.course with
    | .asked => rental.max
    | .dropped => 0
    | .running submitted => if since ≤ submitted then rental.max else 0
    | .settled submitted usd => if since ≤ submitted then usd else 0
    | .recorded submitted usd => if since ≤ submitted then usd else 0

/-- A check that passes on the line by what the ledger shows leaves room for what the rentals before it weigh. -/
def roomy (budget : Budget) (s : Spending) : Move → Bool
  | .check _ max _ =>
      !budget.allows (spent (budget.since s.now) s.ledger) max ||
        budget.allows (s.rentals.map (Rental.weight (budget.since s.now))).sum max
  | _ => true

/-- A rental is submitted after its check and billed within what it was checked with. -/
structure Rental.Lawful (now : ℤ) (rental : Rental) : Prop where
  checked : rental.checked ≤ now
  submitted : ∀ submitted ∈ rental.course.submitted, rental.checked ≤ submitted
  billed : rental.course.billed ≤ rental.max

/-- What the machine keeps at every roomy step: each rental let through on the line left room for the older ones. -/
structure Kept (budget : Budget) (s : Spending) : Prop where
  fits : Fits (fun newer older => older.weight (budget.since newer.checked)) Rental.max
    (fun rental => rental.granted = false) budget.usd s.rentals
  lawful : ∀ rental ∈ s.rentals, rental.Lawful s.now

/-- The ways a rental's course goes on at a moment. -/
inductive Course.Goes (now : ℤ) (max : ℚ≥0) : Course → Course → Prop
  | stay (course : Course) : Goes now max course course
  | submit : Goes now max .asked (.running now)
  | drop : Goes now max .asked .dropped
  | settle (submitted : ℤ) (usd : ℚ≥0) (hbill : usd ≤ max) : Goes now max (.running submitted) (.settled submitted usd)
  | record (submitted : ℤ) (usd : ℚ≥0) : Goes now max (.settled submitted usd) (.recorded submitted usd)

open Course.Goes

/-- A move changes the course of a rental and nothing else of it. -/
theorem moved_goes (rental : Rental) (now : ℤ) (label : Move) :
    ∃ course, rental.moved now label = { rental with course } ∧
      Course.Goes now rental.max rental.course course := by
  obtain ⟨id, checked, max, granted, course⟩ := rental
  cases label with
  | wait | check => exact ⟨course, rfl, stay _⟩
  | submit id' =>
      cases course with
      | asked =>
          by_cases hid : id = id'
          · exact ⟨_, if_pos hid, submit⟩
          · exact ⟨_, if_neg hid, stay _⟩
      | dropped | running | settled | recorded => exact ⟨_, rfl, stay _⟩
  | drop id' =>
      cases course with
      | asked =>
          by_cases hid : id = id'
          · exact ⟨_, if_pos hid, drop⟩
          · exact ⟨_, if_neg hid, stay _⟩
      | dropped | running | settled | recorded => exact ⟨_, rfl, stay _⟩
  | settle id' usd =>
      cases course with
      | running submitted =>
          by_cases hboth : id = id' ∧ usd ≤ max
          · exact ⟨_, if_pos hboth, settle _ _ hboth.2⟩
          · exact ⟨_, if_neg hboth, stay _⟩
      | asked | dropped | settled | recorded => exact ⟨_, rfl, stay _⟩
  | record id' rate =>
      cases course with
      | settled submitted usd =>
          by_cases hid : id = id'
          · exact ⟨_, if_pos hid, record _ _⟩
          · exact ⟨_, if_neg hid, stay _⟩
      | asked | dropped | running | recorded => exact ⟨_, rfl, stay _⟩

/-- A rental weighs no more as it goes on. -/
theorem weight_goes {since now : ℤ} {rental : Rental} {course : Course}
    (h : Course.Goes now rental.max rental.course course) :
    Rental.weight since { rental with course } ≤ rental.weight since := by
  obtain ⟨id, checked, max, granted, before⟩ := rental
  cases granted with
  | true => exact le_refl _
  | false =>
      dsimp only at h
      unfold Rental.weight
      dsimp only
      rw [if_neg (by decide), if_neg (by decide)]
      cases h with
      | stay => exact le_refl _
      | submit =>
          dsimp only
          split
          · exact le_refl _
          · exact zero_le
      | drop => exact zero_le
      | settle submitted usd hbill =>
          dsimp only
          split
          · exact hbill
          · exact le_refl _
      | record submitted usd => exact le_refl _

theorem Rental.Lawful.goes {now : ℤ} {rental : Rental} {course : Course} (h : rental.Lawful now)
    (hgoes : Course.Goes now rental.max rental.course course) : Rental.Lawful now { rental with course } := by
  obtain ⟨id, checked, max, granted, before⟩ := rental
  obtain ⟨hchecked, hsubmitted, hbilled⟩ := h
  dsimp only at hgoes hchecked hsubmitted hbilled
  cases hgoes with
  | stay => exact ⟨hchecked, hsubmitted, hbilled⟩
  | submit => exact ⟨hchecked, fun submitted hin => Option.some.inj hin ▸ hchecked, zero_le⟩
  | drop => exact ⟨hchecked, fun submitted hin => (by cases hin), zero_le⟩
  | settle submitted usd hbill => exact ⟨hchecked, hsubmitted, hbill⟩
  | record submitted usd => exact ⟨hchecked, hsubmitted, hbilled⟩

/-! ### One step -/

theorem moved_max (rental : Rental) (now : ℤ) (label : Move) : (rental.moved now label).max = rental.max := by
  obtain ⟨course, hcourse, -⟩ := moved_goes rental now label
  rw [hcourse]

/-- Every rental moved on keeps its room. -/
theorem Kept.moved_fits {budget : Budget} {s : Spending} (h : Kept budget s) (label : Move) :
    Fits (fun newer older => older.weight (budget.since newer.checked)) Rental.max
      (fun rental => rental.granted = false) budget.usd (s.rentals.map fun rental => rental.moved s.now label) := by
  refine h.fits.map _ (fun rental hbound => ?_) (fun rental => moved_max rental s.now label)
    fun newer _ older _ => ?_
  · obtain ⟨course, hcourse, -⟩ := moved_goes rental s.now label
    rw [hcourse] at hbound
    exact hbound
  · obtain ⟨course, hcourse, -⟩ := moved_goes newer s.now label
    obtain ⟨course', hcourse', hgoes⟩ := moved_goes older s.now label
    rw [hcourse, hcourse']
    exact weight_goes hgoes

theorem Kept.moved_lawful {budget : Budget} {s : Spending} (h : Kept budget s) (label : Move) :
    ∀ rental ∈ s.rentals.map (fun rental => rental.moved s.now label), rental.Lawful s.now := by
  intro rental' hrental'
  obtain ⟨rental, hrental, rfl⟩ := List.mem_map.mp hrental'
  obtain ⟨course, hcourse, hgoes⟩ := moved_goes rental s.now label
  rw [hcourse]
  exact (h.lawful rental hrental).goes hgoes

/-- A move of the rentals, whatever the ledger is then. -/
theorem Kept.moved {budget : Budget} {s : Spending} (h : Kept budget s) (label : Move) (ledger : List Observation) :
    Kept budget { s with ledger, rentals := s.rentals.map fun rental => rental.moved s.now label } :=
  ⟨h.moved_fits label, h.moved_lawful label⟩

/-- A rental let through: on the line it left room, under a grant it is bound to nothing. -/
theorem Kept.enter {budget : Budget} {s : Spending} (h : Kept budget s) {max : ℚ≥0} {granted : Bool}
    (hroom : granted = false →
      (s.rentals.map (Rental.weight (budget.since s.now))).sum + max ≤ budget.usd) :
    Kept budget { s with rentals := ⟨s.rentals.length, s.now, max, granted, .asked⟩ :: s.rentals } := by
  refine ⟨⟨hroom, h.fits⟩, fun rental hrental => ?_⟩
  rcases List.mem_cons.mp hrental with rfl | hold
  · exact ⟨le_refl _, fun submitted hin => (by cases hin), zero_le⟩
  · exact h.lawful rental hold

theorem Kept.check {budget : Budget} {s : Spending} (h : Kept budget s) {provider : Text} {max : ℚ≥0}
    {grants : Grants} (hroomy : roomy budget s (.check provider max grants) = true) :
    Kept budget (spend budget s (.check provider max grants)) := by
  dsimp only [spend]
  unfold rent
  by_cases hallows : budget.allows (spent (budget.since s.now) s.ledger) max = true
  · rw [if_pos hallows]
    refine h.enter fun _ => ?_
    dsimp only [roomy] at hroomy
    rw [hallows, Bool.not_true, Bool.false_or] at hroomy
    exact of_decide_eq_true hroomy
  · rw [if_neg hallows]
    split
    · rename_i hanswer
      split at hanswer <;> cases hanswer
    · exact h.enter fun hgranted => (by cases hgranted)
    · exact h

/-- A roomy step keeps the room of every rental let through on the line. -/
theorem spend_kept (budget : Budget) (s : Spending) (label : Move) (h : Kept budget s)
    (hroomy : roomy budget s label = true) : Kept budget (spend budget s label) := by
  cases label with
  | wait seconds =>
      refine ⟨h.fits, fun rental hrental => ?_⟩
      obtain ⟨hchecked, hsubmitted, hbilled⟩ := h.lawful rental hrental
      exact ⟨hchecked.trans (by dsimp only [spend]; omega), hsubmitted, hbilled⟩
  | check provider max grants => exact h.check hroomy
  | submit id => exact h.moved _ s.ledger
  | drop id => exact h.moved _ s.ledger
  | settle id usd => exact h.moved _ s.ledger
  | record id rate => exact h.moved _ _

/-- The newest rental of a window was checked within the window, so it weighed each of the others at its bill. -/
theorem Kept.bounded {budget : Budget} {s : Spending} (h : Kept budget s) : Bounded budget s := by
  intro start hungranted
  refine h.fits.sum_le zero_le (Rental.inWindow budget start) hungranted
    (fun rental hrental _ => (h.lawful rental hrental).billed) (fun _ _ _ _ => zero_le) ?_
  intro newer hnewer hnewerIn older holder holderIn
  have hfree : older.granted = false := hungranted older holder holderIn
  unfold Rental.inWindow at hnewerIn holderIn
  rw [Option.any_eq_true] at hnewerIn holderIn
  obtain ⟨late, hlate, hlateIn⟩ := hnewerIn
  obtain ⟨early, hearly, hearlyIn⟩ := holderIn
  have hafter : newer.checked ≤ late := (h.lawful newer hnewer).submitted late hlate
  have hreaches : budget.since newer.checked ≤ early := by
    have hends := (of_decide_eq_true hlateIn).2
    have hstarts := (of_decide_eq_true hearlyIn).1
    unfold Budget.since
    omega
  unfold Rental.weight
  rw [hfree, if_neg (by decide)]
  obtain ⟨id, checked, max, granted, course⟩ := older
  cases course with
  | asked | dropped | running => exact zero_le
  | settled submitted usd =>
      obtain rfl : submitted = early := Option.some.inj hearly
      dsimp only
      rw [if_pos hreaches]
      exact le_refl _
  | recorded submitted usd =>
      obtain rfl : submitted = early := Option.some.inj hearly
      dsimp only
      rw [if_pos hreaches]
      exact le_refl _

/-- In every run whose checks leave room for what the rentals let through are or may be billed, whatever was recorded
of them, no window without a granted rental is billed past the line. -/
theorem rent_bounded (budget : Budget) (now : ℤ) (labels : List Move)
    (hroomy : Each (spend budget) (fun s label => roomy budget s label = true) { now } labels) :
    Always (spend budget) (Bounded budget) { now } labels := by
  have hkept : Kept budget { now } := ⟨trivial, fun _ hrental => absurd hrental List.not_mem_nil⟩
  exact always_mono (fun _ h => h.bounded) (invariant_always (spend_kept budget) hkept hroomy)

/-- Ten dollars a week. -/
def weekly : Budget where
  usd := 10
  positive := by decide +kernel
  lasting := by decide

/-- A rental of six is settled and recorded at four before one of three is checked beside it, and one of seven
refused. -/
def recordedFirst : List Move :=
  [.check "vast".toList 6 {}, .submit 0, .wait 3600, .settle 0 6, .record 0 4, .check "vast".toList 3 {}, .submit 1,
    .settle 1 3, .record 1 2, .check "vast".toList 7 {}]

theorem rent_bounded_recordedFirst : Always (spend weekly) (Bounded weekly) { now := 0 } recordedFirst :=
  rent_bounded weekly 0 recordedFirst (by decide +kernel)

/-- A second rental of six is checked while the first is under way. -/
def besideAnother : List Move :=
  [.check "vast".toList 6 {}, .check "vast".toList 6 {}, .submit 0, .submit 1, .wait 3600, .settle 0 6, .settle 1 6,
    .record 0 6, .record 1 6]

/-- A rental of six for which nothing was quoted is settled and recorded, and one of six checked behind it. -/
def unquoted : List Move :=
  [.check "vast".toList 6 {}, .submit 0, .wait 3600, .settle 0 6, .record 0 0, .check "vast".toList 6 {}, .submit 1,
    .settle 1 6]

/-- Twelve dollars are billed in one window where two rentals are checked one beside the other, and where the first
is in the ledger with nothing billed. -/
theorem rent_bounded_fails : ¬ Always (spend weekly) (Bounded weekly) { now := 0 } besideAnother ∧
    ¬ Always (spend weekly) (Bounded weekly) { now := 0 } unquoted := by
  constructor
  · intro hclaim
    have hbilled := hclaim besideAnother List.prefix_rfl 0 (by decide +kernel)
    exact absurd hbilled (by decide +kernel)
  · intro hclaim
    have hbilled := hclaim unquoted List.prefix_rfl 0 (by decide +kernel)
    exact absurd hbilled (by decide +kernel)

end Mainboard.Policy
