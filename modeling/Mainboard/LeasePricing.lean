import Mathlib.Algebra.Order.Field.Basic
import Mathlib.Tactic.FieldSimp
import Mathlib.Tactic.Linarith
import Mainboard.DecimalContext
import Mainboard.Registry

/-! What a rental is accepted at: the quote's billing mechanics, the budget, and the deadline the budget buys. The
deadline divides money by a rate in decimals of 28 digits and floors the quotient; the bill multiplies the other way.
Instants are microseconds. -/

namespace Mainboard.Pricing

open DecimalContext

/-- Seconds a release takes to stop a rented meter. -/
def releaseSeconds : ℤ := 120

def secondsPerHour : ℤ := 3600

def second : ℤ := 1000000

/-- One provider's billing mechanics, its figures as the decimals they are written in. -/
structure BillingModel where
  rateUsdHr : ℚ
  granularityS : ℤ := 1
  minimumS : ℤ := 0
  feesUsd : ℚ := 0
  deriving DecidableEq, Repr

namespace BillingModel

def billedSeconds (billing : BillingModel) (setup run drain : ℚ) : ℤ :=
  let wall := setup + run + drain
  max billing.minimumS (⌈wall / billing.granularityS⌉ * billing.granularityS)

def costUsd (billing : BillingModel) (setup run drain : ℚ) : ℚ :=
  billing.feesUsd + billing.rateUsdHr * billing.billedSeconds setup run drain / secondsPerHour

end BillingModel

/-- An offer's terms, no billing where one of its figures is not finite. -/
structure Offer where
  billing : Option BillingModel
  deriving DecidableEq, Repr

/-- A walltime's parts. -/
structure Walltime where
  hours : ℤ
  minutes : ℤ
  seconds : ℤ
  deriving DecidableEq, Repr

/-- `walltime_seconds`. -/
def Walltime.inSeconds (walltime : Walltime) : ℤ := (walltime.hours * 60 + walltime.minutes) * 60 + walltime.seconds

/-- What a job asks of a provider, no budget where the figure is not finite. -/
structure Resources where
  maxUsd : Option ℚ
  walltime : Option Walltime := none
  deriving DecidableEq, Repr

/-- The walltime asked for, nothing as none. -/
def Resources.requested (resources : Resources) : ℤ := (resources.walltime.map Walltime.inSeconds).getD 0

/-- One accepted quote with its release deadline. -/
structure Lease extends Mainboard.Lease where
  billing : BillingModel
  maxUsd : ℚ
  deriving DecidableEq, Repr

/-- Why a quote is not accepted; a deadline past the calendar raises too. -/
inductive Unpriced
  | terms
  | budget
  | overflow
  deriving DecidableEq, Repr

/-- How many billing quanta the 28-digit arithmetic says a budget buys. -/
def countedQuanta (billing : BillingModel) (maxUsd : ℚ) : ℤ :=
  let money := rounded 28 (maxUsd - billing.feesUsd)
  let available := rounded 28 (rounded 28 (money * secondsPerHour) / billing.rateUsdHr)
  ⌊rounded 28 (available / billing.granularityS)⌋

/-- `_billable_seconds`. -/
def billableSeconds (billing : BillingModel) (maxUsd : ℚ) : ℤ := countedQuanta billing maxUsd * billing.granularityS

/-- The calendar's first and last instants. -/
def calendar : ℤ × ℤ := (-62135596800000000, 253402300799999999)

/-- How long a lease that buys so many seconds runs: the release reserve kept clear, and no longer than a walltime asked
for takes. -/
def lifetime (resources : Resources) (setup seconds : ℤ) : ℤ :=
  if resources.requested ≠ 0 then min (seconds - releaseSeconds) (setup + resources.requested + releaseSeconds)
  else seconds - releaseSeconds

/-- `Lease.priced` at an instant. -/
def priced (offer : Offer) (resources : Resources) (setup now : ℤ) : Except Unpriced Lease :=
  match offer.billing, resources.maxUsd with
  | some billing, some maxUsd =>
      if billing.rateUsdHr ≤ 0 ∨ billing.feesUsd < 0 ∨ maxUsd ≤ billing.feesUsd ∨ billing.granularityS < 1 ∨
          billing.minimumS < 0 ∨ setup < 0 then .error .terms
      else
        let seconds := billableSeconds billing maxUsd
        if seconds < billing.minimumS ∨ seconds ≤ setup + resources.requested + releaseSeconds then .error .budget
        else
          let releaseBy := now + lifetime resources setup seconds * second
          if releaseBy < calendar.1 ∨ calendar.2 < releaseBy then .error .overflow
          else .ok { releaseBy, billing, maxUsd }
  | _, _ => .error .terms

/-- How many billing quanta a budget buys. -/
def exactQuanta (billing : BillingModel) (maxUsd : ℚ) : ℤ :=
  ⌊(maxUsd - billing.feesUsd) * secondsPerHour / (billing.rateUsdHr * billing.granularityS)⌋

/-- The bill of a machine from its creation to an instant, the release allowance included. -/
def billAt (billing : BillingModel) (created ended : ℤ) : ℚ :=
  billing.costUsd 0 (((ended - created : ℤ) : ℚ) / second) releaseSeconds

section Billing

variable {billing : BillingModel} {maxUsd wall : ℚ}

/-- A wall time is billed within a budget exactly where the provider's minimum is and the wall time fits the quanta the
budget buys. -/
theorem costUsd_le_iff (hrate : 0 < billing.rateUsdHr) (hquantum : 0 < billing.granularityS) (setup run drain : ℚ) :
    billing.costUsd setup run drain ≤ maxUsd ↔
      billing.minimumS * billing.rateUsdHr ≤ (maxUsd - billing.feesUsd) * secondsPerHour ∧
        setup + run + drain ≤ (exactQuanta billing maxUsd * billing.granularityS : ℤ) := by
  have hhour : (0 : ℚ) < secondsPerHour := by norm_num [secondsPerHour]
  have hg : (0 : ℚ) < billing.granularityS := Int.cast_pos.mpr hquantum
  have hunit : 0 < billing.rateUsdHr * billing.granularityS := mul_pos hrate hg
  have hcost : billing.costUsd setup run drain ≤ maxUsd ↔
      (billing.billedSeconds setup run drain : ℚ) * billing.rateUsdHr ≤
        (maxUsd - billing.feesUsd) * secondsPerHour := by
    unfold BillingModel.costUsd
    rw [← le_sub_iff_add_le', div_le_iff₀ hhour, mul_comm billing.rateUsdHr]
  have hquanta : ∀ quanta : ℤ, ((quanta * billing.granularityS : ℤ) : ℚ) * billing.rateUsdHr ≤
      (maxUsd - billing.feesUsd) * secondsPerHour ↔ quanta ≤ exactQuanta billing maxUsd := by
    intro quanta
    unfold exactQuanta
    rw [Int.le_floor, le_div_iff₀ hunit, Int.cast_mul, mul_assoc, mul_comm (billing.granularityS : ℚ)]
  rw [hcost]
  unfold BillingModel.billedSeconds
  rw [Int.cast_max, max_mul_of_nonneg _ _ hrate.le, max_le_iff, hquanta, Int.ceil_le, div_le_iff₀ hg, Int.cast_mul]

theorem costUsd_mono (hrate : 0 ≤ billing.rateUsdHr) (hquantum : 0 < billing.granularityS) {run longer : ℚ}
    (h : run ≤ longer) (setup drain : ℚ) : billing.costUsd setup run drain ≤ billing.costUsd setup longer drain := by
  have hg : (0 : ℚ) < billing.granularityS := Int.cast_pos.mpr hquantum
  have hhour : (0 : ℚ) < secondsPerHour := by norm_num [secondsPerHour]
  unfold BillingModel.costUsd BillingModel.billedSeconds
  dsimp only
  gcongr

end Billing

section Priced

variable {offer : Offer} {resources : Resources} {setup now : ℤ} {lease : Lease}

/-- What an accepted quote met, and the deadline it got. -/
structure Accepted (resources : Resources) (setup now : ℤ) (lease : Lease) : Prop where
  rate : 0 < lease.billing.rateUsdHr
  quantum : 0 < lease.billing.granularityS
  minimum : lease.billing.minimumS ≤ billableSeconds lease.billing lease.maxUsd
  room : setup + resources.requested + releaseSeconds < billableSeconds lease.billing lease.maxUsd
  releaseBy : lease.releaseBy =
    now + lifetime resources setup (billableSeconds lease.billing lease.maxUsd) * second

theorem accepted_of_priced (h : priced offer resources setup now = .ok lease) : Accepted resources setup now lease := by
  unfold priced at h
  split at h
  · dsimp only at h
    split at h
    · cases h
    · rename_i hterms
      split at h
      · cases h
      · rename_i hbudget
        split at h
        · cases h
        · obtain rfl := Except.ok.inj h
          simp only [not_or, not_le, not_lt] at hterms hbudget
          exact ⟨hterms.1, hterms.2.2.2.1, hbudget.1, hbudget.2, rfl⟩
  · cases h

/-- What a lease was accepted for: no bill past its budget wherever creation falls after pricing, and time for the setup
and the walltime where one was asked. -/
structure Keeps (resources : Resources) (setup now : ℤ) (lease : Lease) : Prop where
  bill : ∀ created, now ≤ created → billAt lease.billing created lease.releaseBy ≤ lease.maxUsd
  time : resources.walltime ≠ none → now + (setup + resources.requested) * second ≤ lease.releaseBy

/-- The roundings count no quantum the budget does not buy, or the walltime asks for less than it does. -/
def Sparing (resources : Resources) (setup : ℤ) (billing : BillingModel) (maxUsd : ℚ) : Prop :=
  countedQuanta billing maxUsd ≤ exactQuanta billing maxUsd ∨
    resources.requested ≠ 0 ∧
      billing.minimumS * billing.rateUsdHr ≤ (maxUsd - billing.feesUsd) * secondsPerHour ∧
        setup + resources.requested + 2 * releaseSeconds ≤ exactQuanta billing maxUsd * billing.granularityS

/-- The bill up to an instant, in whole seconds from creation. -/
theorem billAt_seconds (billing : BillingModel) (created seconds : ℤ) :
    billAt billing created (created + seconds * second) = billing.costUsd 0 seconds releaseSeconds := by
  have hsecond : (second : ℚ) ≠ 0 := by norm_num [second]
  unfold billAt
  rw [add_sub_cancel_left, Int.cast_mul, mul_div_cancel_right₀ _ hsecond]

theorem billAt_le (hrate : 0 ≤ lease.billing.rateUsdHr) (hquantum : 0 < lease.billing.granularityS) {created later : ℤ}
    (h : created ≤ later) (ended : ℤ) : billAt lease.billing later ended ≤ billAt lease.billing created ended := by
  have hsecond : (0 : ℚ) < second := by norm_num [second]
  have hless : ((ended - later : ℤ) : ℚ) ≤ ((ended - created : ℤ) : ℚ) := Int.cast_le.mpr (by omega)
  exact costUsd_mono hrate hquantum (div_le_div_of_nonneg_right hless hsecond.le) 0 _

/-- A deadline of so many seconds is within budget exactly where the minimum and the quanta up to its release are. -/
theorem deadline_le_iff (hrate : 0 < lease.billing.rateUsdHr) (hquantum : 0 < lease.billing.granularityS)
    (created seconds : ℤ) :
    billAt lease.billing created (created + seconds * second) ≤ lease.maxUsd ↔
      lease.billing.minimumS * lease.billing.rateUsdHr ≤ (lease.maxUsd - lease.billing.feesUsd) * secondsPerHour ∧
        seconds + releaseSeconds ≤ exactQuanta lease.billing lease.maxUsd * lease.billing.granularityS := by
  rw [billAt_seconds, costUsd_le_iff hrate hquantum, zero_add, ← Int.cast_add, Int.cast_le]

/-- Within the quanta the budget buys, the provider's minimum is too. -/
theorem minimum_le (hrate : 0 < lease.billing.rateUsdHr) (hquantum : 0 < lease.billing.granularityS)
    (h : lease.billing.minimumS ≤ exactQuanta lease.billing lease.maxUsd * lease.billing.granularityS) :
    lease.billing.minimumS * lease.billing.rateUsdHr ≤ (lease.maxUsd - lease.billing.feesUsd) * secondsPerHour := by
  have hunit : 0 < lease.billing.rateUsdHr * lease.billing.granularityS := mul_pos hrate (Int.cast_pos.mpr hquantum)
  have hfloor : (exactQuanta lease.billing lease.maxUsd : ℚ) * (lease.billing.rateUsdHr * lease.billing.granularityS) ≤
      (lease.maxUsd - lease.billing.feesUsd) * secondsPerHour := (le_div_iff₀ hunit).mp (Int.floor_le _)
  have hcast : (lease.billing.minimumS : ℚ) ≤ exactQuanta lease.billing lease.maxUsd * lease.billing.granularityS := by
    exact_mod_cast h
  calc lease.billing.minimumS * lease.billing.rateUsdHr
      ≤ exactQuanta lease.billing lease.maxUsd * lease.billing.granularityS * lease.billing.rateUsdHr := by gcongr
    _ = exactQuanta lease.billing lease.maxUsd * (lease.billing.rateUsdHr * lease.billing.granularityS) := by ring
    _ ≤ (lease.maxUsd - lease.billing.feesUsd) * secondsPerHour := hfloor

theorem Accepted.time (h : Accepted resources setup now lease) :
    now + (setup + resources.requested) * second ≤ lease.releaseBy := by
  have hroom := h.room
  have hless : setup + resources.requested ≤
      lifetime resources setup (billableSeconds lease.billing lease.maxUsd) := by
    unfold lifetime releaseSeconds
    unfold releaseSeconds at hroom
    split_ifs <;> omega
  rw [h.releaseBy]
  have hsecond : (0 : ℤ) ≤ second := by decide
  gcongr

theorem Accepted.keeps_iff (h : Accepted resources setup now lease) :
    Keeps resources setup now lease ↔ Sparing resources setup lease.billing lease.maxUsd := by
  have hbill : Keeps resources setup now lease ↔ billAt lease.billing now lease.releaseBy ≤ lease.maxUsd :=
    ⟨fun hkeeps => hkeeps.bill now le_rfl,
      fun hbill => ⟨fun created hcreated => (billAt_le h.rate.le h.quantum hcreated _).trans hbill, fun _ => h.time⟩⟩
  rw [hbill, h.releaseBy, deadline_le_iff h.rate h.quantum]
  unfold Sparing lifetime
  have hminimum := h.minimum
  have hroom := h.room
  have hquantum := h.quantum
  have hmin := minimum_le h.rate h.quantum
  have hmono : countedQuanta lease.billing lease.maxUsd ≤ exactQuanta lease.billing lease.maxUsd ↔
      billableSeconds lease.billing lease.maxUsd ≤ exactQuanta lease.billing lease.maxUsd * lease.billing.granularityS :=
    (mul_le_mul_iff_left₀ hquantum).symm
  rw [hmono]
  by_cases hasked : resources.requested = 0
  · rw [if_neg (not_not.mpr hasked)]
    constructor
    · exact fun hboth => Or.inl (by omega)
    · rintro (hcounted | hasks)
      · exact ⟨hmin (by omega), by omega⟩
      · exact absurd hasked hasks.1
  · rw [if_pos hasked]
    constructor
    · rintro ⟨hleast, hfits⟩
      by_cases hcounted : billableSeconds lease.billing lease.maxUsd ≤
          exactQuanta lease.billing lease.maxUsd * lease.billing.granularityS
      · exact Or.inl hcounted
      · exact Or.inr ⟨hasked, hleast, by unfold releaseSeconds at hfits ⊢; omega⟩
    · rintro (hcounted | ⟨-, hleast, hfits⟩)
      · exact ⟨hmin (by omega), by unfold releaseSeconds; omega⟩
      · exact ⟨hleast, by unfold releaseSeconds at hfits ⊢; omega⟩

/-- An accepted lease keeps its budget exactly where the 28-digit arithmetic counted no quantum too many, or a walltime
asks for fewer than it counted. -/
theorem priced_keeps_iff (offer : Offer) (resources : Resources) (setup now : ℤ) :
    (∀ lease, priced offer resources setup now = .ok lease → Keeps resources setup now lease) ↔
      ∀ lease, priced offer resources setup now = .ok lease → Sparing resources setup lease.billing lease.maxUsd :=
  forall₂_congr fun _ hpriced => (accepted_of_priced hpriced).keeps_iff

/-- Fees the subtraction rounds away buy a second of their own. -/
theorem priced_keeps_fails : ¬ ∀ (offer : Offer) (resources : Resources) (setup now : ℤ) (lease : Lease),
    priced offer resources setup now = .ok lease → Keeps resources setup now lease := by
  intro hall
  have hpriced : priced ⟨some ⟨1, 1, 0, 1 / 10 ^ 30⟩⟩ ⟨some 1, none⟩ 0 0 =
      .ok ⟨⟨3480000000⟩, ⟨1, 1, 0, 1 / 10 ^ 30⟩, 1⟩ := by decide +kernel
  have hbill := (hall _ _ _ _ _ hpriced).bill 0 le_rfl
  have hover : ¬ billAt ⟨1, 1, 0, 1 / 10 ^ 30⟩ 0 3480000000 ≤ 1 := by decide +kernel
  exact hover hbill

end Priced

end Mainboard.Pricing
