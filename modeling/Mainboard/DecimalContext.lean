import Mathlib.Algebra.Order.Floor.Ring
import Mathlib.Data.Nat.Log
import Mathlib.Data.Rat.Floor

/-! Decimal arithmetic of a fixed number of significant digits: an exact result is rounded once, to the nearest number
of so many digits, a tie to the even one. -/

namespace DecimalContext

/-- A power of ten, whichever way the exponent goes. -/
def scale (exponent : ℤ) : ℚ :=
  if 0 ≤ exponent then ((10 ^ exponent.toNat : ℕ) : ℚ) else 1 / ((10 ^ (-exponent).toNat : ℕ) : ℚ)

/-- The exponent of a number's first digit. -/
def magnitude (x : ℚ) : ℤ :=
  let guess : ℤ := (Nat.log 10 x.num.natAbs : ℤ) - (Nat.log 10 x.den : ℤ)
  if scale guess ≤ |x| then guess else guess - 1

/-- The nearest integer, the even one of two. -/
def nearestEven (x : ℚ) : ℤ :=
  let rest := x - ⌊x⌋
  if rest < 1 / 2 then ⌊x⌋ else if 1 / 2 < rest then ⌊x⌋ + 1 else if ⌊x⌋ % 2 = 0 then ⌊x⌋ else ⌊x⌋ + 1

/-- A result as a context of so many digits keeps it. -/
def rounded (digits : ℕ) (x : ℚ) : ℚ :=
  if x = 0 then 0 else
    let unit := scale (magnitude x - digits + 1)
    nearestEven (x / unit) * unit

end DecimalContext
