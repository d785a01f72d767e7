/-! Rationals as binary64 numbers. A positive quotient is counted in units of the last place of its
binade, rounded to the nearest count with ties to even; the units below the least binade are those
of the subnormal numbers, and what exceeds the greatest binade is infinite. -/

namespace ManyValued.Binary64

def nearestEven (num den : Nat) : Nat :=
  let q := num / den
  let r := num % den
  if 2 * r > den ∨ (2 * r = den ∧ q % 2 = 1) then q + 1 else q

/-- `num / den` in units of `2 ^ exponent`, as numerator and denominator. -/
def inUnits (num den : Nat) (exponent : Int) : Nat × Nat :=
  (num * Nat.pow 2 (-exponent).toNat, den * Nat.pow 2 exponent.toNat)

/-- The greatest `e` with `2 ^ e ≤ num / den`. -/
def binade (num den : Nat) : Int :=
  let e : Int := (num.log2 : Int) - den.log2
  let (n, d) := inUnits num den e
  if n < d then e - 1 else e

def infinityBits : Nat := 2047 * Nat.pow 2 52

def signBit : Nat := Nat.pow 2 63

/-- The bits of the number nearest to a positive quotient. The leading one of a significand is
added into the exponent field, so a significand that rounds up to the next binade carries. -/
def magnitudeBits (num den : Nat) : Nat :=
  let unit := max (binade num den - 52) (-1074)
  let (n, d) := inUnits num den unit
  min ((unit + 1074).toNat * Nat.pow 2 52 + nearestEven n d) infinityBits

def bits (q : Rat) : Nat :=
  if q.num = 0 then 0
  else (if q.num < 0 then signBit else 0) + magnitudeBits q.num.natAbs q.den

end ManyValued.Binary64

namespace ManyValued

def Binary64.ofRat (q : Rat) : Float := Float.ofBits (UInt64.ofNat (Binary64.bits q))

end ManyValued
