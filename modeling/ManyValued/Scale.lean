import ManyValued.Error

/-! Rational coefficients and the scale that clears their denominators. A scale that indexes `δ` is
a positive number below `2 ^ 32`. -/

namespace ManyValued

def ratio (numerator denominator : Int) : Except Error Rat :=
  if denominator = 0 then .error .zeroDenominator else .ok (Rat.divInt numerator denominator)

/-- The least common multiple of the denominators; 1 for no values. -/
def commonDenominator (values : List Rat) : Nat := values.foldl (fun n q => n.lcm q.den) 1

def scaleOf (weights : List Rat) (bias : Rat) : Except Error UInt32 :=
  let n := commonDenominator (weights ++ [bias])
  if n < UInt32.size then .ok (UInt32.ofNat n) else .error (.scaleOverflow n)

/-- `value * scale`, which must be an integer. -/
def scaled (value : Rat) (scale : UInt32) : Except Error Int :=
  let product := value * scale.toNat
  if product.den = 1 then .ok product.num else .error (.notMultiple value scale)

structure Scale where
  val : UInt32
  positive : 0 < val
  deriving DecidableEq

def Scale.ofUInt32 (n : UInt32) : Except Error Scale :=
  if h : 0 < n then .ok ⟨n, h⟩ else .error .zeroScale

end ManyValued
