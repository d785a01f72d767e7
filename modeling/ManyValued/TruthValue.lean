import ManyValued.Binary64.Rounding

/-! What truth values are made of. The truth functions and the networks are written once, over any
type with this arithmetic: binary64 numbers for computing, rationals for exact statements. -/

namespace ManyValued

class TruthValue (α : Type) extends Add α, Sub α, Mul α, Div α where
  zero : α
  one : α
  ofRat : Rat → α
  /-- The lesser of two values; of a number and a value that is none, the number. -/
  meet : α → α → α
  join : α → α → α
  less : α → α → Bool
  same : α → α → Bool
  /-- Where a sum starts: what adding leaves every value as it is. -/
  emptySum : α

namespace TruthValue

variable {α : Type} [TruthValue α]

def truth (b : Bool) : α := if b then one else zero

def clip (x : α) : α := meet (join x zero) one

def sum (xs : List α) : α := xs.foldl (· + ·) emptySum

end TruthValue

instance : TruthValue Rat where
  zero := 0
  one := 1
  ofRat q := q
  meet x y := if x ≤ y then x else y
  join x y := if x ≤ y then y else x
  less x y := x < y
  same x y := x == y
  emptySum := 0

/-- Adding to `-0.0` keeps the sign of a zero. -/
instance : TruthValue Float where
  zero := 0.0
  one := 1.0
  ofRat := Binary64.ofRat
  meet x y := if x.isNaN then y else if y < x then y else x
  join x y := if x.isNaN then y else if x < y then y else x
  less x y := x < y
  same x y := x == y
  emptySum := -0.0

/-- The clipped identity `min (max x 0) 1`, the activation of a neuron. -/
def activation (x : Float) : Float := TruthValue.clip x

end ManyValued
