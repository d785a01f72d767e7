import ManyValued.Binary64.Rounding

/-! Writing numbers with as few digits as read back to them. Of the decimals with that many digits
the one nearest to the number is written, and the greater if two are equally near. -/

namespace ManyValued.Binary64

/-- A positive finite number as `significand * 2 ^ exponent`. -/
structure Dyadic where
  significand : Nat
  exponent : Int

def Dyadic.ofBits (n : Nat) : Dyadic :=
  let field : Nat := n / Nat.pow 2 52
  let fraction : Nat := n % Nat.pow 2 52
  if field = 0 then ⟨fraction, -1074⟩ else ⟨fraction + Nat.pow 2 52, (field : Int) - 1075⟩

def power (base : Nat) (exponent : Int) : Rat :=
  if 0 ≤ exponent then Nat.pow base exponent.toNat else 1 / Nat.pow base (-exponent).toNat

def Dyadic.value (d : Dyadic) : Rat := d.significand * power 2 d.exponent

/-- Reading `x` gives `d`. Below a power of two the numbers lie twice as near. -/
def Dyadic.isRead (d : Dyadic) (x : Rat) : Bool :=
  let unit := power 2 d.exponent
  let nearBelow := d.significand = Nat.pow 2 52 ∧ d.exponent > -1074
  let low := d.value - (if nearBelow then unit / 4 else unit / 2)
  let high := d.value + unit / 2
  if d.significand % 2 = 0 then low ≤ x ∧ x ≤ high else low < x ∧ x < high

/-- The power of ten of the first digit of a positive rational. -/
def order (x : Rat) : Int :=
  if 1 ≤ x then (Nat.toDigits 10 x.floor.toNat).length - 1
  else
    match (List.range 400).find? fun j => 1 ≤ x * Nat.pow 10 j with
    | some j => -(j : Int)
    | none => 0

structure Decimal where
  digits : Nat
  exponent : Int

/-- The decimal with `count` digits that reads as `d` and is nearest to it, the greater of two. -/
def Dyadic.decimal? (d : Dyadic) (count : Nat) : Option Decimal :=
  let exponent := order d.value - (count - 1 : Nat)
  let unit := power 10 exponent
  let below := (d.value / unit).floor.toNat
  let candidate (n : Nat) : Option Nat := if d.isRead (n * unit) then some n else none
  let nearer :=
    match candidate below, candidate (below + 1) with
    | some a, some b => some (if d.value - a * unit < b * unit - d.value then a else b)
    | some a, none => some a
    | none, b => b
  nearer.map fun n => ⟨n, exponent⟩

/-- Seventeen digits are always enough. -/
def Dyadic.shortest (d : Dyadic) : Decimal :=
  ((List.range 17).findSome? fun n => d.decimal? (n + 1)).getD ⟨0, 0⟩

/-- The digits without closing zeros, and the power of ten of the first of them. -/
def Decimal.significant (x : Decimal) : List Char × Int :=
  let digits := Nat.toDigits 10 x.digits
  ((digits.reverse.dropWhile (· = '0')).reverse, x.exponent + digits.length - 1)

def positional (digits : List Char) (order : Int) : List Char :=
  if order < 0 then '0' :: '.' :: List.replicate (-order - 1).toNat '0' ++ digits
  else
    let whole := order.toNat + 1
    if digits.length ≤ whole then digits ++ List.replicate (whole - digits.length) '0'
    else digits.take whole ++ '.' :: digits.drop whole

def scientific (digits : List Char) (order : Int) : List Char :=
  let rest := digits.drop 1
  digits.take 1 ++ (if rest.isEmpty then [] else '.' :: rest) ++ 'e' :: (toString order).toList

inductive Layout where
  | positional
  | scientific
  deriving DecidableEq

def render (layout : Layout) (x : Float) : String :=
  let n := x.toBits.toNat
  let magnitude := n % signBit
  let sign := if n < signBit then "" else "-"
  let set := match layout with
    | .positional => positional
    | .scientific => scientific
  if infinityBits < magnitude then "NaN"
  else if magnitude = infinityBits then sign ++ "inf"
  else if magnitude = 0 then sign ++ String.ofList (set ['0'] 0)
  else
    let (digits, order) := (Dyadic.ofBits magnitude).shortest.significant
    sign ++ String.ofList (set digits order)

end ManyValued.Binary64
