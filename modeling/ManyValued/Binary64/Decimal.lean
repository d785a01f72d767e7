import ManyValued.Binary64.Rounding

/-! Reading decimal numbers: an optional sign, digits with an optional point among or beside them,
and an optional exponent; or the words for infinity and for what is no number. The value is rounded
once, from the exact decimal. -/

namespace ManyValued.Binary64

def readSign : List Char → Bool × List Char
  | '-' :: rest => (true, rest)
  | '+' :: rest => (false, rest)
  | text => (false, text)

def splitDigits (text : List Char) : List Char × List Char :=
  (text.takeWhile Char.isDigit, text.dropWhile Char.isDigit)

/-- The exponent that a text consists of; 0 for an empty text. -/
def readExponent : List Char → Option Int
  | [] => some 0
  | c :: rest =>
    if c = 'e' ∨ c = 'E' then
      let (negative, rest) := readSign rest
      let (digits, rest) := splitDigits rest
      if digits.isEmpty ∨ ¬ rest.isEmpty then none
      else
        let n : Int := Nat.ofDigitChars 10 digits 0
        some (if negative then -n else n)
    else none

/-- Significand and power of ten of an unsigned decimal. -/
def readUnsigned (text : List Char) : Option (Nat × Int) :=
  let (whole, rest) := splitDigits text
  let (part, rest) :=
    match rest with
    | '.' :: rest => splitDigits rest
    | _ => ([], rest)
  if whole.isEmpty ∧ part.isEmpty then none
  else do
    let exponent ← readExponent rest
    return (Nat.ofDigitChars 10 (whole ++ part) 0, exponent - part.length)

/-- The bits of `significand * 10 ^ exponent`. A power far outside the range of the format need
not be computed. -/
def decimalBits (significand : Nat) (exponent : Int) : Nat :=
  let order : Int := (Nat.toDigits 10 significand).length + exponent
  if significand = 0 ∨ order < -400 then 0
  else if order > 400 then infinityBits
  else magnitudeBits (significand * Nat.pow 10 exponent.toNat) (Nat.pow 10 (-exponent).toNat)

def notANumberBits : Nat := infinityBits + Nat.pow 2 51

def readWord (text : List Char) : Option Nat :=
  let word := String.ofList (text.map Char.toLower)
  if word = "inf" ∨ word = "infinity" then some infinityBits
  else if word = "nan" then some notANumberBits
  else none

def read? (text : String) : Option Float :=
  let (negative, unsigned) := readSign text.toList
  let magnitude :=
    match readUnsigned unsigned with
    | some (significand, exponent) => some (decimalBits significand exponent)
    | none => readWord unsigned
  magnitude.map fun n => Float.ofBits (UInt64.ofNat (if negative then signBit + n else n))

end ManyValued.Binary64
