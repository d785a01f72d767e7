/-! The leaves of formulas: atoms and the two constants. Some atoms have a fixed role: `x1`, `x2`, …
name inputs, and `s1`, `s2`, … stand for them while terms are put into one another. -/

namespace ManyValued

/-- A letter and then digits, both ASCII. -/
def isAtom (token : String) : Bool :=
  match token.toList with
  | [] => false
  | c :: rest => c.isAlpha && rest.all Char.isDigit

def isConstant (token : String) : Bool := token == "0" || token == "1"

/-- The name of an input; inputs are counted from 0, their names from `x1`. -/
def inputName (i : Nat) : String := "x" ++ toString (i + 1)

def slotName (i : Nat) : String := "s" ++ toString (i + 1)

end ManyValued
