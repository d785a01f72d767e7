import ManyValued.Connective
import ManyValued.Error
import ManyValued.TruthValue

/-! Many-valued logics as tables of truth functions. A logic needs an implication and a falsum; from
these `Logic.derived` takes

  `⊤ = ⊥ ⇒ ⊥`, `¬A = A ⇒ ⊥`, `A ⊙ B = ¬(A ⇒ ¬B)`, `A ⊕ B = ¬A ⇒ B`,

and leaves out `δ_k`, `==` and `!=`, which have no derivation. -/

namespace ManyValued

structure Logic (α : Type) where
  name : String
  falsum : Except Error α
  verum : Except Error α
  neg : α → Except Error α
  implies : α → α → Except Error α
  conj : α → α → Except Error α
  disj : α → α → Except Error α
  delta : UInt32 → α → Except Error α
  equals : α → α → Except Error α
  unequals : α → α → Except Error α

namespace Logic

variable {α : Type}

def unary (l : Logic α) : Unary → α → Except Error α
  | .neg => l.neg
  | .delta scale => l.delta scale

def binary (l : Logic α) : Binary → α → α → Except Error α
  | .conj => l.conj
  | .disj => l.disj
  | .implies => l.implies
  | .equals => l.equals
  | .unequals => l.unequals

def derived (name : String) (falsum : Except Error α) (implies : α → α → Except Error α) :
    Logic α :=
  let neg (x : α) : Except Error α := do
    let bottom ← falsum
    implies x bottom
  { name
    falsum
    verum := do
      let bottom ← falsum
      implies bottom bottom
    neg
    implies
    conj := fun x y => do
      let notY ← neg y
      let z ← implies x notY
      neg z
    disj := fun x y => do
      let notX ← neg x
      implies notX y
    delta := fun _ _ => .error (.unsupported name .delta)
    equals := fun _ _ => .error (.unsupported name .equals)
    unequals := fun _ _ => .error (.unsupported name .unequals) }

variable [TruthValue α]

open TruthValue

def lukasiewiczImplies (x y : α) : α := meet one (one - x + y)

def lukasiewicz : Logic α :=
  { derived "Łukasiewicz" (.ok zero) fun x y => .ok (lukasiewiczImplies x y) with
    neg := fun x => .ok (one - x)
    conj := fun x y => .ok (join zero (x + y - one))
    disj := fun x y => .ok (meet one (x + y))
    delta := fun scale x => .ok (x / ofRat scale.toNat)
    equals := fun x y => .ok (truth (same x y))
    unequals := fun x y => .ok (truth !(same x y)) }

def godelImplies (x y : α) : α := if less y x then y else one

/-- Gödel logic, whose strong connectives are the lattice operations. -/
def godel : Logic α :=
  { derived "Gödel" (.ok zero) fun x y => .ok (godelImplies x y) with
    conj := fun x y => .ok (meet x y)
    disj := fun x y => .ok (join x y) }

/-- Product logic, of which only the constants have a meaning so far. -/
def product : Logic α :=
  let missing := Error.unsupported "Product"
  { derived "Product" (.ok zero) fun _ _ => .error (missing .implies) with
    neg := fun _ => .error (missing .neg)
    conj := fun _ _ => .error (missing .conj)
    disj := fun _ _ => .error (missing .disj) }

end Logic

end ManyValued
