import ManyValued.Connective
import ManyValued.Formula.Token
import ManyValued.Scale

/-! The terms that a synthesis builds: constants, input variables, `¬`, `δ_k`, `⊙` and `⊕`.
Variables are counted from 0 here and named from `x1`. -/

namespace ManyValued

inductive Term where
  | falsum
  | verum
  | input (index : Nat)
  | neg (t : Term)
  | delta (scale : Scale) (t : Term)
  | conj (s t : Term)
  | disj (s t : Term)
  deriving DecidableEq

namespace Term

def constant (value : Bool) : Term := if value then verum else falsum

def ofVariable (number : Nat) : Except Error Term :=
  match number with
  | 0 => .error .zeroVariable
  | i + 1 => .ok (input i)

def divided (k : UInt32) (t : Term) : Except Error Term := do
  let scale ← Scale.ofUInt32 k
  .ok (delta scale t)

/-- The term is `1` or `(¬0)`; one that merely has the value 1 everywhere is not recognised. -/
def isVerum : Term → Bool
  | verum => true
  | neg t => t = falsum
  | _ => false

def isFalsum : Term → Bool
  | falsum => true
  | neg t => t = verum
  | _ => false

def size : Term → Nat
  | falsum | verum | input _ => 1
  | neg t | delta _ t => 1 + t.size
  | conj s t | disj s t => 1 + s.size + t.size

/-- The text of a term, a formula. A blank keeps a constant apart from the digits of a scale. -/
def render : Term → String
  | falsum => "0"
  | verum => "1"
  | input i => inputName i
  | neg t => "(" ++ Unary.neg.symbol ++ t.render ++ ")"
  | delta scale t => "(" ++ (Unary.delta scale.val).symbol ++ " " ++ t.render ++ ")"
  | conj s t => "(" ++ s.render ++ Binary.conj.symbol ++ t.render ++ ")"
  | disj s t => "(" ++ s.render ++ Binary.disj.symbol ++ t.render ++ ")"

end Term

end ManyValued
