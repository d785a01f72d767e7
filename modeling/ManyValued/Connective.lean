/-! The connectives of the formula language and their symbols. Every compound formula is written in
parentheses, so no connective has a precedence. -/

namespace ManyValued

inductive Unary where
  | neg
  /-- Division of a truth value by `scale`. The scale of a formula that was read is positive; one
  built by hand may carry 0. -/
  | delta (scale : UInt32)
  deriving DecidableEq, Repr, Inhabited

inductive Binary where
  | conj
  | disj
  | implies
  | equals
  | unequals
  deriving DecidableEq, Repr, Inhabited

def negSymbol : Char := '¬'

def deltaSymbol : Char := 'δ'

def Unary.symbol : Unary → String
  | .neg => "¬"
  | .delta scale => "δ_" ++ toString scale.toNat

def Binary.symbol : Binary → String
  | .conj => "⊙"
  | .disj => "⊕"
  | .implies => "⇒"
  | .equals => "=="
  | .unequals => "!="

def Binary.all : List Binary := [.conj, .disj, .implies, .equals, .unequals]

/-- The connectives whose symbol is one character. -/
def Binary.ofChar? (c : Char) : Option Binary :=
  if c = '⊙' then some .conj
  else if c = '⊕' then some .disj
  else if c = '⇒' then some .implies
  else none

/-- The name of a connective in the log. -/
def Unary.name : Unary → String
  | .neg => "Neg"
  | .delta scale => "Delta(" ++ toString scale.toNat ++ ")"

def Binary.name : Binary → String
  | .conj => "Conj"
  | .disj => "Disj"
  | .implies => "Implies"
  | .equals => "Equals"
  | .unequals => "Unequals"

end ManyValued
