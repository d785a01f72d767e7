/-! What can go wrong, by cause, and the one wording of each cause. The last group are broken
preconditions of a caller; the others are faults of the data. -/

namespace ManyValued

inductive FormulaFault where
  | unbalanced
  /-- A unary connective with text before it. -/
  | misplaced (connective : Char)
  /-- A lone `=` or `!`. -/
  | missingEquals (sign : Char)
  | missingScale
  | emptyScale
  | scaleTooLarge
  | zeroScale
  | unknownToken (token : String)
  deriving DecidableEq, Repr

def FormulaFault.message : FormulaFault → String
  | .unbalanced => "unbalanced parentheses"
  | .misplaced c => "`" ++ toString c ++ "` must start its subformula"
  | .missingEquals c => "`" ++ toString c ++ "` must be followed by `=`"
  | .missingScale => "`δ` must be followed by `_k`"
  | .emptyScale => "unterminated `δ_k` digit run"
  | .scaleTooLarge => "`δ_k` scale out of range"
  | .zeroScale => "`δ_k` scale must be positive"
  | .unknownToken token => "unrecognized leaf token `" ++ token ++ "`"

/-- The truth functions that a logic may leave out. -/
inductive Operation where
  | implies
  | neg
  | conj
  | disj
  | delta
  | equals
  | unequals
  deriving DecidableEq, Repr

def Operation.name : Operation → String
  | .implies => "IMPLIES"
  | .neg => "NEG"
  | .conj => "CONJ"
  | .disj => "DISJ"
  | .delta => "DELTA"
  | .equals => "EQUALS"
  | .unequals => "UNEQUALS"

inductive NetworkFault where
  | noNeurons
  | rowsWithoutBiases (rows biases : Nat)
  | raggedRow (row entries expected : Nat)
  | noLayers
  | widthMismatch (layer inputs below neurons : Nat)
  | layerCount (terms layers : Nat)
  | termCount (layer terms neurons : Nat)
  | inputCount (layer inputs neurons : Nat)
  | outputCount (neurons : Nat)
  deriving DecidableEq, Repr

def NetworkFault.message : NetworkFault → String
  | .noNeurons => "layer has no neurons"
  | .rowsWithoutBiases rows biases =>
    toString rows ++ " weight rows but " ++ toString biases ++ " biases"
  | .raggedRow row entries expected =>
    "weight row " ++ toString row ++ " has " ++ toString entries ++ " entries, expected " ++
      toString expected
  | .noLayers => "network has no layers"
  | .widthMismatch layer inputs below neurons =>
    "layer " ++ toString layer ++ " expects " ++ toString inputs ++ " inputs, but layer " ++
      toString below ++ " has " ++ toString neurons ++ " neurons"
  | .layerCount terms layers =>
    toString terms ++ " term layers for " ++ toString layers ++ " network layers"
  | .termCount layer terms neurons =>
    "layer " ++ toString layer ++ " has " ++ toString terms ++ " terms for " ++
      toString neurons ++ " neurons"
  | .inputCount layer inputs neurons =>
    "layer " ++ toString layer ++ " has " ++ toString inputs ++
      " inputs, but the previous layer has " ++ toString neurons ++ " neurons"
  | .outputCount neurons =>
    "output layer has " ++ toString neurons ++ " neurons, expected 1"

/-- The text of a rational: lowest terms, and no denominator 1. -/
def rationalText (q : Rat) : String :=
  if q.den = 1 then toString q.num else toString q.num ++ "/" ++ toString q.den

inductive Error where
  | invalidFormula (formula : String) (fault : FormulaFault)
  | unboundAtom (atom : String)
  | unsupported (logic : String) (operation : Operation)
  | scaleOverflow (scale : Nat)
  | invalidNetwork (fault : NetworkFault)
  | zeroDenominator
  /-- A value whose denominator does not divide the scale. -/
  | notMultiple (value : Rat) (scale : UInt32)
  | zeroVariable
  | zeroScale
  | inputWidth
  | noAtoms
  deriving DecidableEq, Repr

def Error.message : Error → String
  | .invalidFormula formula fault => "invalid formula `" ++ formula ++ "`: " ++ fault.message
  | .unboundAtom atom => "atom `" ++ atom ++ "` is not bound by the valuation"
  | .unsupported logic operation =>
    operation.name ++ " is not implemented for " ++ logic ++ " logic"
  | .scaleOverflow scale => "scale factor " ++ toString scale ++ " does not fit a δ_k index"
  | .invalidNetwork fault => "invalid network: " ++ fault.message
  | .zeroDenominator => "denominator == 0"
  | .notMultiple value scale =>
    rationalText value ++ " is not a multiple of 1/" ++ toString scale.toNat
  | .zeroVariable => "Variable indices should be >= 1"
  | .zeroScale => "Scale should be >= 1"
  | .inputWidth => "Input length should match the first layer"
  | .noAtoms => "At least one atom is required"

end ManyValued
