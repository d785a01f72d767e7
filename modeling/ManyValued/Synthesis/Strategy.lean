import ManyValued.Synthesis.Fractional
import ManyValued.Synthesis.Scaled

/-! The term of a neuron. Both strategies use the least scale that clears all denominators, and both
give terms of the same function, though not the same terms. -/

namespace ManyValued

inductive Strategy where
  | scaled
  | fractional
  deriving DecidableEq, Repr, Inhabited

def synthesize (strategy : Strategy) (weights : List Rat) (bias : Rat) : Attempt Term := do
  let scale ← Attempt.ofExcept (scaleOf weights bias)
  match strategy with
  | .scaled => Scaled.synthesize scale weights bias
  | .fractional => Fractional.synthesize scale weights bias

end ManyValued
