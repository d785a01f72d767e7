import ManyValued.Synthesis.Integer

/-! Terms for clipped linear functions with rational coefficients, by way of integer ones. If `L`
clears all denominators, then

  `σ f = δ_L σ (L f) ⊕ δ_L σ (L f - 1) ⊕ … ⊕ δ_L σ (L f - L + 1)`,

and every summand has integer coefficients. -/

namespace ManyValued.Scaled

/-- The sum of the summands with shifts up to `last`. -/
def shiftedSum (scale : Scale) (weights : List Int) (bias : Int) : (last : Nat) → Logged Term
  | 0 => do
    let t ← Integer.synthesize weights bias
    return .delta scale t
  | n + 1 => do
    let sum ← shiftedSum scale weights bias n
    let t ← Integer.synthesize weights (bias - (n + 1 : Nat))
    return .disj sum (.delta scale t)

def synthesize (scale : UInt32) (weights : List Rat) (bias : Rat) : Attempt Term := do
  let integerWeights ← Attempt.ofExcept (weights.mapM (scaled · scale))
  let integerBias ← Attempt.ofExcept (scaled bias scale)
  Logged.note (.scaledSum weights bias scale)
  if scale = 1 then Integer.synthesize integerWeights integerBias
  else
    let index ← Attempt.ofExcept (Scale.ofUInt32 scale)
    shiftedSum index integerWeights integerBias (scale.toNat - 1)

end ManyValued.Scaled
