import ManyValued.Proofs.Synthesis.Fractional
import ManyValued.Proofs.Synthesis.Scaled
import ManyValued.Synthesis.Strategy

/-! Both strategies give a neuron a term of its function. The common denominator is a positive scale
that clears all denominators, so a synthesis can only fail where it is too large for a scale. -/

namespace ManyValued

variable {weights : List Rat} {bias : Rat}

theorem synthesize_eq_ok {scale : UInt32} (hs : scaleOf weights bias = .ok scale)
    (strategy : Strategy) : (synthesize strategy weights bias).outcome =
      match strategy with
      | .scaled => (Scaled.synthesize scale weights bias).outcome
      | .fractional => (Fractional.synthesize scale weights bias).outcome := by
  simp only [synthesize, Attempt.outcome_bind, Attempt.outcome_ofExcept, hs, ok_bind]
  cases strategy <;> rfl

/-- A scale that does not fit is reported before anything is built. -/
theorem synthesize_eq_error (h : UInt32.size ≤ commonDenominator (weights ++ [bias]))
    (strategy : Strategy) : (synthesize strategy weights bias).outcome =
      .error (.scaleOverflow (commonDenominator (weights ++ [bias]))) := by
  rw [synthesize, Attempt.outcome_bind, Attempt.outcome_ofExcept, scaleOf_eq_error h, error_bind]

theorem weighted_of_synthesize {strategy : Strategy} {t : Term}
    (h : (synthesize strategy weights bias).outcome = .ok t) {j : Nat} (hj : j ∈ t.inputs) :
    Weighted weights j := by
  rw [synthesize, Attempt.outcome_bind] at h
  obtain ⟨scale, -, h⟩ := bind_eq_ok_iff.1 h
  cases strategy with
  | scaled => exact Scaled.weighted h hj
  | fractional => exact (Fractional.builds_of_ok h).weighted hj

theorem exists_synthesize (h : commonDenominator (weights ++ [bias]) < UInt32.size)
    (strategy : Strategy) :
    ∃ t, (synthesize strategy weights bias).outcome = .ok t ∧ t.Computes weights bias := by
  obtain ⟨scale, hs, hpos, hc⟩ := exists_scaleOf h
  rw [synthesize_eq_ok hs]
  cases strategy with
  | scaled =>
    obtain ⟨t, ht⟩ := (Scaled.exists_outcome_iff scale weights bias).2 ⟨hpos, hc⟩
    exact ⟨t, ht, Scaled.computes ht⟩
  | fractional =>
    obtain ⟨t, ht⟩ := Fractional.exists_of_clears hpos hc
    exact ⟨t, ht, Fractional.computes ht⟩

end ManyValued
