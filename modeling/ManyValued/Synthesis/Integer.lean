import ManyValued.Synthesis.Reduction

/-! Terms for clipped linear functions with integer coefficients. The sum of the absolute weights
falls whenever a unit is taken off a weight; a reflection keeps it, but there is a positive weight
where there was none. So the recursion ends. -/

namespace ManyValued.Integer

def decrement (weights : List Int) (i : Nat) : List Int := weights.modify i (· - 1)

def opposite (weights : List Int) : List Int := weights.map (- ·)

def magnitude (weights : List Int) : Nat := total Int.natAbs weights

theorem magnitude_decrement {weights : List Int} {i : Nat}
    (h : firstPositive? weights = some i) :
    magnitude (decrement weights i) + 1 = magnitude weights := by
  obtain ⟨before, w, after, rfl, rfl, hw, -⟩ := exists_of_firstPositive? h
  simp only [decrement, modify_length_append, magnitude, total_append, total]
  omega

theorem magnitude_opposite (weights : List Int) :
    magnitude (opposite weights) = magnitude weights := by
  simp only [magnitude, opposite, total_map, Int.natAbs_neg]

theorem firstPositive?_opposite {weights : List Int} (hz : ¬ weights.all (· = 0))
    (hp : firstPositive? weights = none) : (firstPositive? (opposite weights)).isSome := by
  simp only [List.all_eq_true, decide_eq_true_eq, Classical.not_forall] at hz
  obtain ⟨w, hw, hne⟩ := hz
  have := firstPositive?_eq_none_iff.1 hp w hw
  simp only [firstPositive?, opposite, List.findIdx?_isSome, List.any_map, List.any_eq_true,
    Function.comp_apply, decide_eq_true_eq]
  exact ⟨w, hw, by omega⟩

/-- Twice the magnitude, and one more where a reflection is due. -/
def rank (weights : List Int) : Nat :=
  2 * magnitude weights + if (firstPositive? weights).isSome then 0 else 1

theorem rank_opposite_lt {weights : List Int} (hz : ¬ weights.all (· = 0))
    (hp : firstPositive? weights = none) : rank (opposite weights) < rank weights := by
  simp [rank, magnitude_opposite, firstPositive?_opposite hz hp, hp]

theorem rank_decrement_lt {weights : List Int} {i : Nat} (h : firstPositive? weights = some i) :
    rank (decrement weights i) < rank weights := by
  have := magnitude_decrement h
  simp only [rank, h, Option.isSome_some, if_true]
  split <;> omega

/-- The term of `σ (weights · x + bias)`. -/
def synthesize (weights : List Int) (bias : Int) : Logged Term :=
  if hz : weights.all (· = 0) then pure (.constant (0 < bias))
  else
    match hp : firstPositive? weights with
    | none =>
      have := rank_opposite_lt hz hp
      do
        Logged.note (.integerStep weights bias .reflect)
        let t ← synthesize (opposite weights) (1 - bias)
        return .neg t
    | some i =>
      have := rank_decrement_lt hp
      do
        Logged.note (.integerStep weights bias (.decrement (i + 1)))
        let left ← synthesize (decrement weights i) bias
        let right ← synthesize (decrement weights i) (bias + 1)
        return combine left (.input i) right
termination_by rank weights

end ManyValued.Integer
