import ManyValued.Synthesis.Reduction

/-! Terms for clipped linear functions with rational coefficients, which keep the coefficients as
they are: a weight `k / L` between 0 and 1 is written as `k` summands `δ_L x`. As long as some
weight is 1 or more, the first positive weight loses a unit, and may turn negative by it. The
recursion ends all the same: such a weight held no whole unit, and there is one positive weight
less. -/

namespace ManyValued.Fractional

def decrement (weights : List Rat) (i : Nat) : List Rat := weights.modify i (· - 1)

def consume (weights : List Rat) (i : Nat) : List Rat := weights.modify i fun _ => 0

def opposite (weights : List Rat) : List Rat := weights.map (- ·)

def wholeUnits (w : Rat) : Nat := w.abs.floor.toNat

def magnitude (weights : List Rat) : Nat := total wholeUnits weights

def nonzero (weights : List Rat) : Nat := weights.countP (· ≠ 0)

def positive (weights : List Rat) : Nat := weights.countP (0 < ·)

/-- The number of positive weights, or more than there are weights where a reflection is due. -/
def unsettled (weights : List Rat) : Nat :=
  if positive weights = 0 then weights.length + 1 else positive weights

/-- Every step makes the first of these numbers that it changes smaller. -/
def rank (weights : List Rat) : Nat × Nat × Nat :=
  (magnitude weights, nonzero weights, unsettled weights)

theorem wholeUnits_neg (w : Rat) : wholeUnits (-w) = wholeUnits w := by
  simp [wholeUnits, Rat.abs_neg]

theorem wholeUnits_eq_zero {w : Rat} (h0 : -1 < w) (h1 : w < 1) : wholeUnits w = 0 := by
  have h : w.abs < ((1 : Int) : Rat) := by
    rw [Rat.abs]
    split <;> grind
  have := Rat.floor_lt_iff.2 h
  simp only [wholeUnits]
  omega

theorem wholeUnits_sub_one {w : Rat} (h : 1 ≤ w) : wholeUnits (w - 1) + 1 = wholeUnits w := by
  have h1 : (w - 1).abs = w - 1 := Rat.abs_of_nonneg (by grind)
  have h2 : w.abs = w := Rat.abs_of_nonneg (by grind)
  have h3 : (1 : Int) ≤ w.floor := Rat.le_floor_iff.2 (by simpa using h)
  simp only [wholeUnits, h1, h2, Rat.floor_sub_one]
  omega

theorem magnitude_opposite (weights : List Rat) :
    magnitude (opposite weights) = magnitude weights := by
  simp only [magnitude, opposite, total_map, wholeUnits_neg]

theorem nonzero_opposite (weights : List Rat) : nonzero (opposite weights) = nonzero weights := by
  simp only [nonzero, opposite, List.countP_map]
  congr 1
  funext w
  simp only [Function.comp_apply, decide_eq_decide]
  grind

theorem positive_opposite_pos {weights : List Rat} (hz : ¬ weights.all (· = 0))
    (hp : firstPositive? weights = none) : 0 < positive (opposite weights) := by
  simp only [List.all_eq_true, decide_eq_true_eq, Classical.not_forall] at hz
  obtain ⟨w, hw, hne⟩ := hz
  have := firstPositive?_eq_none_iff.1 hp w hw
  refine List.countP_pos_iff.2 ⟨-w, List.mem_map.2 ⟨w, hw, rfl⟩, ?_⟩
  simp only [decide_eq_true_eq]
  grind

theorem unsettled_opposite_lt {weights : List Rat} (hz : ¬ weights.all (· = 0))
    (hp : firstPositive? weights = none) :
    unsettled (opposite weights) < unsettled weights := by
  have h1 := positive_opposite_pos hz hp
  have h2 : positive weights = 0 := by
    simpa [positive, List.countP_eq_zero] using firstPositive?_eq_none_iff.1 hp
  have h3 : positive (opposite weights) ≤ (opposite weights).length := List.countP_le_length
  have h4 : (opposite weights).length = weights.length := by simp [opposite]
  simp only [unsettled, h2, if_true]
  rw [if_neg (by omega)]
  omega

theorem rank_opposite {weights : List Rat} (hz : ¬ weights.all (· = 0))
    (hp : firstPositive? weights = none) :
    Prod.Lex (· < ·) (Prod.Lex (· < ·) (· < ·)) (rank (opposite weights)) (rank weights) := by
  simp only [rank, magnitude_opposite, nonzero_opposite]
  exact .right _ (.right _ (unsettled_opposite_lt hz hp))

theorem magnitude_exchange {w v : Rat} (hw : wholeUnits w = 0) (hv : wholeUnits v = 0)
    (before after : List Rat) :
    magnitude (before ++ v :: after) = magnitude (before ++ w :: after) := by
  simp only [magnitude, total_append, total, hw, hv]

theorem rank_consume {weights : List Rat} {i : Nat} (h : firstPositive? weights = some i)
    (hs : weights.all (· < 1)) :
    Prod.Lex (· < ·) (Prod.Lex (· < ·) (· < ·)) (rank (consume weights i)) (rank weights) := by
  obtain ⟨before, w, after, rfl, rfl, hw, -⟩ := exists_of_firstPositive? h
  have hw1 : w < 1 := by simpa using List.all_eq_true.1 hs w (by simp)
  have h0 : wholeUnits w = 0 := wholeUnits_eq_zero (by grind) hw1
  have h0' : wholeUnits 0 = 0 := wholeUnits_eq_zero (by decide) (by decide)
  have hn : nonzero (before ++ 0 :: after) < nonzero (before ++ w :: after) := by
    have hne : w ≠ 0 := by grind
    simp [nonzero, List.countP_append, hne]
  simp only [rank, consume, modify_length_append, magnitude_exchange h0 h0']
  exact .right _ (.left _ _ hn)

/-- If the first positive weight is less than 1 but not all weights are, then it is not the only
positive one. -/
theorem exists_later_positive {before after : List Rat} {w : Rat} (hb : ∀ v ∈ before, ¬ 0 < v)
    (hw : w < 1) (hs : ¬ (before ++ w :: after).all (· < 1)) : ∃ v ∈ after, 0 < v := by
  simp only [List.all_eq_true, decide_eq_true_eq, Classical.not_forall] at hs
  obtain ⟨v, hv, hv1⟩ := hs
  have hpos : 0 < v := by grind
  rcases List.mem_append.1 hv with hv | hv
  · exact absurd hpos (hb v hv)
  · rcases List.mem_cons.1 hv with rfl | hv
    · exact absurd hw hv1
    · exact ⟨v, hv, hpos⟩

theorem unsettled_exchange_lt {before after : List Rat} {w v : Rat} (hw : 0 < w) (hv : ¬ 0 < v)
    (ha : ∃ u ∈ after, 0 < u) :
    unsettled (before ++ v :: after) < unsettled (before ++ w :: after) := by
  have hcount : 0 < after.countP (0 < ·) := by simpa [List.countP_pos_iff] using ha
  simp only [unsettled, positive, List.countP_append, List.countP_cons, hw, hv, decide_true,
    decide_false, if_true, Bool.false_eq_true, if_false, List.length_append, List.length_cons]
  rw [if_neg (by omega), if_neg (by omega)]
  omega

theorem rank_decrement {weights : List Rat} {i : Nat} (h : firstPositive? weights = some i)
    (hs : ¬ weights.all (· < 1)) :
    Prod.Lex (· < ·) (Prod.Lex (· < ·) (· < ·)) (rank (decrement weights i)) (rank weights) := by
  obtain ⟨before, w, after, rfl, rfl, hw, hb⟩ := exists_of_firstPositive? h
  simp only [rank, decrement, modify_length_append]
  by_cases hw1 : 1 ≤ w
  · have := wholeUnits_sub_one hw1
    refine .left _ _ ?_
    simp only [magnitude, total_append, total]
    omega
  · have hlt : w < 1 := by grind
    have h0 : wholeUnits w = 0 := wholeUnits_eq_zero (by grind) hlt
    have h0' : wholeUnits (w - 1) = 0 := wholeUnits_eq_zero (by grind) (by grind)
    have hn : nonzero (before ++ (w - 1) :: after) = nonzero (before ++ w :: after) := by
      have hne : w ≠ 0 := by grind
      have hne' : w - 1 ≠ 0 := by grind
      simp [nonzero, List.countP_append, hne, hne']
    have hlater := exists_later_positive hb hlt hs
    rw [magnitude_exchange h0 h0', hn]
    exact .right _ (.right _ (unsettled_exchange_lt hw (by grind) hlater))

/-- `copies` summands `δ_L t`, at least one. -/
def chain (summand : Term) : Nat → Term
  | 0 => summand
  | n + 1 => .disj (chain summand n) summand

def share (scale : UInt32) (t : Term) (copies : Int) : Except Error Term := do
  let summand ← Term.divided scale t
  .ok (chain summand (copies - 1).toNat)

/-- The term of `σ (weights · x + bias)`. The denominators should divide `scale`; a coefficient
whose denominator does not is reported when its turn comes. -/
def synthesize (scale : UInt32) (weights : List Rat) (bias : Rat) : Attempt Term :=
  if hz : weights.all (· = 0) then
    if bias ≤ 0 ∨ 1 ≤ bias then return .constant (0 < bias)
    else Attempt.ofExcept do
      let copies ← scaled bias scale
      share scale .verum copies
  else
    match hp : firstPositive? weights with
    | none =>
      have := rank_opposite hz hp
      do
        Logged.note (.fractionalStep weights bias .reflect)
        let t ← synthesize scale (opposite weights) (1 - bias)
        return .neg t
    | some i =>
      if hs : weights.all (· < 1) then
        have := rank_consume hp hs
        do
          Logged.note (.fractionalStep weights bias (.consume (i + 1)))
          let weight := weights.get ⟨i, lt_length_of_firstPositive? hp⟩
          let copies ← Attempt.ofExcept (scaled weight scale)
          let left ← synthesize scale (consume weights i) bias
          let right ← synthesize scale (consume weights i) (bias + 1)
          let y ← Attempt.ofExcept (share scale (.input i) copies)
          return combine left y right
      else
        have := rank_decrement hp hs
        do
          Logged.note (.fractionalStep weights bias (.decrement (i + 1)))
          let left ← synthesize scale (decrement weights i) bias
          let right ← synthesize scale (decrement weights i) (bias + 1)
          return combine left (.input i) right
termination_by rank weights
decreasing_by all_goals assumption

end ManyValued.Fractional
