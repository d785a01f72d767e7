import ManyValued.Proofs.Synthesis.Strategy

/-! Integer coefficients seen as rationals. A positive integer holds a whole unit, so the fractional
recursion takes units off until no weight is left, just as the integer one does, and never comes to
a point where it asks for the scale. Hence both strategies build the integer term. -/

namespace ManyValued

section Rationals

variable {weights : List Int} {i : Nat}

theorem exists_rationals {row : List Rat} (h : ∀ q ∈ row, q.den = 1) :
    ∃ weights, row = rationals weights := by
  refine ⟨row.map Rat.num, ?_⟩
  rw [rationals, List.map_map]
  calc row = row.map id := (List.map_id row).symm
    _ = _ := List.map_congr_left fun q hq => (Rat.coe_int_num_of_den_eq_one (h q hq)).symm

theorem firstPositive?_rationals (weights : List Int) :
    firstPositive? (rationals weights) = firstPositive? weights := by
  rw [firstPositive?, firstPositive?, rationals, List.findIdx?_map]
  congr 1
  funext n
  simp

theorem all_zero_rationals (weights : List Int) :
    (rationals weights).all (· = 0) = weights.all (· = 0) := by
  rw [rationals, List.all_map]
  congr 1
  funext n
  simp

theorem commonDenominator_rationals (weights : List Int) (bias : Int) :
    commonDenominator (rationals weights ++ [(bias : Rat)]) = 1 := by
  rw [← Nat.dvd_one, commonDenominator_dvd_iff]
  intro q hq
  rcases List.mem_append.1 hq with hq | hq
  · obtain ⟨n, -, rfl⟩ := List.mem_map.1 hq
    exact Nat.dvd_refl 1
  · rw [List.mem_singleton.1 hq]
    exact Nat.dvd_refl 1

end Rationals

namespace Fractional

variable {weights : List Int} {bias : Int} {t : Term} {i : Nat}

theorem decrement_rationals (hp : firstPositive? weights = some i) :
    decrement (rationals weights) i = rationals (Integer.decrement weights i) := by
  obtain ⟨before, w, after, rfl, rfl, -, -⟩ := exists_of_firstPositive? hp
  have h := modify_length_append (· - 1) (rationals before) (w : Rat) (rationals after)
  rw [rationals, List.length_map, ← rationals] at h
  rw [decrement, Integer.decrement, modify_length_append]
  simpa [rationals] using h

/-- An integer that is positive is 1 or more. -/
theorem not_all_lt_one (hp : firstPositive? weights = some i) :
    ¬ (rationals weights).all (· < 1) := by
  obtain ⟨before, w, after, rfl, -, hw, -⟩ := exists_of_firstPositive? hp
  intro hs
  have hw1 : (w : Rat) < 1 := of_decide_eq_true (List.all_eq_true.1 hs w (by simp [rationals]))
  have hw1 : w < 1 := by exact_mod_cast hw1
  omega

/-- The fractional recursion follows the integer one step by step, whatever the scale. -/
theorem outcome_of_builds (scale : UInt32) (h : Integer.Builds weights bias t) :
    (synthesize scale (rationals weights) bias).outcome = .ok t := by
  induction h with
  | @constant weights bias hz =>
    have hb : (bias : Rat) ≤ 0 ∨ 1 ≤ (bias : Rat) := by
      rcases lt_or_ge 0 bias with hb | hb
      · exact .inr (by exact_mod_cast hb)
      · exact .inl (by exact_mod_cast hb)
    rw [outcome_of_zeros (Integer.rationals_all_zero hz), if_pos hb]
    simp
  | @reflect weights bias t hz hp ht ih =>
    push_cast at ih
    rw [← all_zero_rationals] at hz
    rw [← firstPositive?_rationals] at hp
    rw [outcome_reflect hz hp, opposite, ← Integer.rationals_opposite, ih, ok_bind]
  | @decrement weights bias i left right hp hl hr ihl ihr =>
    push_cast at ihr
    have hp' := (firstPositive?_rationals weights).trans hp
    have hz := not_all_zero_of_firstPositive? (lt_irrefl 0) hp'
    rw [outcome_decrement hz hp' (not_all_lt_one hp), decrement_rationals hp, ihl, ihr]
    rfl

theorem outcome_rationals (scale : UInt32) (weights : List Int) (bias : Int) :
    (synthesize scale (rationals weights) bias).outcome =
      .ok (Integer.synthesize weights bias).value :=
  outcome_of_builds scale (Integer.builds_synthesize weights bias)

end Fractional

/-- Both strategies build the integer term for integer coefficients. -/
theorem synthesize_rationals (strategy : Strategy) (weights : List Int) (bias : Int) :
    (synthesize strategy (rationals weights) bias).outcome =
      .ok (Integer.synthesize weights bias).value := by
  have hs : scaleOf (rationals weights) bias = .ok 1 := by
    rw [scaleOf, commonDenominator_rationals]
    rfl
  rw [synthesize_eq_ok hs]
  cases strategy with
  | scaled => exact Scaled.outcome_synthesize_one weights bias
  | fractional => exact Fractional.outcome_rationals 1 weights bias

end ManyValued
