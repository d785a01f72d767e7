import ManyValued.Proofs.Scale
import ManyValued.Proofs.Synthesis.Reduction
import ManyValued.Synthesis.Integer

/-! Terms for integer coefficients. `Builds` has one case for each branch of the recursion, so what
all terms have in common is an induction on it; here, that they have the value of the clipped
linear function and read only inputs with a weight. -/

namespace ManyValued.Integer

inductive Builds : List Int → Int → Term → Prop where
  | constant {weights : List Int} {bias : Int} (hz : weights.all (· = 0)) :
      Builds weights bias (.constant (0 < bias))
  | reflect {weights : List Int} {bias : Int} {t : Term} (hz : ¬ weights.all (· = 0))
      (hp : firstPositive? weights = none) (ht : Builds (opposite weights) (1 - bias) t) :
      Builds weights bias (.neg t)
  | decrement {weights : List Int} {bias : Int} {i : Nat} {left right : Term}
      (hp : firstPositive? weights = some i) (hl : Builds (decrement weights i) bias left)
      (hr : Builds (decrement weights i) (bias + 1) right) :
      Builds weights bias (combine left (.input i) right)

theorem synthesize_of_zeros {weights : List Int} (hz : weights.all (· = 0)) (bias : Int) :
    synthesize weights bias = pure (.constant (0 < bias)) := by
  rw [synthesize, dif_pos hz]

theorem synthesize_reflect {weights : List Int} (hz : ¬ weights.all (· = 0))
    (hp : firstPositive? weights = none) (bias : Int) :
    synthesize weights bias = (do
      Logged.note (.integerStep weights bias .reflect)
      let t ← synthesize (opposite weights) (1 - bias)
      return .neg t) := by
  rw [synthesize, dif_neg hz]
  split
  · rfl
  · simp_all

theorem synthesize_decrement {weights : List Int} {i : Nat} (hz : ¬ weights.all (· = 0))
    (hp : firstPositive? weights = some i) (bias : Int) :
    synthesize weights bias = (do
      Logged.note (.integerStep weights bias (.decrement (i + 1)))
      let left ← synthesize (decrement weights i) bias
      let right ← synthesize (decrement weights i) (bias + 1)
      return combine left (.input i) right) := by
  rw [synthesize, dif_neg hz]
  split
  · simp_all
  · rename_i j hj
    obtain rfl : i = j := Option.some.inj (hp.symm.trans hj)
    rfl

theorem builds_synthesize (weights : List Int) (bias : Int) :
    Builds weights bias (synthesize weights bias).value := by
  induction weights, bias using synthesize.induct with
  | case1 weights bias hz =>
    rw [synthesize_of_zeros hz]
    exact .constant hz
  | case2 weights bias hz hp hlt ih =>
    rw [synthesize_reflect hz hp]
    exact .reflect hz hp ih
  | case3 weights bias hz i hp hlt ihl ihr =>
    rw [synthesize_decrement hz hp]
    exact .decrement hp ihl ihr

variable {weights : List Int} {bias : Int} {t : Term} {xs : List Rat}

theorem rationals_opposite (weights : List Int) :
    rationals (opposite weights) = (rationals weights).map (- ·) := by
  simp [rationals, opposite]

theorem rationals_all_zero (h : weights.all (· = 0)) : (rationals weights).all (· = 0) := by
  simpa [rationals] using h

/-- A unit taken off the weight of an input leaves the input itself. -/
theorem affine_decrement {i : Nat} (hp : firstPositive? weights = some i) (bias : Rat)
    (xs : List Rat) :
    affine (rationals weights) bias xs =
      affine (rationals (decrement weights i)) bias xs + xs.getD i 0 := by
  obtain ⟨before, w, after, rfl, rfl, -, -⟩ := exists_of_firstPositive? hp
  have h := affine_exchange (rationals before) w (w - 1 : Int) (rationals after) bias xs
  rw [decrement, modify_length_append]
  simp only [rationals, List.map_append, List.map_cons, List.length_map] at h ⊢
  rw [h]
  push_cast
  ring

namespace Builds

/-- The term has the value `σ (weights · xs + bias)` on the whole unit cube. -/
theorem value_eq (h : Builds weights bias t) (hx : InUnitCube xs) :
    t.value xs = clipped (affine (rationals weights) bias xs) := by
  induction h with
  | @constant weights bias hz =>
    rw [affine_of_zeros (rationals_all_zero hz), Term.value_constant]
    by_cases hb : 0 < bias
    · have h1 : (1 : Rat) ≤ bias := by exact_mod_cast hb
      rw [clipped_of_one_le h1]
      simp [hb]
    · have h0 : (bias : Rat) ≤ 0 := by exact_mod_cast Int.not_lt.1 hb
      rw [clipped_of_nonpos h0]
      simp [hb]
  | @reflect weights bias t hz hp ht ih =>
    push_cast at ih
    rw [rationals_opposite, affine_reflect] at ih
    rw [Term.value, ih, ← clipped_reflect]
  | @decrement weights bias i left right hp hl hr ihl ihr =>
    obtain ⟨h0, h1⟩ := hx.getD i
    push_cast at ihr
    rw [affine_add] at ihr
    rw [affine_decrement hp]
    exact Term.value_combine ihl ihr h0 h1

theorem weighted (h : Builds weights bias t) {j : Nat} (hj : j ∈ t.inputs) :
    Weighted weights j := by
  induction h with
  | constant hz =>
    rw [Term.inputs_constant] at hj
    cases hj
  | reflect hz hp ht ih => exact (ih hj).of_map Int.neg_zero
  | decrement hp hl hr ihl ihr =>
    exact Term.weighted_combine (by decide) hp hj ihl ihr List.mem_singleton.1

end Builds

end ManyValued.Integer
