import ManyValued.Proofs.Term
import ManyValued.Synthesis.Reduction
import Mathlib.Algebra.Order.BigOperators.Group.List
import Mathlib.Tactic.Linarith
import Mathlib.Tactic.Ring

/-! The two identities behind every synthesis, for exact values: `σ (g + y)` from `σ g` and
`σ (g + 1)`, and `σ g` from `σ (1 - g)`. `combine` leaves constants out and still has the value of
the first one, since a term that it recognises as a constant has that value everywhere. -/

namespace ManyValued

/-- The activation of a neuron, for exact values. -/
def clipped (x : Rat) : Rat := min (max x 0) 1

theorem clip_eq_clipped (x : Rat) : TruthValue.clip x = clipped x := by
  unfold TruthValue.clip
  rw [meet_eq_min, join_eq_max]
  rfl

theorem clipped_nonneg (x : Rat) : 0 ≤ clipped x := le_min (le_max_right x 0) zero_le_one

theorem clipped_le_one (x : Rat) : clipped x ≤ 1 := min_le_right _ _

theorem clipped_of_nonpos {x : Rat} (h : x ≤ 0) : clipped x = 0 := by
  rw [clipped, max_eq_right h, min_eq_left zero_le_one]

theorem clipped_of_one_le {x : Rat} (h : 1 ≤ x) : clipped x = 1 := by
  rw [clipped, max_eq_left (by linarith), min_eq_right h]

theorem clipped_of_mem {x : Rat} (h0 : 0 ≤ x) (h1 : x ≤ 1) : clipped x = x := by
  rw [clipped, max_eq_left h0, min_eq_left h1]

theorem clipped_reflect (g : Rat) : clipped g = 1 - clipped (1 - g) := by
  simp only [clipped, min_def, max_def]
  split_ifs <;> linarith

theorem clipped_add {g y : Rat} (h0 : 0 ≤ y) (h1 : y ≤ 1) :
    clipped (g + y) = max 0 (min 1 (clipped g + y) + clipped (g + 1) - 1) := by
  rcases le_total g 0 with hg | hg
  · rw [clipped_of_nonpos hg, zero_add, min_eq_right h1]
    rcases le_total (g + 1) 0 with hg1 | hg1
    · rw [clipped_of_nonpos hg1, clipped_of_nonpos (by linarith), max_eq_left (by linarith)]
    · have hsum : y + (g + 1) - 1 = g + y := by ring
      rw [clipped_of_mem hg1 (by linarith), hsum, clipped,
        min_eq_left (max_le (by linarith) zero_le_one), max_comm]
  · have hnonneg : 0 ≤ min 1 (clipped g + y) :=
      le_min zero_le_one (add_nonneg (clipped_nonneg g) h0)
    rw [clipped_of_one_le (by linarith : 1 ≤ g + 1), add_sub_cancel_right, max_eq_right hnonneg]
    rcases le_total g 1 with hg1 | hg1
    · rw [clipped_of_mem hg hg1, clipped, max_eq_left (add_nonneg hg h0), min_comm]
    · rw [clipped_of_one_le hg1, clipped_of_one_le (by linarith), min_eq_left (by linarith)]

theorem nonpos_of_clipped_eq_zero {g : Rat} (h : clipped g = 0) : g ≤ 0 := by
  by_contra hg
  simp only [clipped, min_def, max_def] at h
  split_ifs at h <;> linarith

theorem one_le_of_clipped_eq_one {g : Rat} (h : clipped g = 1) : 1 ≤ g := by
  by_contra hg
  simp only [clipped, min_def, max_def] at h
  split_ifs at h <;> linarith

def InUnitCube (xs : List Rat) : Prop := ∀ x ∈ xs, 0 ≤ x ∧ x ≤ 1

theorem InUnitCube.getD {xs : List Rat} (h : InUnitCube xs) (i : Nat) :
    0 ≤ xs.getD i 0 ∧ xs.getD i 0 ≤ 1 := by
  rw [List.getD_eq_getElem?_getD]
  cases hx : xs[i]? with
  | none => exact ⟨le_refl 0, zero_le_one⟩
  | some x => exact h x (List.mem_of_getElem? hx)

def affine (weights : List Rat) (bias : Rat) (xs : List Rat) : Rat :=
  (List.zipWith (· * ·) weights xs).sum + bias

theorem affine_add (weights : List Rat) (bias d : Rat) (xs : List Rat) :
    affine weights (bias + d) xs = affine weights bias xs + d := by
  unfold affine
  ring

theorem affine_of_zeros {weights : List Rat} (h : weights.all (· = 0)) (bias : Rat)
    (xs : List Rat) : affine weights bias xs = bias := by
  suffices hs : (List.zipWith (· * ·) weights xs).sum = 0 by rw [affine, hs, zero_add]
  apply List.sum_eq_zero
  intro y hy
  rw [← List.map_uncurry_zip_eq_zipWith] at hy
  obtain ⟨⟨w, x⟩, hwx, rfl⟩ := List.mem_map.1 hy
  have hw : w = 0 := of_decide_eq_true (List.all_eq_true.1 h w (List.of_mem_zip hwx).1)
  exact mul_eq_zero_of_left hw x

theorem affine_map_mul (c : Rat) (weights : List Rat) (bias : Rat) (xs : List Rat) :
    affine (weights.map (c * ·)) (c * bias) xs = c * affine weights bias xs := by
  have h : (List.zipWith (· * ·) (weights.map (c * ·)) xs).sum =
      c * (List.zipWith (· * ·) weights xs).sum := by
    induction weights generalizing xs with
    | nil => simp
    | cons w ws ih =>
      cases xs with
      | nil => simp
      | cons x xs =>
        simp only [List.map_cons, List.zipWith_cons_cons, List.sum_cons, ih]
        ring
  rw [affine, affine, h]
  ring

theorem affine_reflect (weights : List Rat) (bias : Rat) (xs : List Rat) :
    affine (weights.map (- ·)) (1 - bias) xs = 1 - affine weights bias xs := by
  have hw : weights.map (- ·) = weights.map ((-1 : Rat) * ·) := by simp
  have hb : 1 - bias = -1 * bias + 1 := by ring
  rw [hw, hb, affine_add, affine_map_mul]
  ring

theorem affine_exchange (before : List Rat) (w v : Rat) (after : List Rat) (bias : Rat)
    (xs : List Rat) :
    affine (before ++ w :: after) bias xs =
      affine (before ++ v :: after) bias xs + (w - v) * xs.getD before.length 0 := by
  induction before generalizing xs with
  | nil =>
    cases xs with
    | nil => simp [affine]
    | cons x xs =>
      simp only [affine, List.nil_append, List.zipWith_cons_cons, List.sum_cons,
        List.length_nil, List.getD_cons_zero]
      ring
  | cons b bs ih =>
    cases xs with
    | nil => simp [affine]
    | cons x xs =>
      have := ih xs
      simp only [affine, List.cons_append, List.zipWith_cons_cons, List.sum_cons,
        List.length_cons, List.getD_cons_succ] at this ⊢
      linarith

section Pivot

variable {α : Type} [OfNat α 0] [LT α] [DecidableLT α]

theorem not_all_zero_of_firstPositive? [DecidableEq α] (hlt : ¬ (0 : α) < 0) {weights : List α}
    {i : Nat} (hp : firstPositive? weights = some i) : ¬ weights.all (· = 0) := by
  obtain ⟨before, w, after, rfl, -, hw, -⟩ := exists_of_firstPositive? hp
  intro hz
  rw [of_decide_eq_true (List.all_eq_true.1 hz w (by simp))] at hw
  exact hlt hw

/-- What holds of all weights and of what a step makes of a positive one holds after the step. -/
theorem forall_mem_modify {P : α → Prop} {f : α → α} {weights : List α} {i : Nat}
    (hp : firstPositive? weights = some i) (h : ∀ w ∈ weights, P w) (hf : ∀ w, 0 < w → P (f w)) :
    ∀ v ∈ weights.modify i f, P v := by
  obtain ⟨before, w, after, rfl, rfl, hw, -⟩ := exists_of_firstPositive? hp
  rw [modify_length_append]
  intro v hv
  rcases List.mem_append.1 hv with hv | hv
  · exact h v (List.mem_append_left _ hv)
  · rcases List.mem_cons.1 hv with rfl | hv
    · exact hf w hw
    · exact h v (List.mem_append_right _ (List.mem_cons_of_mem _ hv))

/-- The input `j` has a weight, and it is not 0. -/
def Weighted (weights : List α) (j : Nat) : Prop := ∃ w, weights[j]? = some w ∧ w ≠ 0

omit [LT α] [DecidableLT α] in
theorem Weighted.of_map {f : α → α} (hf : f 0 = 0) {weights : List α} {j : Nat}
    (h : Weighted (weights.map f) j) : Weighted weights j := by
  obtain ⟨v, hv, hne⟩ := h
  rw [List.getElem?_map] at hv
  obtain ⟨w, hw, rfl⟩ := Option.map_eq_some_iff.1 hv
  refine ⟨w, hw, ?_⟩
  rintro rfl
  exact hne hf

/-- No step of a synthesis gives a weight to an input that had none. -/
theorem Weighted.of_modify (hlt : ¬ (0 : α) < 0) {f : α → α} {weights : List α} {i j : Nat}
    (hp : firstPositive? weights = some i) (h : Weighted (weights.modify i f) j) :
    Weighted weights j := by
  obtain ⟨before, w, after, rfl, rfl, hw, -⟩ := exists_of_firstPositive? hp
  obtain ⟨v, hv, hne⟩ := h
  by_cases hj : before.length = j
  · subst hj
    refine ⟨w, by simp, ?_⟩
    rintro rfl
    exact hlt hw
  · rw [List.getElem?_modify_ne f _ hj] at hv
    exact ⟨v, hv, hne⟩

theorem weighted_of_firstPositive? (hlt : ¬ (0 : α) < 0) {weights : List α} {i : Nat}
    (hp : firstPositive? weights = some i) : Weighted weights i := by
  obtain ⟨before, w, after, rfl, rfl, hw, -⟩ := exists_of_firstPositive? hp
  refine ⟨w, by simp, ?_⟩
  rintro rfl
  exact hlt hw

end Pivot

namespace Term

/-- The formula of the term has the value `min (max (weights · xs + bias) 0) 1` for all inputs
`xs` in the unit cube. -/
def Computes (t : Term) (weights : List Rat) (bias : Rat) : Prop :=
  ∀ xs : List Rat, xs.length = weights.length → InUnitCube xs →
    t.formula.evaluate Logic.lukasiewicz (Valuation.ofInputs xs) =
      .ok (min (max ((List.zipWith (· * ·) weights xs).sum + bias) 0) 1)

theorem computes_of_value {t : Term} {weights : List Rat} {bias : Rat}
    (hw : ∀ j ∈ t.inputs, Weighted weights j)
    (hv : ∀ xs, InUnitCube xs → t.value xs = clipped (affine weights bias xs)) :
    t.Computes weights bias := by
  intro xs hlen hx
  have hi : ∀ j ∈ t.inputs, j < xs.length := by
    intro j hj
    obtain ⟨w, hw, -⟩ := hw j hj
    rw [hlen]
    exact (List.getElem?_eq_some_iff.1 hw).1
  rw [evaluate_formula hi, hv xs hx]
  rfl

theorem inputs_constant (b : Bool) : (constant b).inputs = [] := by
  cases b <;> rfl

theorem value_constant (b : Bool) (xs : List Rat) :
    (constant b).value xs = if b then 1 else 0 := by
  cases b <;> rfl

/-- The left-hand side of the first identity, from its right-hand side. -/
theorem value_combine {left y right : Term} {xs : List Rat} {g : Rat}
    (hl : left.value xs = clipped g) (hr : right.value xs = clipped (g + 1))
    (h0 : 0 ≤ y.value xs) (h1 : y.value xs ≤ 1) :
    (combine left y right).value xs = clipped (g + y.value xs) := by
  unfold combine
  split_ifs with hrf hlv hrv hlf hlf
  · have hg : g + 1 ≤ 0 := nonpos_of_clipped_eq_zero (hr.symm.trans (value_of_isFalsum hrf xs))
    rw [clipped_of_nonpos (by linarith)]
    rfl
  · have hg : 1 ≤ g := one_le_of_clipped_eq_one (hl.symm.trans (value_of_isVerum hlv xs))
    rw [hr, clipped_of_one_le (by linarith), clipped_of_one_le (by linarith)]
  · have hg : 1 ≤ g + 1 := one_le_of_clipped_eq_one (hr.symm.trans (value_of_isVerum hrv xs))
    have hg' : g ≤ 0 := nonpos_of_clipped_eq_zero (hl.symm.trans (value_of_isFalsum hlf xs))
    obtain rfl : g = 0 := by linarith
    rw [zero_add, clipped_of_mem h0 h1]
  · have hg : 1 ≤ g + 1 := one_le_of_clipped_eq_one (hr.symm.trans (value_of_isVerum hrv xs))
    simp only [value]
    rw [clipped_add h0 h1, clipped_of_one_le hg, hl, add_sub_cancel_right, max_eq_right]
    exact le_min zero_le_one (add_nonneg (clipped_nonneg g) h0)
  · have hg : clipped g = 0 := hl.symm.trans (value_of_isFalsum hlf xs)
    simp only [value]
    rw [clipped_add h0 h1, hg, hr, zero_add, min_eq_right h1]
  · simp only [value]
    rw [clipped_add h0 h1, hl, hr]

/-- What `⊙` and `⊕` keep is kept by a step. -/
theorem combine_induction {P : Term → Prop} (hfalsum : P falsum)
    (hconj : ∀ s t, P s → P t → P (conj s t)) (hdisj : ∀ s t, P s → P t → P (disj s t))
    {left y right : Term} (hl : P left) (hy : P y) (hr : P right) : P (combine left y right) := by
  unfold combine
  split_ifs
  · exact hfalsum
  · exact hr
  · exact hy
  · exact hdisj left y hl hy
  · exact hconj y right hy hr
  · exact hconj _ right (hdisj left y hl hy) hr

theorem inputs_combine {left y right : Term} {i : Nat} (h : i ∈ (combine left y right).inputs) :
    i ∈ left.inputs ∨ i ∈ y.inputs ∨ i ∈ right.inputs := by
  revert h
  refine combine_induction (P := fun t => i ∈ t.inputs → _) ?_ ?_ ?_ .inl (.inr ∘ .inl)
    (.inr ∘ .inr)
  · exact fun h => nomatch h
  · exact fun s t hs ht h => (List.mem_append.1 h).elim hs ht
  · exact fun s t hs ht h => (List.mem_append.1 h).elim hs ht

/-- A step takes weight from the pivot only, and what it puts in reads only the pivot. -/
theorem weighted_combine {α : Type} [OfNat α 0] [LT α] [DecidableLT α] (hlt : ¬ (0 : α) < 0)
    {f : α → α} {weights : List α} {left y right : Term} {i j : Nat}
    (hp : firstPositive? weights = some i) (hj : j ∈ (combine left y right).inputs)
    (hl : j ∈ left.inputs → Weighted (weights.modify i f) j)
    (hr : j ∈ right.inputs → Weighted (weights.modify i f) j) (hy : j ∈ y.inputs → j = i) :
    Weighted weights j := by
  rcases inputs_combine hj with hj | hj | hj
  · exact (hl hj).of_modify hlt hp
  · rw [hy hj]
    exact weighted_of_firstPositive? hlt hp
  · exact (hr hj).of_modify hlt hp

end Term

end ManyValued
