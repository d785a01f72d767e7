import ManyValued.Proofs.Synthesis.Descent

/-! Constants in terms for integer coefficients. `combine` looks at its operands only for `0`, `1`,
`(¬0)` and `(¬1)`, and for integers that is enough: a term is one of these wherever its function is
constant on the cube, and reads nothing but inputs wherever it is not. The invariant follows the
least and the greatest value of the function. A unit taken off a weight lowers the greatest value
and keeps the least one, and a reflection turns both around; what it puts a `¬` before has none of
its own, so no `(¬(¬0))` arises. -/

namespace ManyValued

namespace Term

def ConstantFree : Term → Prop
  | falsum | verum => False
  | input _ => True
  | neg t | delta _ t => t.ConstantFree
  | conj s t | disj s t => s.ConstantFree ∧ t.ConstantFree

/-- The constants of a term are those of a function with values from `least` to `greatest`. -/
structure Folded (least greatest : Int) (t : Term) : Prop where
  isFalsum_iff : t.isFalsum = true ↔ greatest ≤ 0
  isVerum_iff : t.isVerum = true ↔ 1 ≤ least
  constantFree : 0 < greatest → least < 1 → t.ConstantFree

variable {t left right : Term} {least greatest : Int}

theorem isFalsum_iff_eq (h : t.negDepth = 0) : t.isFalsum = true ↔ t = falsum := by
  cases t with
  | neg t => cases h
  | _ => simp [isFalsum]

theorem isVerum_iff_eq (h : t.negDepth = 0) : t.isVerum = true ↔ t = verum := by
  cases t with
  | neg t => cases h
  | _ => simp [isVerum]

theorem Folded.falsum (hle : least ≤ greatest) (h : greatest ≤ 0) :
    Folded least greatest falsum where
  isFalsum_iff := iff_of_true rfl h
  isVerum_iff := iff_of_false Bool.false_ne_true (by omega)
  constantFree := fun h0 => by omega

theorem Folded.verum (hle : least ≤ greatest) (h : 1 ≤ least) : Folded least greatest verum where
  isFalsum_iff := iff_of_false Bool.false_ne_true (by omega)
  isVerum_iff := iff_of_true rfl h
  constantFree := fun _ h1 => by omega

/-- A term without constants, for a function that is not constant. -/
theorem Folded.of_constantFree (h0 : 0 < greatest) (h1 : least < 1) (hf : t.isFalsum = false)
    (hv : t.isVerum = false) (h : t.ConstantFree) : Folded least greatest t where
  isFalsum_iff := iff_of_false (by rw [hf]; exact Bool.false_ne_true) (by omega)
  isVerum_iff := iff_of_false (by rw [hv]; exact Bool.false_ne_true) (by omega)
  constantFree := fun _ _ => h

theorem Folded.neg (h : Folded least greatest t) (hn : t.negDepth = 0) :
    Folded (1 - greatest) (1 - least) (neg t) where
  isFalsum_iff := by
    rw [isFalsum, decide_eq_true_iff, ← isVerum_iff_eq hn, h.isVerum_iff]
    omega
  isVerum_iff := by
    rw [isVerum, decide_eq_true_iff, ← isFalsum_iff_eq hn, h.isFalsum_iff]
    omega
  constantFree := fun h1 h0 => h.constantFree (by omega) (by omega)

/-- The function `g + y` has the values from `least` to `greatest` where `g` has those from `least`
to `greatest - 1`. -/
theorem Folded.combine (hle : least ≤ greatest) (hl : Folded least (greatest - 1) left)
    (hr : Folded (least + 1) greatest right) (i : Nat) :
    Folded least greatest (combine left (.input i) right) := by
  have hlf := hl.isFalsum_iff
  have hlv := hl.isVerum_iff
  have hrf := hr.isFalsum_iff
  have hrv := hr.isVerum_iff
  unfold ManyValued.combine
  split_ifs with h1 h2 h3 h4 h4
  · exact .falsum hle (hrf.1 h1)
  · -- The other operand is verum as well, since its function is greater by 1.
    have h := hlv.1 h2
    exact ⟨hrf, iff_of_true (hrv.2 (by omega)) h, fun _ _ => by omega⟩
  all_goals rw [hrf] at h1; rw [hlv] at h2; rw [hrv] at h3; rw [hlf] at h4
  · exact .of_constantFree (by omega) (by omega) rfl rfl trivial
  · exact .of_constantFree (by omega) (by omega) rfl rfl
      ⟨hl.constantFree (by omega) (by omega), trivial⟩
  · exact .of_constantFree (by omega) (by omega) rfl rfl
      ⟨trivial, hr.constantFree (by omega) (by omega)⟩
  · exact .of_constantFree (by omega) (by omega) rfl rfl
      ⟨⟨hl.constantFree (by omega) (by omega), trivial⟩, hr.constantFree (by omega) (by omega)⟩

end Term

namespace Integer

variable {weights : List Int} {bias : Int} {t : Term} {xs : List Rat}

/-- The greatest value of `weights · x + bias` on the unit cube. -/
def greatest (weights : List Int) (bias : Int) : Int := (weights.map (max · 0)).sum + bias

/-- The least value of `weights · x + bias` on the unit cube. -/
def least (weights : List Int) (bias : Int) : Int := (weights.map (min · 0)).sum + bias

theorem opposite_opposite (weights : List Int) : opposite (opposite weights) = weights := by
  simp [opposite]

theorem greatest_opposite (weights : List Int) (bias : Int) :
    greatest (opposite weights) (1 - bias) = 1 - least weights bias := by
  have h : ((opposite weights).map (max · 0)).sum = -(weights.map (min · 0)).sum := by
    induction weights with
    | nil => rfl
    | cons w ws ih =>
      simp only [opposite, List.map_cons, List.sum_cons] at ih ⊢
      omega
  rw [greatest, least, h]
  ring

theorem least_opposite (weights : List Int) (bias : Int) :
    least (opposite weights) (1 - bias) = 1 - greatest weights bias := by
  have h := greatest_opposite (opposite weights) (1 - bias)
  rw [opposite_opposite, sub_sub_cancel] at h
  omega

theorem greatest_add (weights : List Int) (bias d : Int) :
    greatest weights (bias + d) = greatest weights bias + d := (add_assoc _ bias d).symm

theorem least_add (weights : List Int) (bias d : Int) :
    least weights (bias + d) = least weights bias + d := (add_assoc _ bias d).symm

theorem sum_map_of_zeros {f : Int → Int} (hf : f 0 = 0) (hz : weights.all (· = 0)) :
    (weights.map f).sum = 0 := by
  apply List.sum_eq_zero
  intro v hv
  obtain ⟨w, hw, rfl⟩ := List.mem_map.1 hv
  rw [of_decide_eq_true (List.all_eq_true.1 hz w hw), hf]

theorem least_le_greatest (weights : List Int) (bias : Int) :
    least weights bias ≤ greatest weights bias := by
  rw [least, greatest]
  induction weights with
  | nil => exact le_rfl
  | cons w ws ih =>
    simp only [List.map_cons, List.sum_cons]
    omega

theorem exists_sum_decrement {i : Nat} (hp : firstPositive? weights = some i) :
    ∃ w, 0 < w ∧ ∀ f : Int → Int,
      ((decrement weights i).map f).sum = (weights.map f).sum + (f (w - 1) - f w) := by
  obtain ⟨before, w, after, rfl, rfl, hw, -⟩ := exists_of_firstPositive? hp
  refine ⟨w, hw, fun f => ?_⟩
  simp only [decrement, modify_length_append, List.map_append, List.map_cons, List.sum_append,
    List.sum_cons]
  ring

theorem greatest_decrement {i : Nat} (hp : firstPositive? weights = some i) (bias : Int) :
    greatest (decrement weights i) bias = greatest weights bias - 1 := by
  obtain ⟨w, hw, hsum⟩ := exists_sum_decrement hp
  rw [greatest, greatest, hsum]
  omega

theorem least_decrement {i : Nat} (hp : firstPositive? weights = some i) (bias : Int) :
    least (decrement weights i) bias = least weights bias := by
  obtain ⟨w, hw, hsum⟩ := exists_sum_decrement hp
  rw [least, least, hsum]
  omega

/-- The constants of a term are those of its function. -/
theorem Builds.folded (h : Builds weights bias t) :
    t.Folded (least weights bias) (greatest weights bias) := by
  induction h with
  | @constant weights bias hz =>
    have hl : least weights bias = bias := by rw [least, sum_map_of_zeros rfl hz, zero_add]
    have hg : greatest weights bias = bias := by rw [greatest, sum_map_of_zeros rfl hz, zero_add]
    rw [hl, hg]
    by_cases hb : 0 < bias
    · rw [decide_eq_true hb]
      exact .verum le_rfl hb
    · rw [decide_eq_false hb]
      exact .falsum le_rfl (not_lt.1 hb)
  | @reflect weights bias t hz hp ht ih =>
    have hn : t.negDepth = 0 := Nat.le_zero.1 (ht.reflects.le budget (allows_opposite hp _))
    have hneg := ih.neg hn
    rw [greatest_opposite, least_opposite, sub_sub_cancel, sub_sub_cancel] at hneg
    exact hneg
  | @decrement weights bias i left right hp hl hr ihl ihr =>
    rw [least_decrement hp, greatest_decrement hp] at ihl ihr
    rw [least_add, greatest_add, add_sub_cancel_right] at ihr
    exact .combine (least_le_greatest weights bias) ihl ihr i

theorem mul_le_max {x : Rat} (h0 : 0 ≤ x) (h1 : x ≤ 1) (w : Int) :
    w * x ≤ ((max w 0 : Int) : Rat) := by
  push_cast
  rcases le_total (w : Rat) 0 with hw | hw
  · exact (mul_nonpos_of_nonpos_of_nonneg hw h0).trans (le_max_right _ _)
  · exact (mul_le_of_le_one_right hw h1).trans (le_max_left _ _)

theorem affine_le_greatest (hlen : xs.length = weights.length) (hx : InUnitCube xs) (bias : Int) :
    affine (rationals weights) bias xs ≤ greatest weights bias := by
  rw [affine, greatest, Int.cast_add]
  gcongr
  induction weights generalizing xs with
  | nil => simp [rationals]
  | cons w ws ih =>
    cases xs with
    | nil => cases hlen
    | cons x xs =>
      obtain ⟨⟨h0, h1⟩, hxs⟩ := List.forall_mem_cons.1 hx
      have h := ih (Nat.succ.inj hlen) hxs
      simp only [rationals, List.map_cons, List.zipWith_cons_cons, List.sum_cons,
        Int.cast_add] at h ⊢
      exact add_le_add (mul_le_max h0 h1 w) h

def corner (weights : List Int) : List Rat := weights.map fun w => if 0 < w then 1 else 0

theorem length_corner (weights : List Int) : (corner weights).length = weights.length :=
  List.length_map _

theorem inUnitCube_corner (weights : List Int) : InUnitCube (corner weights) := by
  intro x hx
  obtain ⟨w, -, rfl⟩ := List.mem_map.1 hx
  split_ifs
  · exact ⟨zero_le_one, le_rfl⟩
  · exact ⟨le_rfl, zero_le_one⟩

theorem affine_corner (weights : List Int) (bias : Int) :
    affine (rationals weights) bias (corner weights) = greatest weights bias := by
  rw [affine, greatest, Int.cast_add]
  congr 1
  induction weights with
  | nil => simp [rationals]
  | cons w ws ih =>
    have hw : w * (if 0 < w then (1 : Rat) else 0) = ((max w 0 : Int) : Rat) := by
      split_ifs with h
      · rw [mul_one, max_eq_left h.le]
      · rw [mul_zero, max_eq_right (not_lt.1 h), Int.cast_zero]
    simp only [rationals, corner, List.map_cons, List.zipWith_cons_cons, List.sum_cons,
      Int.cast_add] at ih ⊢
    rw [hw, ih]

/-- The function is 0 everywhere exactly when its greatest value is not positive. -/
theorem greatest_nonpos_iff (weights : List Int) (bias : Int) :
    greatest weights bias ≤ 0 ↔ ∀ xs, xs.length = weights.length → InUnitCube xs →
      clipped (affine (rationals weights) bias xs) = 0 := by
  constructor
  · intro h xs hlen hx
    have h0 : (greatest weights bias : Rat) ≤ 0 := by exact_mod_cast h
    exact clipped_of_nonpos ((affine_le_greatest hlen hx bias).trans h0)
  · intro h
    have h0 := nonpos_of_clipped_eq_zero (h _ (length_corner weights) (inUnitCube_corner weights))
    rw [affine_corner] at h0
    exact_mod_cast h0

theorem clipped_opposite_eq_zero_iff (weights : List Int) (bias : Int) (xs : List Rat) :
    clipped (affine (rationals (opposite weights)) (1 - bias : Int) xs) = 0 ↔
      clipped (affine (rationals weights) bias xs) = 1 := by
  rw [rationals_opposite, Int.cast_sub, Int.cast_one, affine_reflect,
    clipped_reflect (affine (rationals weights) bias xs), sub_eq_self]

theorem one_le_least_iff (weights : List Int) (bias : Int) :
    1 ≤ least weights bias ↔ ∀ xs, xs.length = weights.length → InUnitCube xs →
      clipped (affine (rationals weights) bias xs) = 1 := by
  have h := greatest_nonpos_iff (opposite weights) (1 - bias)
  have hlen : (opposite weights).length = weights.length := List.length_map _
  rw [greatest_opposite, sub_nonpos, hlen] at h
  simp only [clipped_opposite_eq_zero_iff] at h
  exact h

/-- Folding constants by their form alone is complete for integer coefficients: the term is falsum
exactly when its function is 0 on the whole unit cube, it is verum exactly when its function is 1
there, and otherwise it has no constant at all. -/
theorem constants_iff_constant (weights : List Int) (bias : Int) :
    ((synthesize weights bias).value.isFalsum = true ↔ greatest weights bias ≤ 0) ∧
    ((synthesize weights bias).value.isVerum = true ↔ 1 ≤ least weights bias) ∧
    ((synthesize weights bias).value.isFalsum = true ∨
      (synthesize weights bias).value.isVerum = true ∨
      (synthesize weights bias).value.ConstantFree) ∧
    (greatest weights bias ≤ 0 ↔ ∀ xs, xs.length = weights.length → InUnitCube xs →
      clipped (affine (rationals weights) bias xs) = 0) ∧
    (1 ≤ least weights bias ↔ ∀ xs, xs.length = weights.length → InUnitCube xs →
      clipped (affine (rationals weights) bias xs) = 1) := by
  have h := (builds_synthesize weights bias).folded
  refine ⟨h.isFalsum_iff, h.isVerum_iff, ?_, greatest_nonpos_iff weights bias,
    one_le_least_iff weights bias⟩
  rcases le_or_gt (greatest weights bias) 0 with h0 | h0
  · exact .inl (h.isFalsum_iff.2 h0)
  · rcases le_or_gt 1 (least weights bias) with h1 | h1
    · exact .inr (.inl (h.isVerum_iff.2 h1))
    · exact .inr (.inr (h.constantFree h0 h1))

theorem constants_iff_constant_cancelled :
    (synthesize [1, -1] 2).value.isVerum = true ∧
      ∀ xs, xs.length = [1, (-1 : Int)].length → InUnitCube xs →
        clipped (affine (rationals [1, -1]) (2 : Int) xs) = 1 := by
  obtain ⟨-, hverum, -, -, hone⟩ := constants_iff_constant [1, -1] 2
  have hleast : 1 ≤ least [1, -1] 2 := by decide
  exact ⟨hverum.2 hleast, hone.1 hleast⟩

end Integer

end ManyValued
