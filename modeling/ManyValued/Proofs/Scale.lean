import ManyValued.Proofs.Outcome
import ManyValued.Scale
import Mathlib.Algebra.Order.Field.Rat
import Mathlib.Data.Rat.Lemmas
import Mathlib.Tactic.Tauto

/-! When a scale clears denominators. `scaled` succeeds exactly for the multiples of a denominator,
and the common denominator is the least number that is one for all of them. -/

namespace ManyValued

def rationals (weights : List Int) : List Rat := weights.map fun n : Int => (n : Rat)

/-- The denominators of all coefficients divide the scale. -/
def Clears (scale : UInt32) (weights : List Rat) (bias : Rat) : Prop :=
  ∀ q ∈ bias :: weights, q.den ∣ scale.toNat

theorem scaled_eq_ok_iff {q : Rat} {scale : UInt32} {n : Int} :
    scaled q scale = .ok n ↔ q * scale.toNat = n := by
  unfold scaled
  constructor
  · intro h
    simp only at h
    split at h
    · rename_i hd
      rw [← Except.ok.inj h]
      exact (Rat.coe_int_num_of_den_eq_one hd).symm
    · cases h
  · intro h
    simp [h]

theorem exists_mul_eq_int_iff (q : Rat) (k : Nat) : (∃ n : Int, q * k = n) ↔ q.den ∣ k := by
  constructor
  · rintro ⟨n, hn⟩
    have hq : (q.den : Rat) ≠ 0 := by exact_mod_cast q.den_ne_zero
    have h1 : q.num * k = n * q.den := by
      have h2 : q * q.den * k = n * q.den := by rw [← hn, mul_right_comm]
      rw [Rat.mul_den_eq_num] at h2
      exact_mod_cast h2
    have h3 : q.den ∣ q.num.natAbs * k := by
      have := congrArg Int.natAbs h1
      rw [Int.natAbs_mul, Int.natAbs_mul, Int.natAbs_natCast, Int.natAbs_natCast] at this
      exact this ▸ Nat.dvd_mul_left _ _
    exact q.reduced.symm.dvd_of_dvd_mul_left h3
  · rintro ⟨c, rfl⟩
    refine ⟨q.num * c, ?_⟩
    push_cast
    rw [← mul_assoc, Rat.mul_den_eq_num]

theorem exists_scaled_iff (q : Rat) (scale : UInt32) :
    (∃ n, scaled q scale = .ok n) ↔ q.den ∣ scale.toNat := by
  simp only [scaled_eq_ok_iff]
  exact exists_mul_eq_int_iff q scale.toNat

theorem exists_mapM_scaled_iff (weights : List Rat) (scale : UInt32) :
    (∃ ns, weights.mapM (scaled · scale) = .ok ns) ↔ ∀ w ∈ weights, w.den ∣ scale.toNat := by
  simp only [mapM_eq_ok_iff, ← exists_scaled_iff]
  induction weights with
  | nil => simp
  | cons w ws ih =>
    rw [List.forall_mem_cons, ← ih]
    constructor
    · rintro ⟨_, h⟩
      cases h with
      | cons hn hns => exact ⟨⟨_, hn⟩, ⟨_, hns⟩⟩
    · rintro ⟨⟨n, hn⟩, ⟨ns, hns⟩⟩
      exact ⟨n :: ns, .cons hn hns⟩

theorem rationals_of_mapM_scaled {weights : List Rat} {scale : UInt32} {ns : List Int}
    (h : weights.mapM (scaled · scale) = .ok ns) :
    rationals ns = weights.map ((scale.toNat : Rat) * ·) := by
  replace h := mapM_eq_ok_iff.1 h
  induction h with
  | nil => rfl
  | @cons w n ws ns hn _ ih =>
    have hn : w * scale.toNat = n := scaled_eq_ok_iff.1 hn
    rw [rationals, List.map_cons, List.map_cons, ← rationals, ih, ← hn, mul_comm w]

namespace Clears

variable {scale : UInt32} {weights : List Rat} {bias : Rat}

theorem add_one (h : Clears scale weights bias) : Clears scale weights (bias + 1) := by
  obtain ⟨hb, hw⟩ := List.forall_mem_cons.1 h
  refine List.forall_mem_cons.2 ⟨?_, hw⟩
  exact (Rat.add_den_dvd_lcm bias 1).trans (Nat.lcm_dvd hb (Nat.one_dvd _))

theorem reflect (h : Clears scale weights bias) :
    Clears scale (weights.map (- ·)) (1 - bias) := by
  obtain ⟨hb, hw⟩ := List.forall_mem_cons.1 h
  refine List.forall_mem_cons.2 ⟨?_, ?_⟩
  · exact (Rat.sub_den_dvd_lcm 1 bias).trans (Nat.lcm_dvd (Nat.one_dvd _) hb)
  · intro q hq
    obtain ⟨w, hw', rfl⟩ := List.mem_map.1 hq
    exact hw w hw'

theorem exchange {before after : List Rat} {w v : Rat}
    (h : Clears scale (before ++ w :: after) bias)
    (hv : w.den ∣ scale.toNat → v.den ∣ scale.toNat) :
    Clears scale (before ++ v :: after) bias := by
  intro q hq
  have hmem : q = v ∨ q ∈ bias :: (before ++ w :: after) := by
    simp only [List.mem_cons, List.mem_append] at hq ⊢
    tauto
  rcases hmem with rfl | hq
  · exact hv (h w (by simp))
  · exact h q hq

end Clears

theorem commonDenominator_dvd_iff (values : List Rat) (k : Nat) :
    commonDenominator values ∣ k ↔ ∀ q ∈ values, q.den ∣ k := by
  suffices h : ∀ m, values.foldl (fun n q => n.lcm q.den) m ∣ k ↔ m ∣ k ∧ ∀ q ∈ values, q.den ∣ k by
    rw [commonDenominator, h, and_iff_right (Nat.one_dvd k)]
  induction values with
  | nil => simp
  | cons q qs ih =>
    intro m
    rw [List.foldl_cons, ih, Nat.lcm_dvd_iff, List.forall_mem_cons, and_assoc]

theorem commonDenominator_pos (values : List Rat) : 0 < commonDenominator values := by
  suffices h : ∀ m, 0 < m → 0 < values.foldl (fun n q => n.lcm q.den) m from h 1 Nat.one_pos
  induction values with
  | nil => exact fun _ hm => hm
  | cons q qs ih =>
    intro m hm
    exact ih _ (Nat.lcm_pos hm q.den_pos)

/-- Only the values that are no integers count, in whatever order and however often they come. -/
theorem commonDenominator_congr {values values' : List Rat}
    (h : ∀ q, q.den ≠ 1 → (q ∈ values ↔ q ∈ values')) :
    commonDenominator values = commonDenominator values' := by
  refine Nat.dvd_right_iff_eq.1 fun k => ?_
  rw [commonDenominator_dvd_iff, commonDenominator_dvd_iff]
  refine forall_congr' fun q => ?_
  by_cases hq : q.den = 1
  · -- An integer may be in one list only: its denominator divides every number.
    simp only [hq, Nat.one_dvd, implies_true]
  · rw [h q hq]

theorem commonDenominator_concat (weights : List Rat) (bias : Rat) :
    commonDenominator (weights ++ [bias]) = commonDenominator (bias :: weights) :=
  commonDenominator_congr fun _ _ => (List.perm_append_singleton bias weights).mem_iff

section ScaleOf

variable {scale : UInt32} {weights : List Rat} {bias : Rat}

theorem clears_iff_dvd :
    Clears scale weights bias ↔ commonDenominator (weights ++ [bias]) ∣ scale.toNat := by
  rw [commonDenominator_concat, commonDenominator_dvd_iff, Clears]

theorem toNat_of_scaleOf (h : scaleOf weights bias = .ok scale) :
    scale.toNat = commonDenominator (weights ++ [bias]) := by
  rw [scaleOf] at h
  split at h
  · rename_i hlt
    rw [← Except.ok.inj h]
    exact UInt32.toNat_ofNat_of_lt hlt
  · cases h

theorem clears_of_scaleOf (h : scaleOf weights bias = .ok scale) :
    0 < scale ∧ Clears scale weights bias := by
  rw [UInt32.lt_iff_toNat_lt, clears_iff_dvd, toNat_of_scaleOf h]
  exact ⟨commonDenominator_pos _, Nat.dvd_refl _⟩

theorem exists_scaleOf (h : commonDenominator (weights ++ [bias]) < UInt32.size) :
    ∃ scale, scaleOf weights bias = .ok scale ∧ 0 < scale ∧ Clears scale weights bias := by
  have hs : scaleOf weights bias = .ok (.ofNat (commonDenominator (weights ++ [bias]))) := if_pos h
  exact ⟨_, hs, clears_of_scaleOf hs⟩

theorem scaleOf_eq_error (h : UInt32.size ≤ commonDenominator (weights ++ [bias])) :
    scaleOf weights bias = .error (.scaleOverflow (commonDenominator (weights ++ [bias]))) :=
  if_neg (Nat.not_lt.2 h)

end ScaleOf

end ManyValued
