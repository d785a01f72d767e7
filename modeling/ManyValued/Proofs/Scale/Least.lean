import ManyValued.Proofs.Scale
import Mathlib.Order.Bounds.Defs

/-! The scale of a neuron is the least that it can be synthesized with. A scale has to make integers
of the weights and the bias, and those that do are the multiples of the common denominator. So the
least is the common denominator itself, and where that is too large for a scale, no scale will do: a
refusal never hides a scale that would have worked. -/

namespace ManyValued

def Usable (weights : List Rat) (bias : Rat) (scale : UInt32) : Prop :=
  0 < scale ∧ ∀ q ∈ bias :: weights, ∃ n, scaled q scale = .ok n

variable {weights : List Rat} {bias : Rat} {scale : UInt32}

theorem clears_iff_scaled :
    Clears scale weights bias ↔ ∀ q ∈ bias :: weights, ∃ n, scaled q scale = .ok n :=
  forall₂_congr fun q _ => (exists_scaled_iff q scale).symm

theorem usable_iff_clears : Usable weights bias scale ↔ 0 < scale ∧ Clears scale weights bias := by
  rw [Usable, clears_iff_scaled]

theorem Usable.commonDenominator_le (h : Usable weights bias scale) :
    commonDenominator (weights ++ [bias]) ≤ scale.toNat := by
  obtain ⟨hpos, hc⟩ := usable_iff_clears.1 h
  exact Nat.le_of_dvd (UInt32.lt_iff_toNat_lt.1 hpos) (clears_iff_dvd.1 hc)

theorem isLeast_of_scaleOf (h : scaleOf weights bias = .ok scale) :
    IsLeast {m | Usable weights bias m} scale := by
  refine ⟨usable_iff_clears.2 (clears_of_scaleOf h), fun m hm => ?_⟩
  rw [UInt32.le_iff_toNat_le, toNat_of_scaleOf h]
  exact hm.commonDenominator_le

theorem not_usable_of_size_le (h : UInt32.size ≤ commonDenominator (weights ++ [bias]))
    (scale : UInt32) : ¬ Usable weights bias scale := by
  intro hu
  exact absurd (h.trans hu.commonDenominator_le) (Nat.not_le.2 scale.toNat_lt_size)

/-- What the common denominator is, also where it is too large for a scale. -/
theorem commonDenominator_dvd_iff_integers (weights : List Rat) (bias : Rat) (k : Nat) :
    commonDenominator (weights ++ [bias]) ∣ k ↔ ∀ q ∈ bias :: weights, ∃ n : Int, q * k = n := by
  rw [commonDenominator_concat, commonDenominator_dvd_iff]
  exact forall₂_congr fun q _ => (exists_mul_eq_int_iff q k).symm

/-- The numbers that make integers of all coefficients are the multiples of the common denominator,
and the scales among them are those that `scaled` succeeds with. The common denominator is the scale
whenever it is small enough, and then it is the least usable one; otherwise it is reported, and no
scale is usable. All this depends on the values that are no integers and on nothing else: not on
their order, not on how often they come, not on which is the bias. -/
theorem scaleOf_yields_least_usable (weights : List Rat) (bias : Rat) :
    (∀ k, commonDenominator (weights ++ [bias]) ∣ k ↔
      ∀ q ∈ bias :: weights, ∃ n : Int, q * k = n) ∧
    (∀ m : UInt32, (∀ q ∈ bias :: weights, ∃ n, scaled q m = .ok n) ↔
      commonDenominator (weights ++ [bias]) ∣ m.toNat) ∧
    (commonDenominator (weights ++ [bias]) < UInt32.size →
      ∃ scale, scaleOf weights bias = .ok scale ∧
        scale.toNat = commonDenominator (weights ++ [bias]) ∧
        IsLeast {m | Usable weights bias m} scale) ∧
    (UInt32.size ≤ commonDenominator (weights ++ [bias]) →
      scaleOf weights bias = .error (.scaleOverflow (commonDenominator (weights ++ [bias]))) ∧
        ∀ m, ¬ Usable weights bias m) ∧
    ∀ weights' bias', (∀ q, q.den ≠ 1 → (q ∈ bias' :: weights' ↔ q ∈ bias :: weights)) →
      commonDenominator (weights' ++ [bias']) = commonDenominator (weights ++ [bias]) ∧
        scaleOf weights' bias' = scaleOf weights bias := by
  refine ⟨commonDenominator_dvd_iff_integers weights bias, fun m => ?_, fun hlt => ?_,
    fun hle => ?_, fun weights' bias' h => ?_⟩
  · rw [← clears_iff_scaled, clears_iff_dvd]
  · obtain ⟨scale, hs, -⟩ := exists_scaleOf hlt
    exact ⟨scale, hs, toNat_of_scaleOf hs, isLeast_of_scaleOf hs⟩
  · exact ⟨scaleOf_eq_error hle, not_usable_of_size_le hle⟩
  · have hd : commonDenominator (weights' ++ [bias']) = commonDenominator (weights ++ [bias]) := by
      rw [commonDenominator_concat, commonDenominator_concat]
      exact commonDenominator_congr h
    exact ⟨hd, by rw [scaleOf, scaleOf, hd]⟩

/-- The denominators 65535 and 65537 give the greatest scale there is, whichever is that of the
bias; 65536 and 65537 give none. -/
theorem scaleOf_yields_least_usable_bordering :
    (∃ scale, scaleOf [1 / 65535, 3, 1 / 65535] (1 / 65537) = .ok scale ∧
      scale.toNat = UInt32.size - 1 ∧
      IsLeast {m | Usable [1 / 65535, 3, 1 / 65535] (1 / 65537) m} scale ∧
      scaleOf [1 / 65537] (1 / 65535) = .ok scale) ∧
    scaleOf [1 / 65536] (1 / 65537) = .error (.scaleOverflow (65536 * 65537)) ∧
    ∀ m, ¬ Usable [1 / 65536] (1 / 65537) m := by
  obtain ⟨-, -, hok, -, hcongr⟩ := scaleOf_yields_least_usable [1 / 65535, 3, 1 / 65535] (1 / 65537)
  obtain ⟨-, -, -, herror, -⟩ := scaleOf_yields_least_usable [1 / 65536] (1 / 65537)
  have hgreatest : commonDenominator ([1 / 65535, 3, 1 / 65535] ++ [1 / 65537]) =
      UInt32.size - 1 := by decide +kernel
  have hoverflow : commonDenominator ([1 / 65536] ++ [1 / 65537]) = 65536 * 65537 := by
    decide +kernel
  obtain ⟨scale, hs, hn, hleast⟩ := hok (by rw [hgreatest]; decide)
  have hswap : ∀ q : Rat, q.den ≠ 1 → (q ∈ [1 / 65535, 1 / 65537] ↔
      q ∈ [1 / 65537, 1 / 65535, 3, 1 / 65535]) := by
    intro q hq
    have h3 : q ≠ 3 := fun h => hq (h ▸ rfl)
    simp only [List.mem_cons, List.not_mem_nil, h3, or_false, false_or, or_self]
    exact or_comm
  rw [hoverflow] at herror
  exact ⟨⟨scale, hs, hn.trans hgreatest, hleast, (hcongr _ _ hswap).2.trans hs⟩,
    herror (by decide)⟩

end ManyValued
