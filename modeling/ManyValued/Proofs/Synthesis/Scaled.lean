import ManyValued.Proofs.Synthesis.Integer
import ManyValued.Synthesis.Scaled
import Mathlib.Algebra.Order.Field.Basic
import Mathlib.Tactic.FieldSimp

/-! Terms for rational coefficients, by way of integer ones. The summands are cut off one after the
other: those with shifts below `n` add up to `min (max F 0) n / L` for `F = L * f`, so no sum of
them ever exceeds 1, and all `L` of them add up to `σ f`. -/

namespace ManyValued.Scaled

theorem outcome_synthesize (scale : UInt32) (weights : List Rat) (bias : Rat) :
    (synthesize scale weights bias).outcome = (do
      let ws ← weights.mapM (scaled · scale)
      let b ← scaled bias scale
      if scale = 1 then .ok (Integer.synthesize ws b).value
      else do
        let index ← Scale.ofUInt32 scale
        .ok (shiftedSum index ws b (scale.toNat - 1)).value) := by
  unfold synthesize
  rw [Attempt.outcome_bind, Attempt.outcome_ofExcept]
  congr 1
  funext ws
  rw [Attempt.outcome_bind, Attempt.outcome_ofExcept]
  congr 1
  funext b
  rw [outcome_note]
  split
  · rfl
  · rw [Attempt.outcome_bind, Attempt.outcome_ofExcept]
    rfl

section Sum

variable {scale : Scale} {weights : List Int} {bias : Int} {xs : List Rat}

theorem cut_succ (F : Rat) (n : Nat) :
    min (max F 0) n + clipped (F - n) = min (max F 0) (n + 1) := by
  have hn : (0 : Rat) ≤ n := n.cast_nonneg
  simp only [clipped, min_def, max_def]
  split_ifs <;> linarith

/-- A summand with shift `n`, before it is divided. -/
theorem value_shifted (weights : List Int) (bias : Int) (n : Nat) (hx : InUnitCube xs) :
    (Integer.synthesize weights (bias - n)).value.value xs =
      clipped (affine (rationals weights) bias xs - n) := by
  rw [(Integer.builds_synthesize weights (bias - n)).value_eq hx]
  push_cast
  rw [sub_eq_add_neg, affine_add, ← sub_eq_add_neg]

theorem value_shiftedSum (hx : InUnitCube xs) {last : Nat} (h : last < scale.val.toNat) :
    (shiftedSum scale weights bias last).value.value xs =
      min (max (affine (rationals weights) bias xs) 0) (last + 1) / scale.val.toNat := by
  have hL : (0 : Rat) < scale.val.toNat := by exact_mod_cast (by omega : 0 < scale.val.toNat)
  induction last with
  | zero =>
    have h0 := value_shifted weights bias 0 hx
    simp only [Nat.cast_zero, sub_zero] at h0
    simp only [shiftedSum, Logged.value_bind, Logged.value_pure, Term.value, h0, clipped,
      Nat.cast_zero, zero_add]
  | succ n ih =>
    have hn : (n : Rat) + 1 + 1 ≤ scale.val.toNat := by exact_mod_cast h
    have hs := value_shifted weights bias (n + 1) hx
    simp only [shiftedSum, Logged.value_bind, Logged.value_pure, Term.value, hs,
      ih (by omega)]
    rw [← add_div]
    have hc := cut_succ (affine (rationals weights) bias xs) (n + 1)
    push_cast at hc ⊢
    rw [hc, min_eq_right]
    rw [div_le_one hL]
    exact (min_le_right _ _).trans hn

theorem weighted_shiftedSum {last j : Nat}
    (hj : j ∈ (shiftedSum scale weights bias last).value.inputs) : Weighted weights j := by
  induction last with
  | zero => exact (Integer.builds_synthesize weights bias).weighted hj
  | succ n ih =>
    rcases List.mem_append.1 hj with hj | hj
    · exact ih hj
    · exact (Integer.builds_synthesize weights _).weighted hj

end Sum

variable {scale : UInt32} {weights : List Rat} {bias : Rat} {t : Term}

theorem cases_of_ok (h : (synthesize scale weights bias).outcome = .ok t) :
    ∃ ws b, weights.mapM (scaled · scale) = .ok ws ∧ scaled bias scale = .ok b ∧
      (scale = 1 ∧ t = (Integer.synthesize ws b).value ∨
        ∃ index : Scale, index.val = scale ∧
          t = (shiftedSum index ws b (scale.toNat - 1)).value) := by
  rw [outcome_synthesize] at h
  obtain ⟨ws, hws, h⟩ := bind_eq_ok_iff.1 h
  obtain ⟨b, hb, h⟩ := bind_eq_ok_iff.1 h
  refine ⟨ws, b, hws, hb, ?_⟩
  split at h
  · rename_i h1
    exact .inl ⟨h1, (Except.ok.inj h).symm⟩
  · obtain ⟨index, hi, h⟩ := bind_eq_ok_iff.1 h
    unfold Scale.ofUInt32 at hi
    split at hi
    · obtain rfl := Except.ok.inj hi
      exact .inr ⟨_, rfl, (Except.ok.inj h).symm⟩
    · cases hi

/-- A term is built exactly for a positive scale that clears all denominators. -/
theorem exists_outcome_iff (scale : UInt32) (weights : List Rat) (bias : Rat) :
    (∃ t, (synthesize scale weights bias).outcome = .ok t) ↔
      0 < scale ∧ Clears scale weights bias := by
  rw [Clears, List.forall_mem_cons, ← exists_mapM_scaled_iff, ← exists_scaled_iff]
  constructor
  · rintro ⟨t, h⟩
    obtain ⟨ws, b, hws, hb, ⟨rfl, -⟩ | ⟨index, rfl, -⟩⟩ := cases_of_ok h
    · exact ⟨by decide, ⟨b, hb⟩, ⟨ws, hws⟩⟩
    · exact ⟨index.positive, ⟨b, hb⟩, ⟨ws, hws⟩⟩
  · rintro ⟨hpos, ⟨b, hb⟩, ⟨ws, hws⟩⟩
    rw [outcome_synthesize, hws, hb]
    by_cases h1 : scale = 1
    · exact ⟨_, by simp only [ok_bind, if_pos h1]; rfl⟩
    · exact ⟨_, by simp only [ok_bind, if_neg h1, Scale.ofUInt32, dif_pos hpos]; rfl⟩

theorem weighted (h : (synthesize scale weights bias).outcome = .ok t) {j : Nat}
    (hj : j ∈ t.inputs) : Weighted weights j := by
  obtain ⟨ws, b, hws, -, hcases⟩ := cases_of_ok h
  have hj : Weighted ws j := by
    obtain ⟨-, rfl⟩ | ⟨index, -, rfl⟩ := hcases
    · exact (Integer.builds_synthesize ws b).weighted hj
    · exact weighted_shiftedSum hj
  obtain ⟨n, hn, hne⟩ := hj
  have hr : Weighted (rationals ws) j :=
    ⟨n, by rw [rationals, List.getElem?_map, hn]; rfl, by exact_mod_cast hne⟩
  rw [rationals_of_mapM_scaled hws] at hr
  exact hr.of_map (mul_zero _)

theorem value_eq (h : (synthesize scale weights bias).outcome = .ok t) {xs : List Rat}
    (hx : InUnitCube xs) : t.value xs = clipped (affine weights bias xs) := by
  obtain ⟨ws, b, hws, hb, hcases⟩ := cases_of_ok h
  -- The integer coefficients are those of `L * f`.
  have hF : affine (rationals ws) b xs = scale.toNat * affine weights bias xs := by
    rw [rationals_of_mapM_scaled hws, ← scaled_eq_ok_iff.1 hb, mul_comm bias, affine_map_mul]
  obtain ⟨rfl, rfl⟩ | ⟨index, rfl, rfl⟩ := hcases
  · rw [(Integer.builds_synthesize ws b).value_eq hx, hF]
    simp
  · have hpos : 0 < index.val.toNat := UInt32.lt_iff_toNat_lt.1 index.positive
    have hL : (0 : Rat) < index.val.toNat := by exact_mod_cast hpos
    have hlast : ((index.val.toNat - 1 : Nat) : Rat) + 1 = index.val.toNat := by
      exact_mod_cast Nat.sub_add_cancel hpos
    rw [value_shiftedSum hx (by omega), hF, hlast, clipped, div_eq_iff hL.ne',
      min_mul_of_nonneg _ _ hL.le, max_mul_of_nonneg _ _ hL.le, zero_mul, one_mul, mul_comm]

theorem computes (h : (synthesize scale weights bias).outcome = .ok t) :
    t.Computes weights bias :=
  Term.computes_of_value (fun _ => weighted h) fun _ => value_eq h

/-- With scale 1, integer coefficients are left as they are. -/
theorem outcome_synthesize_one (ws : List Int) (b : Int) :
    (synthesize 1 (rationals ws) b).outcome = .ok (Integer.synthesize ws b).value := by
  have hone : ((1 : UInt32).toNat : Rat) = 1 := Nat.cast_one
  have hs (n : Int) : scaled n 1 = .ok n := by rw [scaled_eq_ok_iff, hone, mul_one]
  have hws : (rationals ws).mapM (scaled · 1) = .ok ws := by
    rw [mapM_eq_ok_iff, rationals, List.forall₂_map_left_iff, List.forall₂_same]
    exact fun n _ => hs n
  rw [outcome_synthesize, hws, hs]
  rfl

/-- The sum of shifted terms is built exactly for a positive scale that clears all denominators, and
then it computes the clipped linear function; so do the integer terms, its case of scale 1. -/
theorem built_iff_clears_and_computes (scale : UInt32) (weights : List Rat) (bias : Rat) :
    ((∃ t, (synthesize scale weights bias).outcome = .ok t) ↔
      0 < scale ∧ Clears scale weights bias) ∧
    (∀ t, (synthesize scale weights bias).outcome = .ok t → t.Computes weights bias) ∧
    ∀ (ws : List Int) (b : Int),
      (synthesize 1 (rationals ws) b).outcome = .ok (Integer.synthesize ws b).value ∧
      (Integer.synthesize ws b).value.Computes (rationals ws) b :=
  ⟨exists_outcome_iff scale weights bias, fun _ => computes,
    fun ws b => ⟨outcome_synthesize_one ws b, computes (outcome_synthesize_one ws b)⟩⟩

theorem built_iff_clears_and_computes_sixths :
    ∃ t, (synthesize 6 [1 / 2, -1 / 3] (1 / 6)).outcome = .ok t ∧
      t.formula.evaluate Logic.lukasiewicz (Valuation.ofInputs [(1 : Rat), 1 / 2]) =
        .ok (1 / 2) := by
  obtain ⟨hiff, hval, -⟩ := built_iff_clears_and_computes 6 [1 / 2, -1 / 3] (1 / 6)
  obtain ⟨t, ht⟩ := hiff.2 ⟨by decide, by unfold Clears; decide +kernel⟩
  have hx : InUnitCube [1, 1 / 2] := by unfold InUnitCube; decide +kernel
  refine ⟨t, ht, (hval t ht [1, 1 / 2] rfl hx).trans ?_⟩
  norm_num

end ManyValued.Scaled
