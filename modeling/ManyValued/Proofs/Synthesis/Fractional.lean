import ManyValued.Proofs.Scale
import ManyValued.Proofs.Synthesis.Reduction
import ManyValued.Synthesis.Fractional
import Mathlib.Tactic.FieldSimp

/-! Terms for rational coefficients that are kept as they are. Whatever the scale, a term that was
built has the value of the clipped linear function: a coefficient `k / L` that passed the scale is
at most 1 where it becomes a chain, so the chain is never cut off. A scale that clears all
denominators clears those of every smaller problem too, so nothing fails. -/

namespace ManyValued.Fractional

variable {scale : UInt32} {weights : List Rat} {bias : Rat}

/-- `q` times a term, by a chain of `q * L` summands. -/
def multiple (scale : UInt32) (q : Rat) (t : Term) : Except Error Term := do
  let copies ← scaled q scale
  share scale t copies

theorem multiple_eq_ok {q : Rat} {t y : Term} (h : multiple scale q t = .ok y) :
    ∃ (index : Scale) (copies : Int), index.val = scale ∧ q * scale.toNat = copies ∧
      y = chain (.delta index t) (copies - 1).toNat := by
  obtain ⟨copies, hc, h⟩ := bind_eq_ok_iff.1 h
  obtain ⟨summand, hs, h⟩ := bind_eq_ok_iff.1 h
  obtain ⟨index, hi, hs⟩ := bind_eq_ok_iff.1 hs
  obtain rfl := Except.ok.inj hs
  obtain rfl := Except.ok.inj h
  unfold Scale.ofUInt32 at hi
  split at hi
  · obtain rfl := Except.ok.inj hi
    exact ⟨_, copies, rfl, scaled_eq_ok_iff.1 hc, rfl⟩
  · cases hi

theorem exists_multiple (hpos : 0 < scale) {q : Rat} (hq : q.den ∣ scale.toNat) (t : Term) :
    ∃ y, multiple scale q t = .ok y := by
  obtain ⟨copies, hc⟩ := (exists_scaled_iff q scale).2 hq
  refine ⟨chain (.delta ⟨scale, hpos⟩ t) (copies - 1).toNat, bind_eq_ok_iff.2 ⟨copies, hc, ?_⟩⟩
  rw [share, Term.divided, Scale.ofUInt32, dif_pos hpos]
  rfl

theorem value_chain {summand : Term} {xs : List Rat} {n : Nat} (h0 : 0 ≤ summand.value xs)
    (h1 : ((n : Rat) + 1) * summand.value xs ≤ 1) :
    (chain summand n).value xs = (n + 1) * summand.value xs := by
  induction n with
  | zero => simp [chain]
  | succ n ih =>
    push_cast at h1 ⊢
    have h2 : ((n : Rat) + 1) * summand.value xs ≤ 1 := by linarith
    rw [chain, Term.value, ih h2, ← add_one_mul, min_eq_right h1]

theorem inputs_chain {summand : Term} {n j : Nat} (h : j ∈ (chain summand n).inputs) :
    j ∈ summand.inputs := by
  induction n with
  | zero => exact h
  | succ n ih =>
    rcases List.mem_append.1 h with h | h
    · exact ih h
    · exact h

/-- A chain is not cut off, because `q` is at most 1. -/
theorem value_multiple {q : Rat} {t y : Term} {xs : List Rat} (h : multiple scale q t = .ok y)
    (hq0 : 0 < q) (hq1 : q ≤ 1) (ht0 : 0 ≤ t.value xs) (ht1 : t.value xs ≤ 1) :
    y.value xs = q * t.value xs := by
  obtain ⟨index, copies, rfl, hc, rfl⟩ := multiple_eq_ok h
  have hpos : 0 < index.val.toNat := UInt32.lt_iff_toNat_lt.1 index.positive
  have hL : (0 : Rat) < index.val.toNat := by exact_mod_cast hpos
  have hcopies : 0 < copies := by
    have : (0 : Rat) < copies := hc ▸ mul_pos hq0 hL
    exact_mod_cast this
  have hn : (((copies - 1).toNat : Nat) : Rat) + 1 = q * index.val.toNat := by
    have : ((copies - 1).toNat : Int) + 1 = copies := by omega
    rw [hc]
    exact_mod_cast this
  have hv : q * index.val.toNat * (t.value xs / index.val.toNat) = q * t.value xs := by
    field_simp
  rw [value_chain, hn, Term.value, hv]
  · exact div_nonneg ht0 hL.le
  · rw [hn, Term.value, hv]
    exact mul_le_one₀ hq1 ht0 ht1

theorem inputs_multiple {q : Rat} {t y : Term} (h : multiple scale q t = .ok y) {j : Nat}
    (hj : j ∈ y.inputs) : j ∈ t.inputs := by
  obtain ⟨index, copies, -, -, rfl⟩ := multiple_eq_ok h
  have h1 : j ∈ (Term.delta index t).inputs := inputs_chain hj
  exact h1

theorem synthesize_reflect (hz : ¬ weights.all (· = 0)) (hp : firstPositive? weights = none) :
    synthesize scale weights bias = (do
      Logged.note (.fractionalStep weights bias .reflect)
      let t ← synthesize scale (opposite weights) (1 - bias)
      return .neg t) := by
  rw [synthesize, dif_neg hz]
  split
  · rfl
  · simp_all

theorem synthesize_consume {i : Nat} (hz : ¬ weights.all (· = 0))
    (hp : firstPositive? weights = some i) (hs : weights.all (· < 1)) :
    synthesize scale weights bias = (do
      Logged.note (.fractionalStep weights bias (.consume (i + 1)))
      let copies ← Attempt.ofExcept (scaled (weights.getD i 0) scale)
      let left ← synthesize scale (consume weights i) bias
      let right ← synthesize scale (consume weights i) (bias + 1)
      let y ← Attempt.ofExcept (share scale (.input i) copies)
      return combine left y right) := by
  rw [synthesize, dif_neg hz]
  split
  · simp_all
  · rename_i j hj
    obtain rfl : i = j := Option.some.inj (hp.symm.trans hj)
    rw [dif_pos hs, List.get_eq_getElem, List.getElem_eq_getD]

theorem synthesize_decrement {i : Nat} (hz : ¬ weights.all (· = 0))
    (hp : firstPositive? weights = some i) (hs : ¬ weights.all (· < 1)) :
    synthesize scale weights bias = (do
      Logged.note (.fractionalStep weights bias (.decrement (i + 1)))
      let left ← synthesize scale (decrement weights i) bias
      let right ← synthesize scale (decrement weights i) (bias + 1)
      return combine left (.input i) right) := by
  rw [synthesize, dif_neg hz]
  split
  · simp_all
  · rename_i j hj
    obtain rfl : i = j := Option.some.inj (hp.symm.trans hj)
    rw [dif_neg hs]

theorem outcome_of_zeros (hz : weights.all (· = 0)) :
    (synthesize scale weights bias).outcome =
      if bias ≤ 0 ∨ 1 ≤ bias then .ok (.constant (0 < bias)) else multiple scale bias .verum := by
  rw [synthesize, dif_pos hz]
  split <;> rfl

theorem outcome_reflect (hz : ¬ weights.all (· = 0)) (hp : firstPositive? weights = none) :
    (synthesize scale weights bias).outcome =
      (synthesize scale (opposite weights) (1 - bias)).outcome >>= fun t => .ok (.neg t) := by
  rw [synthesize_reflect hz hp, outcome_note, Attempt.outcome_bind]
  rfl

theorem outcome_consume {i : Nat} (hz : ¬ weights.all (· = 0))
    (hp : firstPositive? weights = some i) (hs : weights.all (· < 1)) :
    (synthesize scale weights bias).outcome = (do
      let copies ← scaled (weights.getD i 0) scale
      let left ← (synthesize scale (consume weights i) bias).outcome
      let right ← (synthesize scale (consume weights i) (bias + 1)).outcome
      let y ← share scale (.input i) copies
      .ok (combine left y right)) := by
  rw [synthesize_consume hz hp hs, outcome_note]
  simp only [Attempt.outcome_bind, Attempt.outcome_ofExcept]
  rfl

theorem outcome_decrement {i : Nat} (hz : ¬ weights.all (· = 0))
    (hp : firstPositive? weights = some i) (hs : ¬ weights.all (· < 1)) :
    (synthesize scale weights bias).outcome = (do
      let left ← (synthesize scale (decrement weights i) bias).outcome
      let right ← (synthesize scale (decrement weights i) (bias + 1)).outcome
      .ok (combine left (.input i) right)) := by
  rw [synthesize_decrement hz hp hs, outcome_note]
  simp only [Attempt.outcome_bind]
  rfl

/-- One case for each branch of the recursion, as for integer coefficients. -/
inductive Builds (scale : UInt32) : List Rat → Rat → Term → Prop where
  | constant {weights : List Rat} {bias : Rat} (hz : weights.all (· = 0))
      (hb : bias ≤ 0 ∨ 1 ≤ bias) : Builds scale weights bias (.constant (0 < bias))
  | share {weights : List Rat} {bias : Rat} {t : Term} (hz : weights.all (· = 0))
      (hb : ¬ (bias ≤ 0 ∨ 1 ≤ bias)) (ht : multiple scale bias .verum = .ok t) :
      Builds scale weights bias t
  | reflect {weights : List Rat} {bias : Rat} {t : Term} (hz : ¬ weights.all (· = 0))
      (hp : firstPositive? weights = none) (ht : Builds scale (opposite weights) (1 - bias) t) :
      Builds scale weights bias (.neg t)
  | consume {weights : List Rat} {bias : Rat} {i : Nat} {left y right : Term}
      (hp : firstPositive? weights = some i) (hs : weights.all (· < 1))
      (hy : multiple scale (weights.getD i 0) (.input i) = .ok y)
      (hl : Builds scale (consume weights i) bias left)
      (hr : Builds scale (consume weights i) (bias + 1) right) :
      Builds scale weights bias (combine left y right)
  | decrement {weights : List Rat} {bias : Rat} {i : Nat} {left right : Term}
      (hp : firstPositive? weights = some i) (hs : ¬ weights.all (· < 1))
      (hl : Builds scale (decrement weights i) bias left)
      (hr : Builds scale (decrement weights i) (bias + 1) right) :
      Builds scale weights bias (combine left (.input i) right)

theorem builds_of_ok {t : Term} (h : (synthesize scale weights bias).outcome = .ok t) :
    Builds scale weights bias t := by
  induction weights, bias using synthesize.induct generalizing t with
  | case1 weights bias hz hb =>
    rw [outcome_of_zeros hz, if_pos hb] at h
    obtain rfl := Except.ok.inj h
    exact .constant hz hb
  | case2 weights bias hz hb =>
    rw [outcome_of_zeros hz, if_neg hb] at h
    exact .share hz hb h
  | case3 weights bias hz hp hlt ih =>
    rw [outcome_reflect hz hp] at h
    obtain ⟨t, ht, h⟩ := bind_eq_ok_iff.1 h
    obtain rfl := Except.ok.inj h
    exact .reflect hz hp (ih ht)
  | case4 weights bias hz i hp hs hlt ihl ihr =>
    rw [outcome_consume hz hp hs] at h
    obtain ⟨copies, hc, h⟩ := bind_eq_ok_iff.1 h
    obtain ⟨left, hl, h⟩ := bind_eq_ok_iff.1 h
    obtain ⟨right, hr, h⟩ := bind_eq_ok_iff.1 h
    obtain ⟨y, hy, h⟩ := bind_eq_ok_iff.1 h
    obtain rfl := Except.ok.inj h
    exact .consume hp hs (bind_eq_ok_iff.2 ⟨copies, hc, hy⟩) (ihl hl) (ihr hr)
  | case5 weights bias hz i hp hs hlt ihl ihr =>
    rw [outcome_decrement hz hp hs] at h
    obtain ⟨left, hl, h⟩ := bind_eq_ok_iff.1 h
    obtain ⟨right, hr, h⟩ := bind_eq_ok_iff.1 h
    obtain rfl := Except.ok.inj h
    exact .decrement hp hs (ihl hl) (ihr hr)

/-- A weight taken out leaves its whole contribution. -/
theorem affine_consume {i : Nat} (hp : firstPositive? weights = some i) (bias : Rat)
    (xs : List Rat) :
    affine weights bias xs =
      affine (consume weights i) bias xs + weights.getD i 0 * xs.getD i 0 := by
  obtain ⟨before, w, after, rfl, rfl, -, -⟩ := exists_of_firstPositive? hp
  have h := affine_exchange before w 0 after bias xs
  rw [sub_zero] at h
  rw [consume, modify_length_append, h]
  simp

theorem affine_decrement {i : Nat} (hp : firstPositive? weights = some i) (bias : Rat)
    (xs : List Rat) :
    affine weights bias xs = affine (decrement weights i) bias xs + xs.getD i 0 := by
  obtain ⟨before, w, after, rfl, rfl, -, -⟩ := exists_of_firstPositive? hp
  rw [decrement, modify_length_append, affine_exchange before w (w - 1) after, sub_sub_cancel,
    one_mul]

theorem pivot_mem {i : Nat} (hp : firstPositive? weights = some i)
    (hs : weights.all (· < 1)) : 0 < weights.getD i 0 ∧ weights.getD i 0 < 1 := by
  obtain ⟨before, w, after, rfl, rfl, hw, -⟩ := exists_of_firstPositive? hp
  have hw1 : w < 1 := of_decide_eq_true (List.all_eq_true.1 hs w (by simp))
  simp [hw, hw1]

namespace Builds

variable {t : Term} {xs : List Rat}

/-- The term has the value `σ (weights · xs + bias)` on the whole unit cube. -/
theorem value_eq (h : Builds scale weights bias t) (hx : InUnitCube xs) :
    t.value xs = clipped (affine weights bias xs) := by
  induction h with
  | @constant weights bias hz hb =>
    rw [affine_of_zeros hz, Term.value_constant]
    rcases hb with hb | hb
    · rw [clipped_of_nonpos hb]
      simp [hb]
    · have h0 : 0 < bias := zero_lt_one.trans_le hb
      rw [clipped_of_one_le hb]
      simp [h0]
  | @share weights bias t hz hb ht =>
    obtain ⟨h0, h1⟩ := not_or.1 hb
    have hv : (Term.verum).value xs = 1 := rfl
    rw [affine_of_zeros hz, clipped_of_mem (not_le.1 h0).le (not_le.1 h1).le,
      value_multiple ht (not_le.1 h0) (not_le.1 h1).le (hv ▸ zero_le_one) hv.le, hv, mul_one]
  | @reflect weights bias t hz hp ht ih =>
    rw [opposite, affine_reflect] at ih
    rw [Term.value, ih, ← clipped_reflect]
  | @consume weights bias i left y right hp hs hy hl hr ihl ihr =>
    obtain ⟨h0, h1⟩ := hx.getD i
    obtain ⟨hw0, hw1⟩ := pivot_mem hp hs
    have hv : y.value xs = weights.getD i 0 * xs.getD i 0 := value_multiple hy hw0 hw1.le h0 h1
    have hy0 : 0 ≤ y.value xs := hv ▸ mul_nonneg hw0.le h0
    have hy1 : y.value xs ≤ 1 := hv ▸ mul_le_one₀ hw1.le h0 h1
    rw [affine_add] at ihr
    rw [affine_consume hp, ← hv]
    exact Term.value_combine ihl ihr hy0 hy1
  | @decrement weights bias i left right hp hs hl hr ihl ihr =>
    obtain ⟨h0, h1⟩ := hx.getD i
    rw [affine_add] at ihr
    rw [affine_decrement hp]
    exact Term.value_combine ihl ihr h0 h1

theorem weighted (h : Builds scale weights bias t) {j : Nat} (hj : j ∈ t.inputs) :
    Weighted weights j := by
  have hlt : ¬ (0 : Rat) < 0 := lt_irrefl 0
  induction h with
  | constant hz hb =>
    rw [Term.inputs_constant] at hj
    cases hj
  | share hz hb ht => cases inputs_multiple ht hj
  | reflect hz hp ht ih => exact (ih hj).of_map neg_zero
  | consume hp hs hy hl hr ihl ihr =>
    apply Term.weighted_combine hlt hp hj ihl ihr
    intro hj
    exact List.mem_singleton.1 (inputs_multiple hy hj)
  | decrement hp hs hl hr ihl ihr =>
    exact Term.weighted_combine hlt hp hj ihl ihr List.mem_singleton.1

end Builds

theorem clears_consume {i : Nat} (hp : firstPositive? weights = some i)
    (h : Clears scale weights bias) : Clears scale (consume weights i) bias := by
  obtain ⟨before, w, after, rfl, rfl, -, -⟩ := exists_of_firstPositive? hp
  rw [consume, modify_length_append]
  exact h.exchange fun _ => Nat.one_dvd _

theorem clears_decrement {i : Nat} (hp : firstPositive? weights = some i)
    (h : Clears scale weights bias) : Clears scale (decrement weights i) bias := by
  obtain ⟨before, w, after, rfl, rfl, -, -⟩ := exists_of_firstPositive? hp
  rw [decrement, modify_length_append]
  exact h.exchange fun hw => (Rat.sub_den_dvd_lcm w 1).trans (Nat.lcm_dvd hw (Nat.one_dvd _))

theorem clears_pivot {i : Nat} (hp : firstPositive? weights = some i)
    (h : Clears scale weights bias) : (weights.getD i 0).den ∣ scale.toNat := by
  obtain ⟨before, w, after, rfl, rfl, -, -⟩ := exists_of_firstPositive? hp
  have hw := h w (by simp)
  simpa using hw

theorem exists_of_clears (hpos : 0 < scale) (h : Clears scale weights bias) :
    ∃ t, (synthesize scale weights bias).outcome = .ok t := by
  induction weights, bias using synthesize.induct with
  | case1 weights bias hz hb => exact ⟨_, by rw [outcome_of_zeros hz, if_pos hb]⟩
  | case2 weights bias hz hb =>
    rw [outcome_of_zeros hz, if_neg hb]
    exact exists_multiple hpos (h bias (by simp)) .verum
  | case3 weights bias hz hp hlt ih =>
    obtain ⟨t, ht⟩ := ih h.reflect
    exact ⟨_, by rw [outcome_reflect hz hp, ht, ok_bind]⟩
  | case4 weights bias hz i hp hs hlt ihl ihr =>
    have hc := clears_consume hp h
    obtain ⟨left, hl⟩ := ihl hc
    obtain ⟨right, hr⟩ := ihr hc.add_one
    obtain ⟨y, hy⟩ := exists_multiple hpos (clears_pivot hp h) (.input i)
    obtain ⟨copies, hcopies, hy⟩ := bind_eq_ok_iff.1 hy
    exact ⟨_, by simp only [outcome_consume hz hp hs, hcopies, hl, hr, hy, ok_bind]; rfl⟩
  | case5 weights bias hz i hp hs hlt ihl ihr =>
    have hc := clears_decrement hp h
    obtain ⟨left, hl⟩ := ihl hc
    obtain ⟨right, hr⟩ := ihr hc.add_one
    exact ⟨_, by simp only [outcome_decrement hz hp hs, hl, hr, ok_bind]; rfl⟩

theorem computes {t : Term} (h : (synthesize scale weights bias).outcome = .ok t) :
    t.Computes weights bias :=
  Term.computes_of_value (fun _ => (builds_of_ok h).weighted) fun _ => (builds_of_ok h).value_eq

/-- A term that is built at all computes the clipped linear function, whatever the scale; one is
built for every positive scale that clears all denominators. -/
theorem computes_if_built_and_built_if_clears (scale : UInt32) (weights : List Rat) (bias : Rat) :
    (∀ t, (synthesize scale weights bias).outcome = .ok t → t.Computes weights bias) ∧
    (0 < scale → Clears scale weights bias →
      ∃ t, (synthesize scale weights bias).outcome = .ok t) :=
  ⟨fun _ => computes, exists_of_clears⟩

theorem computes_if_built_and_built_if_clears_quarters :
    ∃ t, (synthesize 4 [3 / 2, -1 / 4] (1 / 4)).outcome = .ok t ∧
      t.formula.evaluate Logic.lukasiewicz (Valuation.ofInputs [(1 : Rat) / 4, 1 / 2]) =
        .ok (1 / 2) := by
  obtain ⟨hval, hbuilt⟩ := computes_if_built_and_built_if_clears 4 [3 / 2, -1 / 4] (1 / 4)
  obtain ⟨t, ht⟩ := hbuilt (by decide) (by unfold Clears; decide +kernel)
  have hx : InUnitCube [1 / 4, 1 / 2] := by unfold InUnitCube; decide +kernel
  refine ⟨t, ht, (hval t ht [1 / 4, 1 / 2] rfl hx).trans ?_⟩
  norm_num

end ManyValued.Fractional
