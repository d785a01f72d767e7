import ManyValued.Proofs.Synthesis.Integral

/-! What a synthesis writes with. A step changes the weight of its pivot only, and the pivot has a
weight, so an input without one is never named. The only `δ` are those that divide a summand by the
scale, and the scale is handed down unchanged; so they all have the common denominator, and integer
coefficients need none. -/

namespace ManyValued

namespace Term

def scales : Term → List Scale
  | falsum | verum | input _ => []
  | neg t => t.scales
  | delta k t => k :: t.scales
  | conj s t | disj s t => s.scales ++ t.scales

/-- Every `δ` of the term has a scale that is allowed. -/
def DividesBy (allowed : Scale → Prop) (t : Term) : Prop := ∀ k ∈ t.scales, allowed k

variable {allowed : Scale → Prop} {s t left y right : Term}

theorem DividesBy.of_scales_eq_nil (h : t.scales = []) : t.DividesBy allowed := by
  rw [DividesBy, h]
  exact List.forall_mem_nil allowed

theorem dividesBy_delta {k : Scale} (hk : allowed k) (ht : t.DividesBy allowed) :
    (delta k t).DividesBy allowed :=
  List.forall_mem_cons.2 ⟨hk, ht⟩

theorem dividesBy_disj (hs : s.DividesBy allowed) (ht : t.DividesBy allowed) :
    (disj s t).DividesBy allowed :=
  List.forall_mem_append.2 ⟨hs, ht⟩

theorem dividesBy_constant (b : Bool) : (constant b).DividesBy allowed := by
  cases b <;> exact .of_scales_eq_nil rfl

theorem dividesBy_combine (hl : left.DividesBy allowed) (hy : y.DividesBy allowed)
    (hr : right.DividesBy allowed) : (combine left y right).DividesBy allowed :=
  combine_induction (P := DividesBy allowed) (.of_scales_eq_nil rfl)
    (fun _ _ hs ht => List.forall_mem_append.2 ⟨hs, ht⟩) (fun _ _ => dividesBy_disj) hl hy hr

end Term

/-- Integer coefficients are not divided. -/
theorem Integer.Builds.scales_eq_nil {weights : List Int} {bias : Int} {t : Term}
    (h : Builds weights bias t) : t.scales = [] := by
  suffices h : t.DividesBy fun _ => False from List.eq_nil_iff_forall_not_mem.2 h
  induction h with
  | constant hz => exact Term.dividesBy_constant _
  | reflect hz hp ht ih => exact ih
  | decrement hp hl hr ihl ihr => exact Term.dividesBy_combine ihl (.of_scales_eq_nil rfl) ihr

namespace Fractional

variable {scale : UInt32} {weights : List Rat} {bias : Rat} {t : Term}

theorem dividesBy_chain {allowed : Scale → Prop} {summand : Term} (h : summand.DividesBy allowed)
    (n : Nat) : (chain summand n).DividesBy allowed := by
  induction n with
  | zero => exact h
  | succ n ih => exact Term.dividesBy_disj ih h

theorem dividesBy_multiple {q : Rat} {y : Term} (ht : t.scales = [])
    (h : multiple scale q t = .ok y) : y.DividesBy fun k => k.val = scale := by
  obtain ⟨index, copies, hi, -, rfl⟩ := multiple_eq_ok h
  exact dividesBy_chain (Term.dividesBy_delta hi (.of_scales_eq_nil ht)) _

theorem Builds.dividesBy (h : Builds scale weights bias t) :
    t.DividesBy fun k => k.val = scale := by
  induction h with
  | constant hz hb => exact Term.dividesBy_constant _
  | share hz hb ht => exact dividesBy_multiple rfl ht
  | reflect hz hp ht ih => exact ih
  | consume hp hs hy hl hr ihl ihr =>
    exact Term.dividesBy_combine ihl (dividesBy_multiple rfl hy) ihr
  | decrement hp hs hl hr ihl ihr =>
    exact Term.dividesBy_combine ihl (.of_scales_eq_nil rfl) ihr

end Fractional

namespace Scaled

theorem dividesBy_shiftedSum (scale : Scale) (weights : List Int) (bias : Int) (last : Nat) :
    (shiftedSum scale weights bias last).value.DividesBy (· = scale) := by
  have hsummand (b : Int) : (Term.delta scale (Integer.synthesize weights b).value).DividesBy
      (· = scale) :=
    Term.dividesBy_delta rfl (.of_scales_eq_nil (Integer.builds_synthesize weights b).scales_eq_nil)
  induction last with
  | zero => exact hsummand bias
  | succ n ih => exact Term.dividesBy_disj ih (hsummand _)

theorem dividesBy {scale : UInt32} {weights : List Rat} {bias : Rat} {t : Term}
    (h : (synthesize scale weights bias).outcome = .ok t) :
    t.DividesBy fun k => k.val = scale := by
  obtain ⟨ws, b, -, -, ⟨-, rfl⟩ | ⟨index, rfl, rfl⟩⟩ := cases_of_ok h
  · exact .of_scales_eq_nil (Integer.builds_synthesize ws b).scales_eq_nil
  · intro k hk
    rw [dividesBy_shiftedSum index ws b _ k hk]

end Scaled

section Synthesize

variable {strategy : Strategy} {weights : List Rat} {bias : Rat} {t : Term}

/-- A term names inputs with a weight that is not 0 and no others, and divides by the common
denominator and by nothing else; with integer coefficients it does not divide at all. -/
theorem vocabulary_of_synthesize (h : (synthesize strategy weights bias).outcome = .ok t) :
    (∀ j ∈ t.inputs, ∃ w, weights[j]? = some w ∧ w ≠ 0) ∧
    (∀ k ∈ t.scales, k.val.toNat = commonDenominator (weights ++ [bias])) ∧
    ((∀ q ∈ bias :: weights, q.den = 1) → t.scales = []) := by
  refine ⟨fun j => weighted_of_synthesize h, ?_, ?_⟩
  · rw [synthesize, Attempt.outcome_bind] at h
    obtain ⟨scale, hs, h⟩ := bind_eq_ok_iff.1 h
    have ht : t.DividesBy fun k => k.val = scale := by
      cases strategy with
      | scaled => exact Scaled.dividesBy h
      | fractional => exact (Fractional.builds_of_ok h).dividesBy
    intro k hk
    rw [ht k hk]
    exact toNat_of_scaleOf hs
  · intro hone
    obtain ⟨hb, hw⟩ := List.forall_mem_cons.1 hone
    obtain ⟨ws, rfl⟩ := exists_rationals hw
    rw [← Rat.coe_int_num_of_den_eq_one hb, synthesize_rationals] at h
    rw [← Except.ok.inj h]
    exact (Integer.builds_synthesize ws bias.num).scales_eq_nil

def halves : Term :=
  let two : Scale := ⟨2, by decide⟩
  .disj (.delta two (.disj (.neg (.input 2)) (.input 0)))
    (.delta two (.conj (.input 0) (.neg (.input 2))))

theorem vocabulary_of_synthesize_halves :
    ((synthesize .scaled [1 / 2, 0, -1 / 2] (1 / 2)).outcome = .ok halves ∧
      (∀ j ∈ halves.inputs, ∃ w, ([1 / 2, 0, -1 / 2] : List Rat)[j]? = some w ∧ w ≠ 0) ∧
      ∀ k ∈ halves.scales, k.val.toNat = commonDenominator ([1 / 2, 0, -1 / 2] ++ [1 / 2])) ∧
    ∃ t, (synthesize .fractional [2, 0, -1] 1).outcome = .ok t ∧ t.scales = [] := by
  have hhalves : (synthesize .scaled [1 / 2, 0, -1 / 2] (1 / 2)).outcome = .ok halves := by
    decide +kernel
  obtain ⟨hinputs, hscales, -⟩ := vocabulary_of_synthesize hhalves
  have hsmall : commonDenominator ([2, 0, -1] ++ [1]) < UInt32.size := by decide
  obtain ⟨t, ht, -⟩ := exists_synthesize hsmall .fractional
  obtain ⟨-, -, hnone⟩ := vocabulary_of_synthesize ht
  exact ⟨⟨hhalves, hinputs, hscales⟩, t, ht, hnone (by decide)⟩

end Synthesize

end ManyValued
