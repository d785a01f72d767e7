import ManyValued.Evaluation
import ManyValued.Proofs.Valuation
import ManyValued.Term
import Mathlib.Algebra.Order.Field.Rat

/-! What a term means. A term writes a formula, and the exact Łukasiewicz value of that formula is
`Term.value`, computed on the term itself. So a synthesis can be judged without any text. -/

namespace ManyValued

/-- The connectives on exact truth values. -/
theorem meet_eq_min (x y : Rat) : TruthValue.meet x y = min x y := (min_def x y).symm

theorem join_eq_max (x y : Rat) : TruthValue.join x y = max x y := (max_def x y).symm

namespace Term

def formula : Term → Formula Unit
  | falsum => .leaf () "0"
  | verum => .leaf () "1"
  | input i => .leaf () (inputName i)
  | neg t => .unary () .neg t.formula
  | delta k t => .unary () (.delta k.val) t.formula
  | conj s t => .binary () .conj s.formula t.formula
  | disj s t => .binary () .disj s.formula t.formula

def inputs : Term → List Nat
  | falsum | verum => []
  | input i => [i]
  | neg t | delta _ t => t.inputs
  | conj s t | disj s t => s.inputs ++ t.inputs

/-- The exact value of a term. An input that `xs` does not have counts as 0. -/
def value (xs : List Rat) : Term → Rat
  | falsum => 0
  | verum => 1
  | input i => xs.getD i 0
  | neg t => 1 - t.value xs
  | delta k t => t.value xs / k.val.toNat
  | conj s t => max 0 (s.value xs + t.value xs - 1)
  | disj s t => min 1 (s.value xs + t.value xs)

theorem evaluate_formula {xs : List Rat} {t : Term} (h : ∀ i ∈ t.inputs, i < xs.length) :
    t.formula.evaluate Logic.lukasiewicz (Valuation.ofInputs xs) = .ok (t.value xs) := by
  induction t with
  | falsum => exact Valuation.leaf_constant xs rfl
  | verum => exact Valuation.leaf_constant xs rfl
  | input i =>
    have hi : i < xs.length := h i (by simp [inputs])
    have hx : xs[i]? = some (xs.getD i 0) := by simp [hi]
    exact Valuation.leaf_inputName hx
  | neg t ih =>
    simp only [formula, Formula.evaluate, ih h]
    rfl
  | delta k t ih =>
    simp only [formula, Formula.evaluate, ih h]
    rfl
  | conj s t ihs iht =>
    have hs := ihs fun i hi => h i (List.mem_append_left _ hi)
    have ht := iht fun i hi => h i (List.mem_append_right _ hi)
    simp only [formula, Formula.evaluate, hs, ht, value, ← join_eq_max]
    rfl
  | disj s t ihs iht =>
    have hs := ihs fun i hi => h i (List.mem_append_left _ hi)
    have ht := iht fun i hi => h i (List.mem_append_right _ hi)
    simp only [formula, Formula.evaluate, hs, ht, value, ← meet_eq_min]
    rfl

theorem value_of_isFalsum {t : Term} (h : t.isFalsum = true) (xs : List Rat) :
    t.value xs = 0 := by
  unfold isFalsum at h
  split at h
  · rfl
  · rename_i t
    obtain rfl : t = verum := by simpa using h
    simp [value]
  · cases h

theorem value_of_isVerum {t : Term} (h : t.isVerum = true) (xs : List Rat) :
    t.value xs = 1 := by
  unfold isVerum at h
  split at h
  · rfl
  · rename_i t
    obtain rfl : t = falsum := by simpa using h
    simp [value]
  · cases h

end Term

end ManyValued
