import ManyValued.Proofs.Formula.Replacement
import ManyValued.Proofs.Formula.RoundTrip
import ManyValued.Proofs.Term

/-! Terms travel as texts. A term and the formula that it writes print the same text, constructor by
constructor, and that formula is well formed: its leaves are constants and names of inputs, and no
scale of a term is 0. So the text of a term is read as its formula, and since different terms write
different formulas the text tells all terms apart. -/

namespace ManyValued

namespace Formula

variable {μ : Type}

@[simp] theorem size_shape (x : Formula μ) : x.shape.size = x.size := by
  induction x with
  | leaf m name => rfl
  | unary m op x ih => rw [shape_unary, size, size, ih]
  | binary m op x y ihx ihy => rw [shape_binary, size, size, ihx, ihy]

end Formula

namespace Term

theorem render_formula (t : Term) : t.formula.render = t.render := by
  induction t with
  | falsum => rfl
  | verum => rfl
  | input i => rfl
  | neg t ih => rw [formula, Formula.render, ih, render]
  | delta k t ih => rw [formula, Formula.render, ih, render]
  | conj s t ihs iht => rw [formula, Formula.render, ihs, iht, render]
  | disj s t ihs iht => rw [formula, Formula.render, ihs, iht, render]

theorem size_formula (t : Term) : t.formula.size = t.size := by
  induction t with
  | falsum => rfl
  | verum => rfl
  | input i => rfl
  | neg t ih => rw [formula, Formula.size, ih, size]
  | delta k t ih => rw [formula, Formula.size, ih, size]
  | conj s t ihs iht => rw [formula, Formula.size, ihs, iht, size]
  | disj s t ihs iht => rw [formula, Formula.size, ihs, iht, size]

theorem wellFormed_formula (t : Term) : t.formula.WellFormed := by
  induction t with
  | falsum => exact .inr rfl
  | verum => exact .inr rfl
  | input i => exact .inl (isAtom_inputName i)
  | neg t ih => exact ⟨trivial, ih⟩
  | delta k t ih => exact ⟨UInt32.lt_iff_toNat_lt.1 k.positive, ih⟩
  | conj s t ihs iht => exact ⟨ihs, iht⟩
  | disj s t ihs iht => exact ⟨ihs, iht⟩

theorem formula_input_ne {i : Nat} {name : String} (h : isConstant name = true) :
    (input i).formula ≠ .leaf () name := by
  intro hi
  obtain ⟨-, rfl⟩ := Formula.leaf.inj hi
  exact Formula.constant_ne h isAtom_inputName i rfl

theorem formula_injective : Function.Injective formula := by
  intro s
  induction s with
  | falsum =>
    intro t h
    cases t with
    | falsum => rfl
    | verum => exact absurd h (by decide)
    | input i => exact absurd h.symm (formula_input_ne rfl)
    | _ => cases h
  | verum =>
    intro t h
    cases t with
    | falsum => exact absurd h (by decide)
    | verum => rfl
    | input i => exact absurd h.symm (formula_input_ne rfl)
    | _ => cases h
  | input i =>
    intro t h
    cases t with
    | falsum => exact absurd h (formula_input_ne rfl)
    | verum => exact absurd h (formula_input_ne rfl)
    | input j =>
      obtain ⟨-, hij⟩ := Formula.leaf.inj h
      rw [inputName_inj.1 hij]
    | _ => cases h
  | neg s ih =>
    intro t h
    cases t with
    | neg t =>
      obtain ⟨-, -, hst⟩ := Formula.unary.inj h
      rw [ih hst]
    | _ => cases h
  | delta k s ih =>
    intro t h
    cases t with
    | delta m t =>
      obtain ⟨-, hkm, hst⟩ := Formula.unary.inj h
      obtain ⟨k, hk⟩ := k
      obtain ⟨m, hm⟩ := m
      obtain rfl : k = m := Unary.delta.inj hkm
      rw [ih hst]
    | _ => cases h
  | conj s s' ih ih' =>
    intro t h
    cases t with
    | conj t t' =>
      obtain ⟨-, -, hst, hst'⟩ := Formula.binary.inj h
      rw [ih hst, ih' hst']
    | _ => cases h
  | disj s s' ih ih' =>
    intro t h
    cases t with
    | disj t t' =>
      obtain ⟨-, -, hst, hst'⟩ := Formula.binary.inj h
      rw [ih hst, ih' hst']
    | _ => cases h

/-- The formula is what the text is read as, so two terms with one text have one formula. -/
theorem render_inj {s t : Term} : s.render = t.render ↔ s = t := by
  constructor
  · intro h
    rw [← render_formula, ← render_formula] at h
    have hst := Formula.sameShape_of_render_eq s.wellFormed_formula t.wellFormed_formula h
    rw [Formula.SameShape, Formula.shape_of_unit, Formula.shape_of_unit] at hst
    exact formula_injective hst
  · rintro rfl
    rfl

/-- The text of a term is read as the formula that mirrors the term, with the root at depth 0. This
formula prints the text again and is as large as the term, and no other term has that text. -/
theorem parse_mirrors_term (t : Term) :
    (Formula.parse t.render).outcome = .ok (t.formula.atDepth 0) ∧
    (t.formula.atDepth 0).render = t.render ∧
    (t.formula.atDepth 0).size = t.size ∧
    ∀ s : Term, s.render = t.render ↔ s = t := by
  refine ⟨?_, ?_, ?_, fun s => render_inj⟩
  · rw [← render_formula, outcome_parse, treeOf_render t.wellFormed_formula,
      Formula.shape_of_unit]
    rfl
  · rw [← Formula.render_shape, Formula.shape_atDepth, Formula.render_shape, render_formula]
  · rw [← Formula.size_shape, Formula.shape_atDepth, Formula.size_shape, size_formula]

end Term

end ManyValued
