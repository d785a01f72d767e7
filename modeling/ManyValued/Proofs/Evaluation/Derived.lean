import ManyValued.Proofs.Evaluation.Range
import Mathlib.Algebra.Order.Group.MinMax
import Mathlib.Tactic.Ring

/-! Connectives that are derived from an implication. The derivations of `¬`, `⊙` and `⊕` are nested
clipped implications, and they are equal to the direct truth functions of Łukasiewicz logic only for
operands in `[0, 1]`. So two things go through a formula together: that its parts have the same
values, and that these values are in `[0, 1]`. -/

namespace ManyValued

variable {α μ : Type}

def Unary.Derivable (op : Unary) : Prop := op = .neg

def Binary.Derivable (op : Binary) : Prop := op = .conj ∨ op = .disj ∨ op = .implies

instance : DecidablePred Unary.Derivable := fun op => inferInstanceAs (Decidable (op = .neg))

instance : DecidablePred Binary.Derivable := fun op =>
  inferInstanceAs (Decidable (op = .conj ∨ op = .disj ∨ op = .implies))

namespace Formula

/-- The formula has no connectives but `¬`, `⊙`, `⊕` and `⇒`. -/
def Derivable : Formula μ → Prop
  | leaf _ _ => True
  | unary _ op x => op.Derivable ∧ x.Derivable
  | binary _ op x y => op.Derivable ∧ x.Derivable ∧ y.Derivable

instance decidableDerivable : (x : Formula μ) → Decidable x.Derivable
  | leaf _ _ => inferInstanceAs (Decidable True)
  | unary _ op x =>
    have := decidableDerivable x
    inferInstanceAs (Decidable (op.Derivable ∧ x.Derivable))
  | binary _ op x y =>
    have := decidableDerivable x
    have := decidableDerivable y
    inferInstanceAs (Decidable (op.Derivable ∧ x.Derivable ∧ y.Derivable))

theorem Derivable.positiveScales {x : Formula μ} (h : x.Derivable) : x.PositiveScales := by
  induction x with
  | leaf m name => trivial
  | unary m op x ih =>
    obtain ⟨rfl, hx⟩ := h
    exact ⟨trivial, ih hx⟩
  | binary m op x y ihx ihy =>
    obtain ⟨-, hx, hy⟩ := h
    exact ⟨ihx hx, ihy hy⟩

end Formula

theorem Within.bind_congr {β : Type} {values : Set α} {r : Except Error α}
    {f g : α → Except Error β} (hr : Within values r) (h : ∀ a ∈ values, f a = g a) :
    r >>= f = r >>= g := by
  cases r with
  | error e => rfl
  | ok a => exact h a (hr a rfl)

namespace Logic

/-- The connectives with a derivation have the same truth functions on the set. -/
structure AgreeOn (values : Set α) (l l' : Logic α) : Prop where
  unary : ∀ {op a}, op.Derivable → a ∈ values → l.unary op a = l'.unary op a
  binary : ∀ {op a b}, op.Derivable → a ∈ values → b ∈ values →
    l.binary op a b = l'.binary op a b

section Evaluate

open TruthValue

variable [TruthValue α] {values : Set α} {l l' : Logic α} {v : Valuation α}

/-- Where one of the logics also keeps the set, they agree on whole formulas. -/
theorem AgreeOn.evaluate (h : AgreeOn values l l') (hl : l.Keeps values) (hv : v.Within values)
    (h0 : zero ∈ values) (h1 : one ∈ values) {x : Formula μ} (hx : x.Derivable) :
    x.evaluate l v = x.evaluate l' v := by
  induction x with
  | leaf m name => rfl
  | unary m op x ih =>
    obtain ⟨hop, hx⟩ := hx
    have hvalue := hl.evaluate hv h0 h1 hx.positiveScales
    calc (Formula.unary m op x).evaluate l v
      _ = x.evaluate l v >>= l'.unary op := hvalue.bind_congr fun a ha => h.unary hop ha
      _ = (Formula.unary m op x).evaluate l' v := by rw [ih hx, Formula.evaluate]
  | binary m op x y ihx ihy =>
    obtain ⟨hop, hx, hy⟩ := hx
    have hleft := hl.evaluate hv h0 h1 hx.positiveScales
    have hright := hl.evaluate hv h0 h1 hy.positiveScales
    calc (Formula.binary m op x y).evaluate l v
      _ = x.evaluate l v >>= fun a => y.evaluate l v >>= l'.binary op a :=
        hleft.bind_congr fun a ha => hright.bind_congr fun b hb => h.binary hop ha hb
      _ = (Formula.binary m op x y).evaluate l' v := by rw [ihx hx, ihy hy, Formula.evaluate]

end Evaluate

def derivedLukasiewicz [TruthValue α] (name : String) : Logic α :=
  derived name (.ok TruthValue.zero) fun x y => .ok (lukasiewiczImplies x y)

end Logic

section UnitInterval

open TruthValue

variable {a b : Rat}

theorem lukasiewiczImplies_eq_min (a b : Rat) :
    Logic.lukasiewiczImplies a b = min 1 (1 - a + b) := meet_eq_min 1 (1 - a + b)

/-- `¬A = A ⇒ ⊥`; for `A` below 0 the implication is clipped. -/
theorem lukasiewiczImplies_zero (ha : 0 ≤ a) : Logic.lukasiewiczImplies a zero = 1 - a := by
  calc Logic.lukasiewiczImplies a zero
    _ = min 1 (1 - a + 0) := lukasiewiczImplies_eq_min a 0
    _ = 1 - a := by rw [add_zero, min_eq_right (sub_le_self 1 ha)]

/-- `A ⊙ B = ¬(A ⇒ ¬B)`, with the inner negation taken already. -/
theorem one_sub_lukasiewiczImplies (a b : Rat) :
    1 - Logic.lukasiewiczImplies a (1 - b) = max 0 (a + b - 1) := by
  calc 1 - Logic.lukasiewiczImplies a (1 - b)
    _ = 1 - min 1 (1 - a + (1 - b)) := by rw [lukasiewiczImplies_eq_min]
    _ = max (1 - 1) (1 - (1 - a + (1 - b))) := (max_sub_sub_left 1 1 _).symm
    _ = max 0 (a + b - 1) := by ring_nf

/-- `A ⊕ B = ¬A ⇒ B`, with the negation taken already. -/
theorem lukasiewiczImplies_one_sub (a b : Rat) :
    Logic.lukasiewiczImplies (1 - a) b = min 1 (a + b) := by
  rw [lukasiewiczImplies_eq_min, sub_sub_cancel]

theorem lukasiewiczImplies_nonneg (ha : a ≤ 1) (hb : 0 ≤ b) :
    0 ≤ Logic.lukasiewiczImplies a b :=
  (meet_one_mem_Icc (add_nonneg (sub_nonneg.2 ha) hb)).1

theorem agreeOn_derivedLukasiewicz (name : String) : Logic.AgreeOn (Set.Icc (0 : Rat) 1)
    Logic.lukasiewicz (Logic.derivedLukasiewicz name) where
  unary {op a} hop ha := by
    obtain rfl := hop
    exact congrArg Except.ok (lukasiewiczImplies_zero ha.1).symm
  binary {op a b} hop ha hb := by
    rcases hop with rfl | rfl | rfl
    · have hz : 0 ≤ Logic.lukasiewiczImplies a (1 - b) :=
        lukasiewiczImplies_nonneg ha.2 (sub_nonneg.2 hb.2)
      refine congrArg Except.ok ?_
      rw [lukasiewiczImplies_zero hb.1, lukasiewiczImplies_zero hz, one_sub_lukasiewiczImplies]
      exact join_eq_max 0 (a + b - 1)
    · refine congrArg Except.ok ?_
      rw [lukasiewiczImplies_zero ha.1, lukasiewiczImplies_one_sub]
      exact meet_eq_min 1 (a + b)
    · rfl

end UnitInterval

/-- Łukasiewicz logic and the logic that has its implication and takes the rest from the derivations
give a formula the same value, or the same error, where all values that are bound are in `[0,
1]`. -/
theorem derivations_agree_with_lukasiewicz (name : String) {x : Formula μ} {v : Valuation Rat}
    (hx : x.Derivable) (hv : ∀ a q, v.get? a = some q → 0 ≤ q ∧ q ≤ 1) :
    x.evaluate (Logic.derivedLukasiewicz name) v = x.evaluate Logic.lukasiewicz v :=
  ((agreeOn_derivedLukasiewicz name).evaluate keeps_lukasiewicz hv (truth_mem_Icc false)
    (truth_mem_Icc true) hx).symm

def derivable : Formula Depth :=
  .binary 0 .implies
    (.binary 1 .disj (.unary 2 .neg (.leaf 3 "A")) (.binary 2 .conj (.leaf 3 "B") (.leaf 3 "A")))
    (.leaf 1 "0")

theorem derivations_agree_with_lukasiewicz_derivable :
    let v : Valuation Rat := Valuation.ofList [("A", 3 / 4), ("B", 1 / 2)]
    derivable.Derivable ∧ (∀ a q, v.get? a = some q → 0 ≤ q ∧ q ≤ 1) ∧
      derivable.evaluate (Logic.derivedLukasiewicz "derived") v = .ok (1 / 2) := by
  intro v
  have hx : derivable.Derivable := by decide
  have hv : v.Within (Set.Icc 0 1) := by
    refine Valuation.within_ofList (List.forall_mem_cons.2 ⟨?_, List.forall_mem_singleton.2 ?_⟩)
    · exact ⟨by decide +kernel, by decide +kernel⟩
    · exact ⟨by decide +kernel, by decide +kernel⟩
  have ha : v.leaf "A" = .ok (3 / 4) := by rw [Valuation.leaf, Valuation.get?_ofList]; rfl
  have hb : v.leaf "B" = .ok (1 / 2) := by rw [Valuation.leaf, Valuation.get?_ofList]; rfl
  have h0 : v.leaf "0" = .ok 0 := by rw [Valuation.leaf, Valuation.get?_ofList]; rfl
  refine ⟨hx, hv, (derivations_agree_with_lukasiewicz "derived" hx hv).trans ?_⟩
  simp only [derivable, Formula.evaluate, ha, hb, h0, ok_bind]
  decide +kernel

end ManyValued
