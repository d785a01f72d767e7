import ManyValued.Proofs.Evaluation.Derived
import ManyValued.Proofs.Formula.Replacement

/-! Crisp valuations. On the values 0 and 1 the implications of Łukasiewicz and Gödel logic are the
classical one. The connectives that are derived from a classical implication are classical, and
those that the two logics choose themselves agree with them there. So the parts of a formula have
crisp values as long as its atoms have, and the formula has its classical truth value in all four
logics. All that this takes from the numbers is how they behave at 0 and 1, where rounding changes
nothing. -/

namespace ManyValued

open TruthValue

variable {α μ : Type}

def Unary.classical? : Unary → Option (Bool → Bool)
  | .neg => some fun a => !a
  | .delta _ => none

def Binary.classical? : Binary → Option (Bool → Bool → Bool)
  | .conj => some fun a b => a && b
  | .disj => some fun a b => a || b
  | .implies => some fun a b => !a || b
  | .equals | .unequals => none

theorem Unary.Derivable.exists_classical {op : Unary} (h : op.Derivable) :
    ∃ f, op.classical? = some f := by
  obtain rfl := h
  exact ⟨_, rfl⟩

theorem Binary.Derivable.exists_classical {op : Binary} (h : op.Derivable) :
    ∃ f, op.classical? = some f := by
  rcases h with rfl | rfl | rfl
  · exact ⟨_, rfl⟩
  · exact ⟨_, rfl⟩
  · exact ⟨_, rfl⟩

def leafHolds (holds : String → Bool) (name : String) : Bool :=
  if name = "0" then false else if name = "1" then true else holds name

def Formula.classical? (holds : String → Bool) : Formula μ → Option Bool
  | leaf _ name => some (leafHolds holds name)
  | unary _ op x => do
    let f ← op.classical?
    let a ← x.classical? holds
    some (f a)
  | binary _ op x y => do
    let f ← op.classical?
    let a ← x.classical? holds
    let b ← y.classical? holds
    some (f a b)

/-- On 0 and 1 the arithmetic is that of the classical truth values. -/
class CrispArithmetic (α : Type) [TruthValue α] : Prop where
  same_truth : ∀ a b : Bool, same (truth a : α) (truth b) = (a == b)
  less_truth : ∀ a b : Bool, less (truth a : α) (truth b) = (!a && b)
  meet_truth : ∀ a b : Bool, meet (truth a : α) (truth b) = truth (a && b)
  join_truth : ∀ a b : Bool, join (truth a : α) (truth b) = truth (a || b)
  one_sub_truth : ∀ a : Bool, (one - truth a : α) = truth !a
  meet_one_add : ∀ a b : Bool, meet one (truth a + truth b : α) = truth (a || b)
  join_zero_add_sub : ∀ a b : Bool, join zero (truth a + truth b - one : α) = truth (a && b)

instance : CrispArithmetic Rat where
  same_truth := by decide +kernel
  less_truth := by decide +kernel
  meet_truth := by decide +kernel
  join_truth := by decide +kernel
  one_sub_truth := by decide +kernel
  meet_one_add := by decide +kernel
  join_zero_add_sub := by decide +kernel

instance : CrispArithmetic Float where
  same_truth := by decide +kernel
  less_truth := by decide +kernel
  meet_truth := by decide +kernel
  join_truth := by decide +kernel
  one_sub_truth := by decide +kernel
  meet_one_add := by decide +kernel
  join_zero_add_sub := by decide +kernel

namespace Valuation

variable [TruthValue α] {v : Valuation α} {x : Formula μ} {a : String}

def holds (v : Valuation α) (name : String) : Bool := (v.get? name).any (same · one)

/-- All atoms of the formula are bound to 0 or 1, and no constant is bound to anything. -/
structure Crisp (v : Valuation α) (x : Formula μ) : Prop where
  atoms : ∀ a ∈ x.names, isConstant a = false → v.get? a = some zero ∨ v.get? a = some one
  constants : ∀ a, isConstant a = true → v.get? a = none

variable [CrispArithmetic α]

theorem get?_eq_truth_holds (h : v.get? a = some zero ∨ v.get? a = some one) :
    v.get? a = some (truth (v.holds a)) := by
  obtain ⟨b, hb⟩ : ∃ b, v.get? a = some (truth b) :=
    h.elim (fun h => ⟨false, h⟩) fun h => ⟨true, h⟩
  have hholds : v.holds a = b := by
    calc v.holds a
      _ = same (truth b : α) (truth true) := by rw [holds, hb]; rfl
      _ = b := by rw [CrispArithmetic.same_truth, beq_true]
  rw [hholds, hb]

theorem Crisp.leaf_eq (h : v.Crisp x) (ha : a ∈ x.names) :
    v.leaf a = .ok (truth (leafHolds v.holds a)) := by
  cases hc : isConstant a with
  | true =>
    have hnone := h.constants a hc
    rw [isConstant, Bool.or_eq_true, beq_iff_eq, beq_iff_eq] at hc
    rcases hc with rfl | rfl
    · rw [leaf, hnone]
      rfl
    · rw [leaf, hnone]
      rfl
  | false =>
    have hbound := get?_eq_truth_holds (h.atoms a ha hc)
    rw [isConstant, Bool.or_eq_false_iff, beq_eq_false_iff_ne, beq_eq_false_iff_ne] at hc
    rw [leafHolds, if_neg hc.1, if_neg hc.2, leaf, hbound]

end Valuation

namespace Logic

/-- On crisp values the connectives with a derivation are the classical ones. -/
structure Classical [TruthValue α] (l : Logic α) : Prop where
  unary : ∀ {op f}, op.classical? = some f → ∀ a, l.unary op (truth a) = .ok (truth (f a))
  binary : ∀ {op f}, op.classical? = some f → ∀ a b,
    l.binary op (truth a) (truth b) = .ok (truth (f a b))

section Connectives

variable [TruthValue α] {l : Logic α}

theorem classical_of_connectives (hneg : ∀ a, l.neg (truth a) = .ok (truth !a))
    (hconj : ∀ a b, l.conj (truth a) (truth b) = .ok (truth (a && b)))
    (hdisj : ∀ a b, l.disj (truth a) (truth b) = .ok (truth (a || b)))
    (himplies : ∀ a b, l.implies (truth a) (truth b) = .ok (truth (!a || b))) : l.Classical where
  unary {op f} hf := by
    cases op with
    | neg =>
      obtain rfl := Option.some.inj hf
      exact hneg
    | delta scale => cases hf
  binary {op f} hf := by
    cases op with
    | conj =>
      obtain rfl := Option.some.inj hf
      exact hconj
    | disj =>
      obtain rfl := Option.some.inj hf
      exact hdisj
    | implies =>
      obtain rfl := Option.some.inj hf
      exact himplies
    | equals => cases hf
    | unequals => cases hf

theorem classical_derived {implies : α → α → Except Error α}
    (h : ∀ a b, implies (truth a) (truth b) = .ok (truth (!a || b))) (name : String) :
    (derived name (.ok zero) implies).Classical := by
  have hneg (a : Bool) : (derived name (.ok zero) implies).neg (truth a) = .ok (truth !a) := by
    calc (derived name (.ok zero) implies).neg (truth a)
      _ = implies (truth a) (truth false) := rfl
      _ = .ok (truth !a) := by rw [h, Bool.or_false]
  refine classical_of_connectives hneg (fun a b => ?_) (fun a b => ?_) h
  · calc (derived name (.ok zero) implies).conj (truth a) (truth b)
      _ = (derived name (.ok zero) implies).neg (truth b) >>= implies (truth a) >>=
          (derived name (.ok zero) implies).neg := (bind_assoc ..).symm
      _ = .ok (truth !(!a || !b)) := by rw [hneg, ok_bind, h, ok_bind, hneg]
      _ = .ok (truth (a && b)) := by rw [Bool.not_or, Bool.not_not, Bool.not_not]
  · calc (derived name (.ok zero) implies).disj (truth a) (truth b)
      _ = (derived name (.ok zero) implies).neg (truth a) >>= fun c => implies c (truth b) := rfl
      _ = .ok (truth (!!a || b)) := by rw [hneg, ok_bind, h]
      _ = .ok (truth (a || b)) := by rw [Bool.not_not]

end Connectives

def derivedGodel [TruthValue α] (name : String) : Logic α :=
  derived name (.ok zero) fun x y => .ok (godelImplies x y)

/-- The logics that are classical on crisp values. -/
def crispLogics [TruthValue α] (name : String) : List (Logic α) :=
  [lukasiewicz, godel, derivedLukasiewicz name, derivedGodel name]

section Crisp

variable [TruthValue α] [CrispArithmetic α]

theorem lukasiewiczImplies_truth (a b : Bool) :
    lukasiewiczImplies (truth a : α) (truth b) = truth (!a || b) := by
  rw [lukasiewiczImplies, CrispArithmetic.one_sub_truth, CrispArithmetic.meet_one_add]

theorem godelImplies_truth (a b : Bool) :
    godelImplies (truth a : α) (truth b) = truth (!a || b) := by
  rw [godelImplies, CrispArithmetic.less_truth]
  cases a <;> cases b <;> rfl

theorem classical_derivedLukasiewicz (name : String) :
    (derivedLukasiewicz name : Logic α).Classical :=
  classical_derived (fun a b => congrArg Except.ok (lukasiewiczImplies_truth a b)) name

theorem classical_derivedGodel (name : String) : (derivedGodel name : Logic α).Classical :=
  classical_derived (fun a b => congrArg Except.ok (godelImplies_truth a b)) name

theorem classical_lukasiewicz : (lukasiewicz : Logic α).Classical :=
  classical_of_connectives (fun a => congrArg Except.ok (CrispArithmetic.one_sub_truth a))
    (fun a b => congrArg Except.ok (CrispArithmetic.join_zero_add_sub a b))
    (fun a b => congrArg Except.ok (CrispArithmetic.meet_one_add a b))
    fun a b => congrArg Except.ok (lukasiewiczImplies_truth a b)

theorem classical_godel : (godel : Logic α).Classical := by
  -- The negation is the derived one; conjunction and disjunction are not.
  have hneg (a : Bool) : godelImplies (truth a : α) (truth false) = truth !a := by
    rw [godelImplies_truth, Bool.or_false]
  exact classical_of_connectives (fun a => congrArg Except.ok (hneg a))
    (fun a b => congrArg Except.ok (CrispArithmetic.meet_truth a b))
    (fun a b => congrArg Except.ok (CrispArithmetic.join_truth a b))
    fun a b => congrArg Except.ok (godelImplies_truth a b)

theorem classical_of_mem_crispLogics {name : String} {l : Logic α}
    (h : l ∈ crispLogics name) : l.Classical := by
  have hall : ∀ l ∈ crispLogics name, (l : Logic α).Classical :=
    List.forall_mem_cons.2 ⟨classical_lukasiewicz,
      List.forall_mem_cons.2 ⟨classical_godel,
        List.forall_mem_cons.2 ⟨classical_derivedLukasiewicz name,
          List.forall_mem_singleton.2 (classical_derivedGodel name)⟩⟩⟩
  exact hall l h

end Crisp

end Logic

namespace Formula

variable {x : Formula μ} {holds : String → Bool} {b : Bool}

theorem Derivable.exists_classical (h : x.Derivable) (holds : String → Bool) :
    ∃ b, x.classical? holds = some b := by
  induction x with
  | leaf m name => exact ⟨_, rfl⟩
  | unary m op x ih =>
    obtain ⟨hop, hx⟩ := h
    obtain ⟨f, hf⟩ := hop.exists_classical
    obtain ⟨a, ha⟩ := ih hx
    exact ⟨f a, by rw [classical?, hf, ha]; rfl⟩
  | binary m op x y ihx ihy =>
    obtain ⟨hop, hx, hy⟩ := h
    obtain ⟨f, hf⟩ := hop.exists_classical
    obtain ⟨a, ha⟩ := ihx hx
    obtain ⟨b, hb⟩ := ihy hy
    exact ⟨f a b, by rw [classical?, hf, ha, hb]; rfl⟩

/-- The value of a formula with crisp leaves is its classical truth value. -/
theorem evaluate_of_classical [TruthValue α] {l : Logic α} {v : Valuation α} (hl : l.Classical)
    (hv : ∀ a ∈ x.names, v.leaf a = .ok (truth (leafHolds holds a)))
    (hx : x.classical? holds = some b) : x.evaluate l v = .ok (truth b) := by
  induction x generalizing b with
  | leaf m name =>
    rw [← Option.some.inj hx]
    exact hv name (List.mem_singleton_self name)
  | unary m op x ih =>
    obtain ⟨f, hf, hx⟩ := Option.bind_eq_some_iff.1 hx
    obtain ⟨a, ha, hx⟩ := Option.bind_eq_some_iff.1 hx
    rw [evaluate, ih hv ha, ok_bind, hl.unary hf, Option.some.inj hx]
  | binary m op x y ihx ihy =>
    obtain ⟨f, hf, hx⟩ := Option.bind_eq_some_iff.1 hx
    obtain ⟨a, ha, hx⟩ := Option.bind_eq_some_iff.1 hx
    obtain ⟨c, hc, hx⟩ := Option.bind_eq_some_iff.1 hx
    have hleft := ihx (fun n hn => hv n (List.mem_append_left _ hn)) ha
    have hright := ihy (fun n hn => hv n (List.mem_append_right _ hn)) hc
    rw [evaluate, hleft, ok_bind, hright, ok_bind, hl.binary hf, Option.some.inj hx]

end Formula

/-- Łukasiewicz logic, Gödel logic and the logics that are derived from the implication of either
one give a formula its classical truth value, where all its atoms are bound to 0 or 1. -/
theorem logics_are_classical_where_crisp [TruthValue α] [CrispArithmetic α] (name : String)
    {x : Formula μ} {v : Valuation α} (hx : x.Derivable) (hv : v.Crisp x) :
    ∃ b, x.classical? v.holds = some b ∧
      ∀ l ∈ Logic.crispLogics name, x.evaluate l v = .ok (truth b) := by
  obtain ⟨b, hb⟩ := hx.exists_classical v.holds
  refine ⟨b, hb, fun l hl => ?_⟩
  exact Formula.evaluate_of_classical (Logic.classical_of_mem_crispLogics hl)
    (fun a ha => hv.leaf_eq ha) hb

section Vacuous

/-- An implication with a false premise. -/
def vacuous : Formula Depth :=
  .binary 0 .implies
    (.binary 1 .disj (.unary 2 .neg (.leaf 3 "A")) (.binary 2 .conj (.leaf 3 "B") (.leaf 3 "1")))
    (.leaf 1 "0")

def onlyA [TruthValue α] : Valuation α := Valuation.ofList [("A", one), ("B", zero)]

variable [TruthValue α]

theorem get?_onlyA (name : String) :
    (onlyA : Valuation α).get? name = [("B", zero), ("A", one)].lookup name :=
  Valuation.get?_ofList _ name

theorem crisp_onlyA : (onlyA : Valuation α).Crisp vacuous := by
  refine ⟨fun a hmem hc => ?_, fun a hc => ?_⟩
  · have hmem : a ∈ ["A", "B", "1", "0"] := hmem
    simp only [List.mem_cons, List.not_mem_nil, or_false] at hmem
    rcases hmem with rfl | rfl | rfl | rfl
    · exact .inr (get?_onlyA "A")
    · exact .inl (get?_onlyA "B")
    · cases hc
    · cases hc
  · rw [isConstant, Bool.or_eq_true, beq_iff_eq, beq_iff_eq] at hc
    rcases hc with rfl | rfl
    · exact get?_onlyA "0"
    · exact get?_onlyA "1"

theorem classical?_vacuous [CrispArithmetic α] :
    vacuous.classical? (onlyA : Valuation α).holds = some true := by
  have ha : (onlyA : Valuation α).holds "A" = true := by
    rw [Valuation.holds, get?_onlyA]
    exact CrispArithmetic.same_truth true true
  have hb : (onlyA : Valuation α).holds "B" = false := by
    rw [Valuation.holds, get?_onlyA]
    exact CrispArithmetic.same_truth false true
  simp [vacuous, Formula.classical?, leafHolds, ha, hb, Binary.classical?, Unary.classical?]

theorem logics_are_classical_where_crisp_vacuous :
    vacuous.Derivable ∧ (onlyA : Valuation Rat).Crisp vacuous ∧
      vacuous.evaluate Logic.godel (onlyA : Valuation Rat) = .ok 1 ∧
      vacuous.evaluate (Logic.derivedLukasiewicz "derived") (onlyA : Valuation Rat) = .ok 1 ∧
      vacuous.evaluate Logic.lukasiewicz (onlyA : Valuation Float) = .ok 1.0 := by
  have hx : vacuous.Derivable := by decide
  have hrat : (onlyA : Valuation Rat).Crisp vacuous := crisp_onlyA
  have hfloat : (onlyA : Valuation Float).Crisp vacuous := crisp_onlyA
  obtain ⟨b, hb, hlogics⟩ := logics_are_classical_where_crisp "derived" hx hrat
  obtain rfl := Option.some.inj (hb.symm.trans classical?_vacuous)
  obtain ⟨b, hb, hfloats⟩ := logics_are_classical_where_crisp "derived" hx hfloat
  obtain rfl := Option.some.inj (hb.symm.trans classical?_vacuous)
  exact ⟨hx, hrat, hlogics _ (.tail _ (.head _)), hlogics _ (.tail _ (.tail _ (.head _))),
    hfloats _ (.head _)⟩

end Vacuous

end ManyValued
