import ManyValued.Proofs.Evaluation

/-! When an evaluation fails and which error it gives. Whether a connective has a truth function
depends on the logic alone and never on the values of the operands, so every failure belongs to one
node: a leaf without a value or a connective that the logic leaves out. Operands are evaluated
before their connective and a failure ends the evaluation, so the error is that of the first such
node in postorder. -/

namespace ManyValued

variable {α : Type}

def Unary.operation : Unary → Operation
  | .neg => .neg
  | .delta _ => .delta

def Binary.operation : Binary → Operation
  | .conj => .conj
  | .disj => .disj
  | .implies => .implies
  | .equals => .equals
  | .unequals => .unequals

namespace Logic

/-- The connectives fail exactly for the operations that the logic leaves out, whatever the values
of the operands are. -/
structure Omits (l : Logic α) (missing : Operation → Bool) : Prop where
  unary : ∀ op a, failure? (l.unary op a) =
    if missing op.operation then some (.unsupported l.name op.operation) else none
  binary : ∀ op a b, failure? (l.binary op a b) =
    if missing op.operation then some (.unsupported l.name op.operation) else none

variable [TruthValue α]

/-- The logics and what each of them leaves out. -/
def omissions (α : Type) [TruthValue α] : List (Logic α × (Operation → Bool)) :=
  [(lukasiewicz, fun _ => false), (godel, fun o => o ∈ [.delta, .equals, .unequals]),
    (product, fun _ => true)]

theorem omits_lukasiewicz : (lukasiewicz : Logic α).Omits fun _ => false where
  unary op a := by cases op <;> rfl
  binary op a b := by cases op <;> rfl

theorem omits_godel : (godel : Logic α).Omits fun o => o ∈ [.delta, .equals, .unequals] where
  unary op a := by cases op <;> rfl
  binary op a b := by cases op <;> rfl

theorem omits_product : (product : Logic α).Omits fun _ => true where
  unary op a := by cases op <;> rfl
  binary op a b := by cases op <;> rfl

theorem omits_of_mem_omissions {l : Logic α} {missing : Operation → Bool}
    (h : (l, missing) ∈ omissions α) : l.Omits missing := by
  have hall : ∀ p ∈ omissions α, p.1.Omits p.2 :=
    List.forall_mem_cons.2 ⟨omits_lukasiewicz,
      List.forall_mem_cons.2 ⟨omits_godel, List.forall_mem_singleton.2 omits_product⟩⟩
  exact hall _ h

end Logic

namespace Formula

variable {μ : Type}

/-- The formulas in a formula, operands before their connective and the left one first. -/
def postorder : Formula μ → List (Formula μ)
  | leaf m name => [leaf m name]
  | unary m op x => x.postorder ++ [unary m op x]
  | binary m op x y => x.postorder ++ (y.postorder ++ [binary m op x y])

theorem mem_postorder_iff {x y : Formula μ} : y ∈ x.postorder ↔ y ∈ x.subformulas := by
  induction x with
  | leaf m name => rfl
  | unary m op x ih =>
    rw [postorder, subformulas, List.mem_append, List.mem_singleton, List.mem_cons, ih, or_comm]
  | binary m op x z ihx ihz =>
    rw [postorder, subformulas, List.mem_append, List.mem_append, List.mem_singleton,
      List.mem_cons, List.mem_append, ihx, ihz, ← or_assoc, or_comm]

def Offends (missing : Operation → Bool) (v : Valuation α) : Formula μ → Prop
  | leaf _ name => v.get? name = none ∧ isConstant name = false
  | unary _ op _ => missing op.operation
  | binary _ op _ _ => missing op.operation

instance (missing : Operation → Bool) (v : Valuation α) :
    DecidablePred (Offends (μ := μ) missing v)
  | leaf _ name => inferInstanceAs (Decidable (v.get? name = none ∧ isConstant name = false))
  | unary _ op _ => inferInstanceAs (Decidable (missing op.operation))
  | binary _ op _ _ => inferInstanceAs (Decidable (missing op.operation))

def fault (logic : String) : Formula μ → Error
  | leaf _ name => .unboundAtom name
  | unary _ op _ => .unsupported logic op.operation
  | binary _ op _ _ => .unsupported logic op.operation

/-- What an evaluation of the formula gave: a value exactly if no node is without one, and an error
exactly if it is that of the first such node in postorder. -/
structure ReportsFirst (l : Logic α) (missing : Operation → Bool) (v : Valuation α)
    (x : Formula μ) (r : Except Error α) : Prop where
  ok_iff : (∃ a, r = .ok a) ↔ ∀ y ∈ x.subformulas, ¬ y.Offends missing v
  error_iff : ∀ e, r = .error e ↔ ∃ before y after, x.postorder = before ++ y :: after ∧
    y.Offends missing v ∧ y.fault l.name = e ∧ ∀ z ∈ before, ¬ z.Offends missing v

def ownFault? (l : Logic α) (missing : Operation → Bool) (v : Valuation α) (x : Formula μ) :
    Option Error :=
  if x.Offends missing v then some (x.fault l.name) else none

variable {l : Logic α} {missing : Operation → Bool} {v : Valuation α}

theorem ownFault?_eq_none_iff {x : Formula μ} :
    x.ownFault? l missing v = none ↔ ¬ x.Offends missing v := by
  rw [ownFault?, ite_eq_right_iff]
  exact forall_congr' fun _ => by simp

theorem ownFault?_eq_some_iff {x : Formula μ} {e : Error} :
    x.ownFault? l missing v = some e ↔ x.Offends missing v ∧ x.fault l.name = e := by
  rw [ownFault?, Option.ite_none_right_eq_some, Option.some.injEq]

theorem reportsFirst_of_failure? {x : Formula μ} {r : Except Error α}
    (h : failure? r = x.postorder.findSome? (ownFault? l missing v)) :
    ReportsFirst l missing v x r where
  ok_iff := by
    rw [← failure?_eq_none_iff, h, List.findSome?_eq_none_iff]
    simp only [mem_postorder_iff, ownFault?_eq_none_iff]
  error_iff e := by
    rw [← failure?_eq_some_iff, h, List.findSome?_eq_some_iff]
    simp only [ownFault?_eq_none_iff, ownFault?_eq_some_iff, and_assoc]

variable [TruthValue α]

theorem failure?_leaf (l : Logic α) (missing : Operation → Bool) (v : Valuation α) (m : μ)
    (name : String) : failure? (v.leaf name) = (leaf m name).ownFault? l missing v := by
  simp only [ownFault?, Offends, fault, Valuation.leaf, isConstant, Bool.or_eq_false_iff,
    beq_eq_false_iff_ne]
  split
  · rename_i a ha
    simp [ha, failure?]
  · rename_i hnone
    split_ifs <;> simp_all [failure?]

theorem failure?_evaluate (hl : l.Omits missing) (v : Valuation α) (x : Formula μ) :
    failure? (x.evaluate l v) = x.postorder.findSome? (ownFault? l missing v) := by
  induction x with
  | leaf m name =>
    rw [evaluate, failure?_leaf l missing v m name, postorder, List.findSome?_singleton]
  | unary m op x ih =>
    have hop (a : α) : failure? (l.unary op a) = (unary m op x).ownFault? l missing v :=
      hl.unary op a
    rw [evaluate, failure?_bind hop, ih, postorder, List.findSome?_append,
      List.findSome?_singleton]
  | binary m op x y ihx ihy =>
    have hop (a b : α) : failure? (l.binary op a b) = (binary m op x y).ownFault? l missing v :=
      hl.binary op a b
    rw [evaluate, failure?_bind fun a => failure?_bind (hop a), ihx, ihy, postorder,
      List.findSome?_append, List.findSome?_append, List.findSome?_singleton]

/-- Łukasiewicz logic leaves out no connective, Gödel logic `δ_k` and the equality tests, product
logic all. An evaluation, memoized or not, succeeds exactly if no leaf is unbound and no connective
is left out, and otherwise reports the first such node in postorder. -/
theorem evaluation_reports_first (v : Valuation α) (h : (l, missing) ∈ Logic.omissions α) :
    (∀ {μ : Type} (x : Formula μ), ReportsFirst l missing v x (x.evaluate l v)) ∧
    ∀ x : Shared, x.Coherent → ReportsFirst l missing v x (x.evaluateMemoized l v) := by
  have hl := Logic.omits_of_mem_omissions h
  refine ⟨fun x => reportsFirst_of_failure? (failure?_evaluate hl v x), fun x hx => ?_⟩
  rw [hx.evaluateMemoized_eq]
  exact reportsFirst_of_failure? (failure?_evaluate hl v x)

def competing : Shared :=
  binary ⟨0, 0⟩ .conj (unary ⟨1, 1⟩ (.delta 2) (leaf ⟨2, 2⟩ "A")) (leaf ⟨3, 1⟩ "B")

/-- The scaled leaf comes first, but Łukasiewicz logic has a value for it. -/
theorem evaluation_reports_first_competing :
    let v : Valuation Rat := Valuation.ofList [("A", 1 / 2)]
    competing.evaluate Logic.lukasiewicz v = .error (.unboundAtom "B") ∧
      competing.evaluateMemoized Logic.godel v = .error (.unsupported "Gödel" .delta) := by
  intro v
  have ha : v.get? "A" = some (1 / 2) := by rw [Valuation.get?_ofList]; rfl
  have hb : v.get? "B" = none := by rw [Valuation.get?_ofList]; rfl
  have hleaf (missing : Operation → Bool) : ¬ (leaf (⟨2, 2⟩ : Mark) "A").Offends missing v := by
    simp [Offends, ha]
  constructor
  · have h := (evaluation_reports_first v (List.mem_cons_self ..)).1 competing
    refine (h.error_iff _).2 ⟨[_, _], _, [_], rfl, ⟨hb, by decide⟩, rfl, ?_⟩
    exact List.forall_mem_cons.2 ⟨hleaf _, List.forall_mem_singleton.2 Bool.false_ne_true⟩
  · have hmem : (Logic.godel, _) ∈ Logic.omissions Rat := .tail _ (.head _)
    have h := (evaluation_reports_first v hmem).2 competing (by decide)
    refine (h.error_iff _).2 ⟨[_], _, [_, _], rfl, by decide, rfl, ?_⟩
    exact List.forall_mem_singleton.2 (hleaf _)

end Formula

end ManyValued
