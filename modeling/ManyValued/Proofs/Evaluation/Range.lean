import ManyValued.Evaluation
import ManyValued.Proofs.Formula.Printing
import ManyValued.Proofs.Outcome
import ManyValued.Proofs.Term

/-! Which values an evaluation can give. A set of values that has the constants in it and is kept by
every connective has the value of every formula whose atoms are bound to values in it. For the
Łukasiewicz and the Gödel connectives `[0, 1]` is such a set. None of them is clipped on both sides:
each relies on its operands being in `[0, 1]` for the bound on the other side. -/

namespace ManyValued

variable {α β : Type}

def Within (values : Set α) (r : Except Error α) : Prop := ∀ a, r = .ok a → a ∈ values

section Within

variable {values : Set α} {results : Set β}

theorem within_ok {a : α} (h : a ∈ values) : Within values (.ok a) := by
  intro b hb
  rwa [← Except.ok.inj hb]

theorem within_error (e : Error) : Within values (.error e) := fun _ h => nomatch h

theorem Within.bind {x : Except Error α} {f : α → Except Error β} (hx : Within values x)
    (hf : ∀ a ∈ values, Within results (f a)) : Within results (x >>= f) := by
  intro b hb
  obtain ⟨a, ha, hb⟩ := bind_eq_ok_iff.1 hb
  exact hf a (hx a ha) b hb

end Within

def Valuation.Within (v : Valuation α) (values : Set α) : Prop :=
  ∀ name a, v.get? name = some a → a ∈ values

theorem Valuation.within_ofList {values : Set α} {pairs : List (String × α)}
    (h : ∀ p ∈ pairs, p.2 ∈ values) : (ofList pairs).Within values := by
  intro name a ha
  rw [get?_ofList, List.lookup_eq_some_iff] at ha
  obtain ⟨before, after, hpairs, -⟩ := ha
  have hmem : (name, a) ∈ pairs := by
    rw [← List.mem_reverse, hpairs]
    exact List.mem_append_right _ (List.mem_cons_self ..)
  exact h _ hmem

/-- The connectives lead from the set into it, where they have a value at all. -/
structure Logic.Keeps (l : Logic α) (values : Set α) : Prop where
  unary : ∀ {op a}, op.Admissible → a ∈ values → Within values (l.unary op a)
  binary : ∀ {op a b}, a ∈ values → b ∈ values → Within values (l.binary op a b)

namespace Formula

variable {μ : Type}

/-- No `δ` of the formula has scale 0. -/
def PositiveScales : Formula μ → Prop
  | leaf _ _ => True
  | unary _ op x => op.Admissible ∧ x.PositiveScales
  | binary _ _ x y => x.PositiveScales ∧ y.PositiveScales

instance decidablePositiveScales : (x : Formula μ) → Decidable x.PositiveScales
  | leaf _ _ => inferInstanceAs (Decidable True)
  | unary _ op x =>
    have := decidablePositiveScales x
    inferInstanceAs (Decidable (op.Admissible ∧ x.PositiveScales))
  | binary _ _ x y =>
    have := decidablePositiveScales x
    have := decidablePositiveScales y
    inferInstanceAs (Decidable (x.PositiveScales ∧ y.PositiveScales))

end Formula

section Evaluate

open TruthValue

variable [TruthValue α] {values : Set α} {v : Valuation α} {l : Logic α}

theorem Valuation.Within.leaf (hv : v.Within values) (h0 : zero ∈ values) (h1 : one ∈ values)
    (name : String) : ManyValued.Within values (v.leaf name) := by
  unfold Valuation.leaf
  split
  · rename_i a ha
    exact within_ok (hv name a ha)
  · split_ifs
    · exact within_ok h0
    · exact within_ok h1
    · exact within_error _

/-- The induction that every bound on the values of formulas goes through. -/
theorem Logic.Keeps.evaluate (hl : l.Keeps values) (hv : v.Within values) (h0 : zero ∈ values)
    (h1 : one ∈ values) {μ : Type} {x : Formula μ} (hx : x.PositiveScales) :
    ManyValued.Within values (x.evaluate l v) := by
  induction x with
  | leaf m name => exact hv.leaf h0 h1 name
  | unary m op x ih =>
    obtain ⟨hop, hx⟩ := hx
    exact (ih hx).bind fun a ha => hl.unary hop ha
  | binary m op x y ihx ihy =>
    obtain ⟨hx, hy⟩ := hx
    exact (ihx hx).bind fun a ha => (ihy hy).bind fun b hb => hl.binary ha hb

end Evaluate

section UnitInterval

open TruthValue

variable {a b : Rat}

theorem truth_mem_Icc (c : Bool) : (truth c : Rat) ∈ Set.Icc 0 1 := by
  cases c
  · exact ⟨le_refl 0, zero_le_one⟩
  · exact ⟨zero_le_one, le_refl 1⟩

theorem meet_one_mem_Icc (h : 0 ≤ a) : meet one a ∈ Set.Icc 0 1 := by
  rw [meet_eq_min]
  exact ⟨le_min zero_le_one h, min_le_left _ _⟩

theorem join_zero_mem_Icc (h : a ≤ 1) : join zero a ∈ Set.Icc 0 1 := by
  rw [join_eq_max]
  exact ⟨le_max_left _ _, max_le zero_le_one h⟩

theorem neg_mem_Icc (ha : a ∈ Set.Icc 0 1) : one - a ∈ Set.Icc 0 1 :=
  ⟨sub_nonneg.2 ha.2, sub_le_self 1 ha.1⟩

theorem div_mem_Icc (ha : a ∈ Set.Icc 0 1) {k : Nat} (hk : 1 ≤ k) :
    a / ofRat k ∈ Set.Icc 0 1 := by
  have hone : (1 : Rat) ≤ k := Nat.one_le_cast.2 hk
  have hnonneg : (0 : Rat) ≤ k := zero_le_one.trans hone
  exact ⟨div_nonneg ha.1 hnonneg, div_le_one_of_le₀ (ha.2.trans hone) hnonneg⟩

theorem godelImplies_mem_Icc (hb : b ∈ Set.Icc 0 1) : Logic.godelImplies a b ∈ Set.Icc 0 1 := by
  unfold Logic.godelImplies
  split_ifs
  · exact hb
  · exact truth_mem_Icc true

/-- Where a connective is clipped on one side, the operands keep it from crossing the other. -/
theorem keeps_lukasiewicz : (Logic.lukasiewicz : Logic Rat).Keeps (Set.Icc 0 1) where
  unary {op a} hop ha := by
    cases op with
    | neg => exact within_ok (neg_mem_Icc ha)
    | delta scale => exact within_ok (div_mem_Icc ha hop)
  binary {op a b} ha hb := by
    cases op with
    | conj =>
      have h : a + b ≤ 1 + 1 := add_le_add ha.2 hb.2
      exact within_ok (join_zero_mem_Icc (sub_le_iff_le_add.2 h))
    | disj => exact within_ok (meet_one_mem_Icc (add_nonneg ha.1 hb.1))
    | implies => exact within_ok (meet_one_mem_Icc (add_nonneg (sub_nonneg.2 ha.2) hb.1))
    | equals => exact within_ok (truth_mem_Icc _)
    | unequals => exact within_ok (truth_mem_Icc _)

theorem keeps_godel : (Logic.godel : Logic Rat).Keeps (Set.Icc 0 1) where
  unary {op a} _ _ := by
    cases op with
    | neg => exact within_ok (godelImplies_mem_Icc (truth_mem_Icc false))
    | delta scale => exact within_error _
  binary {op a b} ha hb := by
    cases op with
    | conj =>
      have h : meet a b ∈ Set.Icc 0 1 := by
        rw [meet_eq_min]
        exact ⟨le_min ha.1 hb.1, (min_le_left a b).trans ha.2⟩
      exact within_ok h
    | disj =>
      have h : join a b ∈ Set.Icc 0 1 := by
        rw [join_eq_max]
        exact ⟨ha.1.trans (le_max_left a b), max_le ha.2 hb.2⟩
      exact within_ok h
    | implies => exact within_ok (godelImplies_mem_Icc hb)
    | equals => exact within_error _
    | unequals => exact within_error _

end UnitInterval

/-- Truth values stay between 0 and 1, also where the constants are bound anew. -/
theorem values_stay_in_unit_interval {μ : Type} {x : Formula μ} {v : Valuation Rat}
    (hx : x.PositiveScales) (hv : ∀ name a, v.get? name = some a → 0 ≤ a ∧ a ≤ 1) :
    (∀ a, x.evaluate Logic.lukasiewicz v = .ok a → 0 ≤ a ∧ a ≤ 1) ∧
      ∀ a, x.evaluate Logic.godel v = .ok a → 0 ≤ a ∧ a ≤ 1 :=
  ⟨keeps_lukasiewicz.evaluate hv (truth_mem_Icc false) (truth_mem_Icc true) hx,
    keeps_godel.evaluate hv (truth_mem_Icc false) (truth_mem_Icc true) hx⟩

def rebound : Formula Depth :=
  .binary 0 .disj (.unary 1 (.delta 3) (.unary 2 .neg (.leaf 3 "A")))
    (.binary 1 .implies (.leaf 2 "1") (.leaf 2 "A"))

theorem values_stay_in_unit_interval_rebound :
    let v : Valuation Rat := Valuation.ofList [("A", 1 / 4), ("1", 1 / 2)]
    (∀ name a, v.get? name = some a → 0 ≤ a ∧ a ≤ 1) ∧
      ∃ a, rebound.evaluate Logic.lukasiewicz v = .ok a ∧ 0 ≤ a ∧ a ≤ 1 := by
  intro v
  have hv : v.Within (Set.Icc 0 1) := by
    refine Valuation.within_ofList (List.forall_mem_cons.2 ⟨?_, List.forall_mem_singleton.2 ?_⟩)
    · exact ⟨by decide +kernel, by decide +kernel⟩
    · exact ⟨by decide +kernel, by decide +kernel⟩
  have ha : v.leaf "A" = .ok (1 / 4) := by rw [Valuation.leaf, Valuation.get?_ofList]; rfl
  have h1 : v.leaf "1" = .ok (1 / 2) := by rw [Valuation.leaf, Valuation.get?_ofList]; rfl
  have hvalue : rebound.evaluate Logic.lukasiewicz v = .ok 1 := by
    simp only [rebound, Formula.evaluate, ha, h1, ok_bind]
    decide +kernel
  exact ⟨hv, 1, hvalue, (values_stay_in_unit_interval (by decide) hv).1 1 hvalue⟩

end ManyValued
