import ManyValued.Proofs.Formula.Levels
import ManyValued.RandomFormula

/-! What a source of indices can draw. A draw writes a text, and the text is that of a formula which
follows the shapes: this is the only place where the indices matter, and they matter only by being
below their bound. What is known of random formulas is then known by induction on how the formula
grows: it is well formed, so its text is read as the formula, and with every connective one of the
depth that was left is used up. -/

namespace ManyValued

def Shape.Admissible : Shape → Prop
  | .unary op => op.Admissible
  | .atom | .binary _ => True

instance : (shape : Shape) → Decidable shape.Admissible
  | .unary op => inferInstanceAs (Decidable op.Admissible)
  | .atom | .binary _ => inferInstanceAs (Decidable True)

open Formula

theorem render_unary (op : Unary) (x : Formula Unit) :
    (Formula.unary () op x).render =
      "(" ++ op.symbol ++ (if op = .neg then "" else " ") ++ x.render ++ ")" := by
  cases op with
  | neg => rw [render, if_pos rfl, String.append_empty]
  | delta scale => rw [render, if_neg (by simp)]

/-- The formulas that can be drawn with some depth left. Where there is depth left and a shape to
draw, an atom must have been drawn as a shape. -/
inductive Grown (atoms : List String) (shapes : List Shape) : Nat → Formula Unit → Prop
  | atom {depth : Nat} {name : String} (hname : name ∈ atoms)
      (hstop : shapes ≠ [] → Shape.atom ∉ shapes → depth = 0) :
      Grown atoms shapes depth (.leaf () name)
  | unary {depth : Nat} {op : Unary} {x : Formula Unit} (hshape : Shape.unary op ∈ shapes)
      (hx : Grown atoms shapes depth x) : Grown atoms shapes (depth + 1) (.unary () op x)
  | binary {depth : Nat} {op : Binary} {x y : Formula Unit} (hshape : Shape.binary op ∈ shapes)
      (hx : Grown atoms shapes depth x) (hy : Grown atoms shapes depth y) :
      Grown atoms shapes (depth + 1) (.binary () op x y)

section Draw

variable {σ β : Type} (source : IndexSource σ) {atoms : List String}

theorem pick_mem (xs : List β) (h : xs ≠ []) (s : σ) : (pick source xs h s).1 ∈ xs :=
  List.getElem_mem _

/-- Whatever the source does, the text is that of a formula which follows the shapes. -/
theorem exists_grown (hne : atoms ≠ []) (shapes : List Shape) (depth : Nat) (s : σ) :
    ∃ t, Grown atoms shapes depth t ∧
      t.render = (randomFormulaFrom source atoms hne shapes depth s).1 := by
  have hatom {depth : Nat} (hstop : shapes ≠ [] → Shape.atom ∉ shapes → depth = 0) (s : σ) :
      ∃ t, Grown atoms shapes depth t ∧ t.render = (pick source atoms hne s).1 :=
    ⟨.leaf () _, .atom (pick_mem source atoms hne s) hstop, rfl⟩
  induction depth generalizing s with
  | zero => exact hatom (fun _ _ => rfl) s
  | succ depth ih =>
    rw [randomFormulaFrom]
    split
    · rename_i hs
      exact hatom (fun hne _ => absurd hs hne) s
    · rename_i hs
      have hshape := pick_mem source shapes hs s
      split
      · rename_i s' hpick
        rw [hpick] at hshape
        exact hatom (fun _ hatom => absurd hshape hatom) s'
      · rename_i op s' hpick
        rw [hpick] at hshape
        obtain ⟨x, hx, hrender⟩ := ih s'
        refine ⟨_, .unary hshape hx, ?_⟩
        rw [render_unary, hrender]
      · rename_i op s' hpick
        rw [hpick] at hshape
        obtain ⟨x, hx, hleft⟩ := ih s'
        obtain ⟨y, hy, hright⟩ := ih (randomFormulaFrom source atoms hne shapes depth s').2
        refine ⟨_, .binary hshape hx hy, ?_⟩
        rw [render, hleft, hright]

end Draw

namespace Grown

variable {atoms : List String} {shapes : List Shape} {depth : Nat} {t : Formula Unit}

theorem wellFormed (h : Grown atoms shapes depth t)
    (hatoms : ∀ a ∈ atoms, isAtom a = true ∨ isConstant a = true)
    (hshapes : ∀ shape ∈ shapes, shape.Admissible) : t.WellFormed := by
  induction h with
  | atom hname hstop => exact hatoms _ hname
  | unary hshape hx ih => exact ⟨hshapes _ hshape, ih⟩
  | binary hshape hx hy ihx ihy => exact ⟨ihx, ihy⟩

theorem height_le (h : Grown atoms shapes depth t) : t.height ≤ depth := by
  induction h with
  | atom hname hstop => exact Nat.zero_le _
  | unary hshape hx ih => exact Nat.succ_le_succ ih
  | binary hshape hx hy ihx ihy => exact Nat.succ_le_succ (Nat.max_le.2 ⟨ihx, ihy⟩)

/-- Every leaf has one of the names, and if atoms are not drawn early all leaves are at the same
distance from the root. -/
theorem leaf_of_mem_level (h : Grown atoms shapes depth t) {k : Nat} {y : Formula Unit}
    (hy : y ∈ t.level k) (hleaf : y.isLeaf = true) :
    y.label ∈ atoms ∧ (shapes ≠ [] → Shape.atom ∉ shapes → k = depth) := by
  have hroot {x : Formula Unit} (hx : x.isLeaf = false) : y ∉ x.level 0 := by
    intro hy
    rw [← List.mem_singleton.1 hy, hleaf] at hx
    cases hx
  induction h generalizing k with
  | atom hname hstop =>
    cases k with
    | zero =>
      rw [List.mem_singleton.1 hy]
      exact ⟨hname, fun hne hatom => (hstop hne hatom).symm⟩
    | succ k => cases hy
  | unary hshape hx ih =>
    cases k with
    | zero => exact absurd hy (hroot rfl)
    | succ k =>
      rw [level_unary] at hy
      obtain ⟨hname, hdepth⟩ := ih hy
      exact ⟨hname, fun hne hatom => congrArg (· + 1) (hdepth hne hatom)⟩
  | binary hshape hx hx' ihx ihx' =>
    cases k with
    | zero => exact absurd hy (hroot rfl)
    | succ k =>
      rw [level_binary, List.mem_append] at hy
      obtain ⟨hname, hdepth⟩ := hy.elim ihx ihx'
      exact ⟨hname, fun hne hatom => congrArg (· + 1) (hdepth hne hatom)⟩

end Grown

/-- A random formula is read as a formula that prints it again, within the depth that was asked for.
Its leaves are given atoms, and where atoms are not among the shapes they all lie at that depth. -/
theorem randomFormula_is_read {σ : Type} (source : IndexSource σ) {atoms : List String}
    {shapes : List Shape} (hne : atoms ≠ [])
    (hatoms : ∀ a ∈ atoms, isAtom a = true ∨ isConstant a = true)
    (hshapes : ∀ shape ∈ shapes, shape.Admissible) (depth : Depth) (s : σ) :
    ∃ f s' x deepest, randomFormula source atoms shapes depth s = .ok (f, s') ∧
      (ofText f 0).outcome = .ok (x, deepest) ∧ deepest ≤ depth ∧ x.render = f ∧
      ∀ k, ∀ y ∈ x.level k, y.isLeaf = true → y.label ∈ atoms ∧
        (shapes ≠ [] → Shape.atom ∉ shapes → k = depth.toNat ∧ y.mark = depth) := by
  obtain ⟨t, ht, hrender⟩ := exists_grown source hne shapes depth.toNat s
  have hw := ht.wellFormed hatoms hshapes
  -- The depth that was asked for is a word, so counting from 0 no depth begins again.
  have hfit : (0 : Depth).toNat + t.height < UInt64.size := by
    rw [UInt64.toNat_zero, Nat.zero_add]
    exact Nat.lt_of_le_of_lt ht.height_le depth.toNat_lt
  refine ⟨t.render, (randomFormulaFrom source atoms hne shapes depth.toNat s).2, t.atDepth 0,
    t.deepestFrom 0, ?_, ?_, ?_, ?_, ?_⟩
  · rw [randomFormula, dif_neg hne, hrender]
  · refine outcome_ofText_eq_ok_iff.2 ⟨t, ?_, rfl, rfl⟩
    rw [treeOf_render hw, shape_of_unit]
  · rw [UInt64.le_iff_toNat_le, toNat_deepestFrom hfit, UInt64.toNat_zero, Nat.zero_add]
    exact ht.height_le
  · rw [← render_shape, shape_atDepth, render_shape]
  · intro k y hy hleaf
    rw [level_atDepth] at hy
    obtain ⟨z, hz, rfl⟩ := List.mem_map.1 hy
    have hlabel : (z.atDepth (0 + .ofNat k)).label = z.label := by cases z <;> rfl
    have hz' : z.isLeaf = true := by cases z <;> exact hleaf
    obtain ⟨hname, hdepth⟩ := ht.leaf_of_mem_level hz hz'
    rw [hlabel, mark_atDepth, UInt64.zero_add]
    refine ⟨hname, fun hne hatom => ⟨hdepth hne hatom, ?_⟩⟩
    rw [hdepth hne hatom, UInt64.ofNat_toNat]

/-- Words that draw a sum, first of a scaled atom and then of another sum. -/
theorem randomFormula_is_read_sums :
    let source := IndexSource.ofWords
      (repeated [0x10000000, 0xE0000000, 0x10000000, 0x30000000, 0xD0000000])
    let shapes := [Shape.binary .disj, Shape.unary (.delta 3)]
    (∀ shape ∈ shapes, shape.Admissible) ∧
      randomFormula source ["A", "1"] shapes 2 0 = .ok ("((δ_3 A)⊕(1⊕A))", 6) ∧
      ∃ x deepest, (ofText "((δ_3 A)⊕(1⊕A))" 0).outcome = .ok (x, deepest) ∧ deepest ≤ 2 ∧
        ∀ k, ∀ y ∈ x.level k, y.isLeaf = true → k = 2 := by
  intro source shapes
  have hatoms : ["A", "1"] ≠ [] := by decide
  have hshapes : ∀ shape ∈ shapes, shape.Admissible := by decide
  have hdrawn : randomFormula source ["A", "1"] shapes 2 0 = .ok ("((δ_3 A)⊕(1⊕A))", 6) := by
    decide +kernel
  obtain ⟨f, s', x, deepest, hf, hread, hdeepest, -, hleaf⟩ :=
    randomFormula_is_read source hatoms (by decide) hshapes 2 0
  obtain ⟨rfl, rfl⟩ := Prod.mk.inj (Except.ok.inj (hf.symm.trans hdrawn))
  refine ⟨hshapes, hdrawn, x, deepest, hread, hdeepest, fun k y hy hy' => ?_⟩
  exact ((hleaf k y hy hy').2 (by decide) (by decide)).1

end ManyValued
