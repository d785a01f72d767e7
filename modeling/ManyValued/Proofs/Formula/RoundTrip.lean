import ManyValued.Proofs.Formula.Depth

/-! Printing and reading undo each other on the well formed formulas and on no others. One direction
is that the text of a well formed formula derives its shape. For the other, the grammar derives only
well formed trees, so nothing that has another kind of leaf or a scale 0 is ever read, however its
text looks: a leaf named `(A⊙B)` prints a text that is read, but not as a leaf. -/

namespace ManyValued

theorem Derives.wellFormed {form : Form} {s : List Char} {t : Formula Unit}
    (h : Derives form s t) : t.WellFormed := by
  induction h with
  | leaf hu hv ha => exact ha
  | leafParens hu hv ha => exact ha
  | neg hu hs ih => exact ⟨trivial, ih⟩
  | delta hu hne hd hpos hlt hs hh ih =>
    refine ⟨?_, ih⟩
    rwa [Unary.Admissible, UInt32.toNat_ofNat_of_lt' hlt]
  | binary op hp hs ihp ihs => exact ⟨ihp, ihs⟩
  | parens hu hv hs ih => exact ih

theorem wellFormed_of_treeOf {f : String} {t : Formula Unit} (h : treeOf f = .ok t) :
    t.WellFormed := by
  obtain ⟨node, deepest, hn, rfl⟩ := reads_iff_treeOf.2 h 0
  obtain ⟨form, ht⟩ := derivesTree_of_outcome hn
  exact ht.wellFormed

namespace Formula

variable {μ ν : Type}

theorem outcome_parse_eq_ok_iff {f : String} {x : Formula Depth} :
    (parse f).outcome = .ok x ↔ treeOf f = .ok x.shape ∧ x.DepthsFrom 0 := by
  rw [outcome_parse, bind_eq_ok_iff]
  constructor
  · rintro ⟨t, ht, hx⟩
    obtain rfl : t.atDepth 0 = x := Except.ok.inj hx
    rw [← atDepth_shape_eq_iff, shape_atDepth, shape_of_unit]
    exact ⟨ht, rfl⟩
  · rintro ⟨ht, hx⟩
    exact ⟨x.shape, ht, congrArg Except.ok ((atDepth_shape_eq_iff x 0).2 hx)⟩

theorem sameShape_of_render_eq {x : Formula μ} {y : Formula ν} (hx : x.WellFormed)
    (hy : y.WellFormed) (h : x.render = y.render) : x.SameShape y := by
  have hx' := treeOf_render hx
  rw [h, treeOf_render hy] at hx'
  exact (Except.ok.inj hx').symm

/-- The text of a formula is read as a formula of the same shape exactly when it is well formed, and
as the formula itself exactly when the marks are right too. So the text tells the shapes of well
formed formulas apart, and what was read once is read from its own text again. -/
theorem parse_inverts_render (x : Formula Depth) :
    ((∃ y, (parse x.render).outcome = .ok y ∧ y.SameShape x) ↔ x.WellFormed) ∧
    (x.WellFormed → ((parse x.render).outcome = .ok x ↔ x.DepthsFrom 0)) ∧
    (∀ y : Formula Depth, x.WellFormed → y.WellFormed → (x.SameShape y ↔ x.render = y.render)) ∧
    ∀ f, (parse f).outcome = .ok x → (parse x.render).outcome = .ok x := by
  refine ⟨⟨?_, ?_⟩, ?_, ?_, ?_⟩
  · rintro ⟨y, hy, hs⟩
    have hw := wellFormed_of_treeOf (outcome_parse_eq_ok_iff.1 hy).1
    rwa [show y.shape = x.shape from hs, wellFormed_shape] at hw
  · intro hw
    refine ⟨x.shape.atDepth 0, ?_, ?_⟩
    · rw [outcome_parse, treeOf_render hw, ok_bind]
    · rw [SameShape, shape_atDepth, shape_of_unit]
  · intro hw
    rw [outcome_parse_eq_ok_iff, and_iff_right (treeOf_render hw)]
  · intro y hx hy
    exact ⟨SameShape.render_eq, sameShape_of_render_eq hx hy⟩
  · intro f hf
    obtain ⟨ht, hd⟩ := outcome_parse_eq_ok_iff.1 hf
    have hw := (wellFormed_shape x).1 (wellFormed_of_treeOf ht)
    exact outcome_parse_eq_ok_iff.2 ⟨treeOf_render hw, hd⟩

/-- A leaf that was put under a root of depth 5 by hand. -/
def misplaced : Formula Depth := unary 5 (.delta 3) (leaf 1 "x1")

theorem parse_inverts_render_misplaced :
    (∃ y, (parse misplaced.render).outcome = .ok y ∧ y.SameShape misplaced) ∧
      (parse misplaced.render).outcome ≠ .ok misplaced := by
  have hw : misplaced.WellFormed := by decide
  have hd : ¬ misplaced.DepthsFrom 0 := by decide
  obtain ⟨hshape, heq, -⟩ := parse_inverts_render misplaced
  exact ⟨hshape.2 hw, fun h => hd ((heq hw).1 h)⟩

end Formula

end ManyValued
