import ManyValued.Proofs.Network.Formulas

/-! The term of a network computes its output. Each neuron has a formula over the outputs of the
layer below; stacking the formulas keeps the invariant that those of a layer have the outputs of
that layer as their values, and these stay in `[0, 1]`, where the formulas of the next layer are
right. -/

namespace ManyValued

open Formula

def HaveValues (xs : List Rat) (row : List (Formula Unit)) (ys : List Rat) : Prop :=
  List.Forall₂ (fun x y => x.evaluate Logic.lukasiewicz (Valuation.ofInputs xs) = .ok y) row ys

section Layers

variable {l : Layer} {layers : List Layer} {row : List (Formula Unit)}
  {rows : List (List (Formula Unit))} {xs ys : List Rat}

theorem inUnitCube_forward (l : Layer) (xs : List Rat) : InUnitCube (l.forward xs) := by
  intro y hy
  obtain ⟨n, -, rfl⟩ := List.mem_map.1 hy
  rw [Neuron.forward, clip_eq_clipped]
  exact ⟨clipped_nonneg _, clipped_le_one _⟩

theorem Layer.Expressed.wellFormed (h : l.Expressed row) : ∀ x ∈ row, x.WellFormed := by
  intro x hx
  obtain ⟨n, -, hn⟩ := exists_of_forall₂ h x hx
  exact hn.wellFormed

theorem Layer.Expressed.haveValues (h : l.Expressed row) (hlen : xs.length = l.inputs)
    (hx : InUnitCube xs) : HaveValues xs row (l.forward xs) := by
  have h1 := (List.forall₂_and_left (p := fun n => n.weights.length = l.inputs)
    l.neurons row).2 ⟨l.length_weights, h⟩
  rw [HaveValues, Layer.forward, List.forall₂_map_right_iff]
  apply (h1.imp _).flip
  rintro n x ⟨hw, hn⟩
  exact hn.value xs (hlen.trans hw.symm) hx

theorem haveValues_plug (h : l.Expressed row) {below : List (Formula Unit)}
    (hb : HaveValues xs below ys) (hin : l.inputs = below.length) (hy : InUnitCube ys) :
    HaveValues xs (row.map (plug below)) (l.forward ys) := by
  have h1 := (List.forall₂_and_left (p := (· ∈ row)) row (l.forward ys)).2
    ⟨fun _ hx => hx, h.haveValues (hb.length_eq.symm.trans hin.symm) hy⟩
  rw [HaveValues, List.forall₂_map_left_iff]
  apply h1.imp
  rintro x y ⟨hx, hxy⟩
  obtain ⟨n, hn, hnx⟩ := exists_of_forall₂ h x hx
  rw [← hxy]
  apply evaluate_plug hb
  rw [← hin, ← l.length_weights n hn]
  exact hnx.names

theorem haveValues_stacked (hc : Chained (l :: layers)) {below : List (Formula Unit)}
    (hl : below.length = l.neurons.length) (hb : HaveValues xs below ys) (hy : InUnitCube ys)
    (h : List.Forall₂ Layer.Expressed layers rows) :
    HaveValues xs (stacked below rows) (layers.foldl (fun xs l => l.forward xs) ys) := by
  induction h generalizing l below ys with
  | nil => exact hb
  | @cons b rowb layers rows hr _ ih =>
    obtain ⟨hin, hc⟩ := hc
    -- What the layer gives is again in the unit cube, so the next layer is right about it.
    exact ih hc (hr.length_plug below) (haveValues_plug hr hb (hin.trans hl.symm) hy)
      (inUnitCube_forward b ys)

end Layers

/-- The stacked formulas are what composing the terms of a network writes. -/
theorem exists_outcome_term {net : Network} (strategy : Strategy)
    (hout : (net.layers.getLast net.layers_ne_nil).neurons.length = 1)
    (hscale : ∀ l ∈ net.layers, ∀ n ∈ l.neurons,
      commonDenominator (n.weights ++ [n.bias]) < UInt32.size) :
    ∃ x : Formula Unit, (net.term strategy).outcome = .ok x.render ∧ x.WellFormed ∧
      ∀ xs : List Rat, xs.length = net.inputs → InUnitCube xs →
        ∃ y, net.forward xs = .ok [y] ∧
          x.evaluate Logic.lukasiewicz (Valuation.ofInputs xs) = .ok y := by
  obtain ⟨rows, hrows⟩ := net.exists_formulas (Network.overflow?_eq_none_iff.2 hscale) strategy
  have hterm := net.outcome_term strategy
  rw [hrows, ok_bind] at hterm
  replace hrows := Network.expressed_of_formulas hrows
  obtain ⟨layers, hne, hc⟩ := net
  cases hrows with
  | nil => exact absurd rfl hne
  | @cons l row layers rows hrow hrows =>
    have hlen : row.length = l.neurons.length := hrow.length_eq.symm
    obtain ⟨x, hx⟩ := List.length_eq_one_iff.1 ((length_stacked hlen hrows).trans hout)
    refine ⟨x, ?_, ?_, ?_⟩
    · rw [hterm, stack, hx]
      rfl
    · have hw := wellFormed_stacked hrow.wellFormed fun r hr => by
        obtain ⟨b, -, hb⟩ := exists_of_forall₂ hrows r hr
        exact hb.wellFormed
      exact hw x (by rw [hx]; exact List.mem_singleton_self x)
    · intro xs hxs hcube
      have hvalues := haveValues_stacked hc hlen (hrow.haveValues hxs hcube)
        (inUnitCube_forward l xs) hrows
      rw [hx] at hvalues
      obtain ⟨y, _, hy, hnil, hys⟩ := List.forall₂_cons_left_iff.1 hvalues
      obtain rfl := List.forall₂_nil_left_iff.1 hnil
      refine ⟨y, ?_, hy⟩
      rw [Network.forward, if_pos hxs, ← hys]
      rfl

/-- The term of a network with one output is read as a formula that computes this output, for both
strategies and for all inputs in the unit cube. -/
theorem term_computes_forward (net : Network) (strategy : Strategy)
    (hout : (net.layers.getLast net.layers_ne_nil).neurons.length = 1)
    (hscale : ∀ l ∈ net.layers, ∀ n ∈ l.neurons,
      commonDenominator (n.weights ++ [n.bias]) < UInt32.size) :
    ∃ t node deepest, (net.term strategy).outcome = .ok t ∧
      (Formula.ofText t 0).outcome = .ok (node, deepest) ∧
      ∀ xs : List Rat, xs.length = net.inputs → InUnitCube xs →
        ∃ y, net.forward xs = .ok [y] ∧
          node.evaluate Logic.lukasiewicz (Valuation.ofInputs xs) = .ok y := by
  obtain ⟨x, hterm, hw, hvalue⟩ := exists_outcome_term strategy hout hscale
  obtain ⟨node, deepest, hnode, hshape⟩ := reads_render hw 0
  refine ⟨x.render, node, deepest, hterm, hnode, ?_⟩
  intro xs hxs hcube
  obtain ⟨y, hforward, hy⟩ := hvalue xs hxs hcube
  refine ⟨y, hforward, ?_⟩
  rw [← evaluate_shape, hshape, evaluate_shape]
  exact hy

def twoBelowOne : Network where
  layers :=
    [{ inputs := 2
       neurons := [⟨[1 / 2, -1], 1 / 3⟩, ⟨[1, 1], -1 / 2⟩]
       neurons_ne_nil := by simp
       length_weights := by simp },
     { inputs := 2
       neurons := [⟨[1, -1 / 4], 1 / 6⟩]
       neurons_ne_nil := by simp
       length_weights := by simp }]
  layers_ne_nil := by simp
  chained := ⟨rfl, trivial⟩

theorem term_computes_forward_twoBelowOne :
    ∃ t node deepest, (twoBelowOne.term .fractional).outcome = .ok t ∧
      (Formula.ofText t 0).outcome = .ok (node, deepest) ∧
      node.evaluate Logic.lukasiewicz (Valuation.ofInputs [(1 : Rat), 1 / 2]) = .ok (1 / 4) := by
  have hscale : ∀ l ∈ twoBelowOne.layers, ∀ n ∈ l.neurons,
      commonDenominator (n.weights ++ [n.bias]) < UInt32.size := by decide +kernel
  have hcube : InUnitCube [1, 1 / 2] := by unfold InUnitCube; decide +kernel
  have hvalue : twoBelowOne.forward [(1 : Rat), 1 / 2] = .ok [1 / 4] := by decide +kernel
  obtain ⟨t, node, deepest, hterm, hnode, hforward⟩ :=
    term_computes_forward twoBelowOne .fractional rfl hscale
  obtain ⟨y, hy, hnodey⟩ := hforward [1, 1 / 2] rfl hcube
  rw [hvalue] at hy
  obtain ⟨rfl, -⟩ := List.cons.inj (Except.ok.inj hy)
  exact ⟨t, node, deepest, hterm, hnode, hnodey⟩

end ManyValued
