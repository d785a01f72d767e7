import ManyValued.Proofs.Composition
import ManyValued.Proofs.Formula.Depth

/-! The composition of a whole table. Layer by layer, a neuron's formula becomes a formula over the
inputs of the first layer when the formulas of the layer before are put for its inputs; the
composition writes the one that is left at the end. Only the layers above the first are searched for
slots, so the first may use any atom, and what it uses may be put into a layer that avoids it. -/

namespace ManyValued

open Formula

variable {μ : Type}

/-- The formulas of a layer over the inputs of the first: those of the table, with the formulas of
the layer before put for their inputs. -/
def expanded (table : List (List (Formula Unit))) : Nat → List (Formula Unit)
  | 0 => table.getD 0 []
  | layer + 1 => (table.getD (layer + 1) []).map (plug (expanded table layer))

/-- A table that can be composed: a well formed formula for each neuron of a network with a single
output, where no formula above the first layer uses a slot that its inputs need. -/
structure Fits (shape : List Width) (table : List (List (Formula μ))) : Prop where
  sized : table.map List.length = shape.map Width.neurons
  chained : shape.IsChain fun below above => above.inputs = below.neurons
  single : (shape.map Width.neurons).getLast? = some 1
  wellFormed : ∀ row ∈ table, ∀ x ∈ row, x.WellFormed
  unslotted : ∀ layer ∈ (shape.zip table).tail, ∀ x ∈ layer.2, ∀ i < layer.1.inputs,
    slotName i ∉ x.names

theorem names_shape (x : Formula μ) : x.shape.names = x.names := by
  induction x with
  | leaf m a => rfl
  | unary m op x ih => rw [shape_unary, names, names, ih]
  | binary m op x y ihx ihy => rw [shape_binary, names, names, ihx, ihy]

section Expanded

variable {row row' : List (Formula Unit)} {rows table : List (List (Formula Unit))}

theorem length_expanded (table : List (List (Formula Unit))) (layer : Nat) :
    (expanded table layer).length = (table.getD layer []).length := by
  cases layer with
  | zero => rfl
  | succ layer => rw [expanded, List.length_map]

/-- Putting the first layer into the second leaves the layers above as they come out. -/
theorem expanded_cons (layer : Nat) : expanded (row :: row' :: rows) (layer + 1) =
    expanded (row'.map (plug row) :: rows) layer := by
  induction layer with
  | zero => rfl
  | succ layer ih =>
    rw [expanded, ih]
    rfl

theorem stacked_eq_expanded (row : List (Formula Unit)) (rows : List (List (Formula Unit))) :
    stacked row rows = expanded (row :: rows) rows.length := by
  induction rows generalizing row with
  | nil => rfl
  | cons row' rows ih => rw [stacked_cons, ih, List.length_cons, expanded_cons]

end Expanded

section Fits

variable {w : Width} {shape : List Width} {row : List (Formula Unit)}
  {rows : List (List (Formula Unit))} {table : List (List (Formula μ))}

theorem Fits.map_shape (h : Fits shape table) :
    Fits shape (table.map fun row => row.map Formula.shape) where
  sized := by
    rw [← h.sized, List.map_map]
    exact List.map_congr_left fun row _ => List.length_map _
  chained := h.chained
  single := h.single
  wellFormed := by
    intro row hrow x hx
    obtain ⟨row', hrow', rfl⟩ := List.mem_map.1 hrow
    obtain ⟨x', hx', rfl⟩ := List.mem_map.1 hx
    exact (wellFormed_shape x').2 (h.wellFormed row' hrow' x' hx')
  unslotted := by
    intro layer hlayer x hx i hi
    rw [List.zip_map_right, ← List.map_tail] at hlayer
    obtain ⟨layer', hlayer', rfl⟩ := List.mem_map.1 hlayer
    obtain ⟨x', hx', rfl⟩ := List.mem_map.1 hx
    rw [names_shape]
    exact h.unslotted layer' hlayer' x' hx' i hi

theorem stackable_of_isChain
    (hc : (w :: shape).IsChain fun below above => above.inputs = below.neurons)
    (hs : rows.map List.length = shape.map Width.neurons)
    (hw : ∀ row ∈ rows, ∀ x ∈ row, x.WellFormed)
    (hu : ∀ layer ∈ shape.zip rows, ∀ x ∈ layer.2, ∀ i < layer.1.inputs, slotName i ∉ x.names) :
    Stackable w.neurons (shape.zip rows) := by
  induction shape generalizing w rows with
  | nil => trivial
  | cons above shape ih =>
    cases rows with
    | nil => trivial
    | cons row rows =>
      obtain ⟨hin, hc⟩ := List.isChain_cons_cons.1 hc
      obtain ⟨hlen, hs⟩ := List.cons.inj hs
      obtain ⟨hrow, hw⟩ := List.forall_mem_cons.1 hw
      obtain ⟨hfirst, hu⟩ := List.forall_mem_cons.1 hu
      refine ⟨hin, hlen, fun x hx => ⟨hrow x hx, ?_⟩, ?_⟩
      · rw [← hin]
        exact hfirst x hx
      · rw [hlen]
        exact ih hc hs hw hu

theorem Fits.stackable (h : Fits (w :: shape) (row :: rows)) :
    Stackable row.length (shape.zip rows) := by
  obtain ⟨hlen, hs⟩ := List.cons.inj h.sized
  rw [hlen]
  exact stackable_of_isChain h.chained hs (List.forall_mem_cons.1 h.wellFormed).2 h.unslotted

theorem Fits.exists_expanded (h : Fits shape rows) :
    ∃ y, expanded rows (rows.length - 1) = [y] := by
  have hlast := h.single
  rw [← h.sized, List.getLast?_map, Option.map_eq_some_iff] at hlast
  obtain ⟨row, hrow, hone⟩ := hlast
  rw [List.getLast?_eq_getElem?] at hrow
  rw [← List.length_eq_one_iff, length_expanded, List.getD_eq_getElem?_getD, hrow]
  exact hone

theorem Fits.outcome_compose (h : Fits shape rows) {y : Formula Unit}
    (hy : expanded rows (rows.length - 1) = [y]) :
    (compose shape (rows.map fun row => row.map render)).outcome = .ok y.render := by
  cases shape with
  | nil => cases h.single
  | cons w shape =>
    cases rows with
    | nil => cases h.sized
    | cons row rows =>
      obtain ⟨hlen, hs⟩ := List.cons.inj h.sized
      have hlayers : shape.length = rows.length := by
        have hlengths := congrArg List.length hs
        rw [List.length_map, List.length_map] at hlengths
        exact hlengths.symm
      have hy : expanded (row :: rows) rows.length = [y] := hy
      rw [ManyValued.outcome_compose hlen hlayers h.stackable, stacked_eq_expanded, hy]
      rfl

/-- Composing the texts of the formulas of a table gives the text of the formula that the last layer
has over the inputs of the first. -/
theorem compose_writes_expanded (h : Fits shape table) :
    ∃ y, expanded (table.map fun row => row.map Formula.shape) (table.length - 1) = [y] ∧
      (compose shape (table.map fun row => row.map render)).outcome = .ok y.render := by
  have hrender : table.map (fun row => row.map render) =
      (table.map fun row => row.map Formula.shape).map fun row => row.map render := by
    rw [List.map_map]
    refine List.map_congr_left fun row _ => ?_
    rw [Function.comp_apply, List.map_map]
    exact List.map_congr_left fun x _ => (render_shape x).symm
  obtain ⟨y, hy⟩ := h.map_shape.exists_expanded
  rw [hrender]
  refine ⟨y, ?_, h.map_shape.outcome_compose hy⟩
  rwa [List.length_map] at hy

/-- Formulas for three layers: the first swaps two of its atoms, the second swaps them again. -/
def swapped : List (List (Formula Depth)) :=
  [[leaf 0 "x2", leaf 0 "s1"],
    [unary 0 (.delta 10) (leaf 1 "x2"), leaf 0 "x1"],
    [binary 0 .implies (leaf 1 "x2") (binary 1 .conj (leaf 2 "x1") (leaf 2 "x10"))]]

theorem compose_writes_expanded_swapped :
    (compose [⟨2, 2⟩, ⟨2, 2⟩, ⟨2, 1⟩] [["x2", "s1"], ["(δ_10 x2)", "x1"],
      ["(x2⇒(x1⊙x10))"]]).outcome = .ok "(x2⇒((δ_10 s1)⊙x10))" := by
  have h : Fits [⟨2, 2⟩, ⟨2, 2⟩, ⟨2, 1⟩] swapped :=
    ⟨by decide, by decide, by decide, by decide, by decide⟩
  have htexts : swapped.map (fun row => row.map render) =
      [["x2", "s1"], ["(δ_10 x2)", "x1"], ["(x2⇒(x1⊙x10))"]] := by decide
  obtain ⟨y, hy, hc⟩ := compose_writes_expanded h
  have hy' : expanded (swapped.map fun row => row.map Formula.shape) (swapped.length - 1) =
      [binary () .implies (leaf () "x2")
        (binary () .conj (unary () (.delta 10) (leaf () "s1")) (leaf () "x10"))] := by decide
  obtain rfl := List.cons.inj (hy'.symm.trans hy) |>.1
  rw [← htexts, hc]
  rfl

end Fits

end ManyValued
