import ManyValued.Proofs.Formula.Replacement
import ManyValued.Proofs.Outcome

/-! Composing the terms of a network layer by layer. On the texts of well formed formulas the
composition does to the formulas what it should: those of each layer take the place of the inputs of
the next. -/

namespace ManyValued

open Formula

/-- Puts the formulas `below` into the first row, and so on upwards, to the last row. -/
def stacked (below : List (Formula Unit)) (rows : List (List (Formula Unit))) :
    List (Formula Unit) :=
  rows.foldl (fun below row => row.map (plug below)) below

/-- Rows of formulas that fit on a row of `width` and on one another. A row has a formula for each
neuron, and no formula uses a slot that the composition needs. -/
def Stackable (width : Nat) : List (Width × List (Formula Unit)) → Prop
  | [] => True
  | (w, row) :: rest => w.inputs = width ∧ row.length = w.neurons ∧
      (∀ x ∈ row, x.WellFormed ∧ ∀ i < width, slotName i ∉ x.names) ∧ Stackable row.length rest

def printed (layer : Width × List (Formula Unit)) : Width × List String :=
  (layer.1, layer.2.map render)

variable {below row : List (Formula Unit)} {layers : List (Width × List (Formula Unit))}
  {rows : List (List (Formula Unit))} {w : Width}

theorem stacked_cons (below row : List (Formula Unit)) (rows : List (List (Formula Unit))) :
    stacked below (row :: rows) = stacked (row.map (plug below)) rows := rfl

theorem Stackable.length_eq {width : Nat} (h : Stackable width layers) :
    ∀ layer ∈ layers, layer.2.length = layer.1.neurons := by
  induction layers generalizing width with
  | nil => exact fun _ hl => nomatch hl
  | cons layer rest ih =>
    obtain ⟨-, hn, -, hrest⟩ := h
    exact List.forall_mem_cons.2 ⟨hn, ih hrest⟩

theorem miscount?_eq_none (h : ∀ layer ∈ layers, layer.2.length = layer.1.neurons)
    (index : Nat) : miscount? index (layers.map printed) = none := by
  induction layers generalizing index with
  | nil => rfl
  | cons layer rest ih =>
    obtain ⟨hl, hrest⟩ := List.forall_mem_cons.1 h
    rw [List.map_cons, printed, miscount?, if_pos (by rwa [List.length_map])]
    exact ih hrest (index + 1)

theorem map_plugInto (h : ∀ x ∈ row, x.WellFormed ∧ ∀ i < below.length, slotName i ∉ x.names) :
    (row.map render).map (plugInto below.length (below.map render)) =
      (row.map (plug below)).map render := by
  rw [List.map_map, List.map_map]
  apply List.map_congr_left
  intro x hx
  exact plugInto_render (h x hx).1 (h x hx).2

theorem outcome_composeLayers (h : Stackable below.length layers) (index : Nat) :
    (composeLayers index (below.map render) (layers.map printed)).outcome =
      .ok ((stacked below (layers.map Prod.snd)).map render) := by
  induction layers generalizing below index with
  | nil => rfl
  | cons layer rest ih =>
    obtain ⟨w, row⟩ := layer
    obtain ⟨hw, -, hrow, hrest⟩ := h
    rw [List.map_cons, printed, composeLayers, if_pos (by rw [hw, List.length_map])]
    simp only [hw, map_plugInto hrow, Attempt.outcome_bind, Attempt.outcome_lift, ok_bind]
    rw [List.map_cons, stacked_cons]
    exact ih (by rwa [List.length_map]) (index + 1)

def outputText : List (Formula Unit) → Except Error String
  | [x] => .ok x.render
  | row => .error (.invalidNetwork (.outputCount row.length))

/-- The composition of the texts of a table is the text of what is left on top. -/
theorem outcome_compose {shape : List Width} (hrow : row.length = w.neurons)
    (hlen : shape.length = rows.length) (h : Stackable row.length (shape.zip rows)) :
    (compose (w :: shape) ((row :: rows).map fun row => row.map render)).outcome =
      outputText (stacked row rows) := by
  have hz : (w :: shape).zip ((row :: rows).map fun row => row.map render) =
      ((w, row) :: shape.zip rows).map printed := List.zip_map_right
  have hp : pairLayers (w :: shape) ((row :: rows).map fun row => row.map render) =
      .ok (((w, row) :: shape.zip rows).map printed) := by
    rw [pairLayers, if_neg (by simp), if_pos (by simp [hlen]), hz,
      miscount?_eq_none (List.forall_mem_cons.2 ⟨hrow, h.length_eq⟩)]
  have hc := outcome_composeLayers h 1
  rw [List.map_snd_zip (Nat.le_of_eq hlen.symm)] at hc
  rw [compose, hp]
  simp only [List.map_cons, printed, Attempt.outcome_bind, hc, ok_bind]
  cases stacked row rows with
  | nil => rfl
  | cons x xs =>
    cases xs with
    | nil => rfl
    | cons y ys =>
      rw [outputText, ← List.length_map render]
      · rfl
      · rintro z ⟨⟩

theorem wellFormed_stacked (hb : ∀ y ∈ below, y.WellFormed)
    (hr : ∀ row ∈ rows, ∀ x ∈ row, x.WellFormed) : ∀ y ∈ stacked below rows, y.WellFormed := by
  induction rows generalizing below with
  | nil => exact hb
  | cons row rows ih =>
    obtain ⟨hrow, hrows⟩ := List.forall_mem_cons.1 hr
    apply ih _ hrows
    intro y hy
    obtain ⟨x, hx, rfl⟩ := List.mem_map.1 hy
    exact wellFormed_plug (hrow x hx) hb

end ManyValued
