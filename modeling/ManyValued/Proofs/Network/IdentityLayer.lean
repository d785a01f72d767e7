import ManyValued.Proofs.Network.Formulas
import ManyValued.Proofs.Synthesis.Integral
import Mathlib.Data.List.InsertIdx

/-! Layers that pass on what they get. A row of the identity matrix has scale 1 and the bare input
for its term, by both strategies, so the formulas of such a layer are the names of its inputs.
Putting the names of the inputs into a formula, or a row of formulas for those names, changes
nothing, so a stack does not notice the layer, at whatever place it is. -/

namespace ManyValued

open Formula

section UnitRow

variable {α : Type} [OfNat α 0] [OfNat α 1] {k i : Nat}

def unitRow (k i : Nat) : List α := (List.range k).map fun j => if i = j then 1 else 0

theorem length_unitRow (k i : Nat) : (unitRow k i : List α).length = k := by
  rw [unitRow, List.length_map, List.length_range]

theorem modify_unitRow {f : α → α} (hf : f 1 = 0) :
    (unitRow k i : List α).modify i f = List.replicate k 0 := by
  apply List.ext_getElem
  · rw [List.length_modify, length_unitRow, List.length_replicate]
  · intro j h1 h2
    rw [List.getElem_modify, List.getElem_replicate]
    simp only [unitRow, List.getElem_map, List.getElem_range]
    split_ifs
    · exact hf
    · rfl

theorem firstPositive?_unitRow [LT α] [DecidableLT α] (h0 : ¬ (0 : α) < 0) (h1 : (0 : α) < 1)
    (hi : i < k) : firstPositive? (unitRow k i : List α) = some i := by
  rw [firstPositive?, List.findIdx?_eq_some_iff_getElem]
  refine ⟨by rwa [length_unitRow], ?_, ?_⟩
  · simpa [unitRow] using h1
  · intro j hj
    have hij : i ≠ j := by omega
    simpa [unitRow, hij] using h0

theorem one_mem_unitRow (hi : i < k) : (1 : α) ∈ unitRow k i :=
  List.mem_map.2 ⟨i, List.mem_range.2 hi, if_pos rfl⟩

theorem not_all_unitRow {p : α → Bool} (h : p 1 = false) (hi : i < k) :
    ¬ (unitRow k i).all p := by
  intro hp
  rw [List.all_eq_true.1 hp 1 (one_mem_unitRow hi)] at h
  cases h

end UnitRow

section Synthesis

variable {k i : Nat} {t : Term}

theorem Integer.Builds.eq_constant {weights : List Int} {bias : Int}
    (h : Builds weights bias t) (hz : weights.all (· = 0)) : t = .constant (0 < bias) := by
  cases h with
  | constant => rfl
  | reflect hnz => exact absurd hz hnz
  | decrement hp => exact absurd hz (not_all_zero_of_firstPositive? (by decide) hp)

theorem Integer.Builds.eq_input (h : Builds (unitRow k i) 0 t) (hi : i < k) : t = .input i := by
  have hp : firstPositive? (unitRow k i : List Int) = some i :=
    firstPositive?_unitRow (by decide) (by decide) hi
  cases h with
  | constant hz => exact absurd hz (not_all_unitRow rfl hi)
  | reflect _ hp' => cases hp.symm.trans hp'
  | @decrement _ _ j left right hp' hl hr =>
    obtain rfl : i = j := Option.some.inj (hp.symm.trans hp')
    -- The step takes the 1 away: what is left are two rows of zeros, with the biases 0 and 1.
    have hstep : Integer.decrement (unitRow k i) i = List.replicate k 0 :=
      modify_unitRow (f := (· - 1)) (Int.sub_self 1)
    rw [hstep] at hl hr
    rw [hl.eq_constant (by simp), hr.eq_constant (by simp)]
    rfl

theorem rationals_unitRow (k i : Nat) : rationals (unitRow k i) = unitRow k i := by
  rw [rationals, unitRow, unitRow, List.map_map]
  refine List.map_congr_left fun j _ => ?_
  rw [Function.comp_apply]
  split_ifs <;> rfl

/-- Both strategies give a row of the identity matrix its input and nothing else. -/
theorem synthesize_unitRow (strategy : Strategy) (hi : i < k) :
    (synthesize strategy (unitRow k i) 0).outcome = .ok (.input i) := by
  have h := synthesize_rationals strategy (unitRow k i) 0
  rw [rationals_unitRow, (Integer.builds_synthesize _ _).eq_input hi] at h
  exact h

end Synthesis

section Stack

variable {below : List (Formula Unit)} {rows : List (List (Formula Unit))} {p k : Nat}

theorem map_plug_inputRow (below : List (Formula Unit)) :
    (inputRow below.length).map (plug below) = below := by
  apply List.ext_getElem
  · rw [List.length_map, inputRow, List.length_map, List.length_range]
  · intro i h1 h2
    simp only [inputRow, List.getElem_map, List.getElem_range]
    exact plug_input h2

theorem stacked_insertIdx (h : ((below :: rows).map List.length)[p]? = some k) :
    stacked below (rows.insertIdx p (inputRow k)) = stacked below rows := by
  induction p generalizing below rows with
  | zero =>
    -- The inserted row names the formulas right below it, so it becomes these formulas.
    obtain rfl : below.length = k := Option.some.inj h
    rw [List.insertIdx_zero, stacked_cons, map_plug_inputRow]
  | succ p ih =>
    cases rows with
    | nil => cases h
    | cons row rows =>
      rw [List.insertIdx_succ_cons, stacked_cons, stacked_cons]
      apply ih
      rwa [List.map_cons, List.length_map]

end Stack

section Layers

variable {layers : List Layer} {layer a : Layer} {p : Nat}

theorem misfit?_of_chained (h : Chained layers) (index : Nat) : misfit? index layers = none := by
  induction layers generalizing index with
  | nil => rfl
  | cons a rest ih =>
    cases rest with
    | nil => rfl
    | cons b rest =>
      obtain ⟨hab, hc⟩ := h
      rw [misfit?, if_pos hab]
      exact ih hc (index + 1)

theorem Network.ofLayers_layers (net : Network) : ofLayers net.layers = .ok net := by
  rw [ofLayers, dif_neg net.layers_ne_nil]
  split
  · rename_i h
    rw [misfit?_of_chained net.chained] at h
    cases h
  · rfl

theorem Layer.exists_ofRows {rows : List (List Rat)} {biases : List Rat} {k : Nat}
    (hne : rows ≠ []) (hlen : rows.length = biases.length) (hrows : ∀ row ∈ rows, row.length = k) :
    ∃ layer, ofRows rows biases = .ok layer ∧ layer.inputs = k ∧
      layer.neurons = (rows.zip biases).map fun (weights, bias) => ⟨weights, bias⟩ := by
  obtain ⟨first, rest, rfl⟩ := List.exists_cons_of_ne_nil hne
  obtain ⟨hfirst, -⟩ := List.forall_mem_cons.1 hrows
  rw [ofRows, dif_neg (not_not.2 hlen)]
  split
  · rename_i i hi
    obtain ⟨hlt, hbad, -⟩ := List.findIdx?_eq_some_iff_getElem.1 hi
    exact absurd ((hrows _ (List.getElem_mem hlt)).trans hfirst.symm) (of_decide_eq_true hbad)
  · exact ⟨_, rfl, hfirst, rfl⟩

/-- A layer with as many neurons as inputs may stand below the first layer that has these inputs. -/
theorem Chained.cons (hc : Chained layers) (hsquare : layer.neurons.length = layer.inputs)
    (h : ∀ a ∈ layers.head?, a.inputs = layer.inputs) : Chained (layer :: layers) := by
  cases layers with
  | nil => trivial
  | cons a rest => exact ⟨(h a rfl).trans hsquare.symm, hc⟩

theorem Chained.insertIdx (hc : Chained layers) (hsquare : layer.neurons.length = layer.inputs)
    (ha : layers[p]? = some a) (h : layer.inputs = a.neurons.length) :
    Chained (layers.insertIdx (p + 1) layer) := by
  induction p generalizing layers with
  | zero =>
    cases layers with
    | nil => cases ha
    | cons b rest =>
      obtain rfl : b = a := Option.some.inj ha
      refine ⟨h, ?_⟩
      cases rest with
      | nil => trivial
      | cons c rest => exact ⟨hc.1.trans (h.symm.trans hsquare.symm), hc.2⟩
  | succ p ih =>
    cases layers with
    | nil => cases ha
    | cons b rest =>
      cases rest with
      | nil => cases ha
      | cons c rest => exact ⟨hc.1, ih hc.2 ha⟩

end Layers

def identityRows (k : Nat) : List (List Rat) := (List.range k).map (unitRow k)

theorem Layer.exists_identity {k : Nat} (hk : 0 < k) :
    ∃ layer, ofRows (identityRows k) (List.replicate k 0) = .ok layer ∧ layer.inputs = k ∧
      layer.neurons = (List.range k).map fun i => ⟨unitRow k i, 0⟩ := by
  have hlen : (identityRows k).length = k := by
    rw [identityRows, List.length_map, List.length_range]
  have hbiases : (identityRows k).length = (List.replicate k (0 : Rat)).length := by
    rw [hlen, List.length_replicate]
  have hrows : ∀ row ∈ identityRows k, row.length = k := by
    intro row hrow
    obtain ⟨i, -, rfl⟩ := List.mem_map.1 hrow
    exact length_unitRow k i
  have hne : identityRows k ≠ [] := List.ne_nil_of_length_pos (hlen.symm ▸ hk)
  obtain ⟨layer, hlayer, hin, hn⟩ := exists_ofRows hne hbiases hrows
  refine ⟨layer, hlayer, hin, hn.trans ?_⟩
  apply List.ext_getElem <;> simp [identityRows]

theorem Layer.formulas_identity {layer : Layer} {k : Nat}
    (h : layer.neurons = (List.range k).map fun i => ⟨unitRow k i, 0⟩) (strategy : Strategy) :
    layer.formulas strategy = .ok (inputRow k) := by
  rw [formulas, h, mapM_eq_ok_iff, inputRow, List.forall₂_map_left_iff, List.forall₂_map_right_iff,
    List.forall₂_same]
  intro i hi
  rw [Neuron.formula, synthesize_unitRow strategy (List.mem_range.1 hi), ok_bind]
  rfl

namespace Network

/-- How many values pass from one layer to the next: below the first the inputs of the network, and
above each layer as many as it has neurons. -/
def widthAt (net : Network) : Nat → Nat
  | 0 => net.inputs
  | p + 1 => net.layers[p]?.elim 0 (·.neurons.length)

variable {net : Network} {layer : Layer} {p : Nat}

theorem chained_insertIdx (hp : p ≤ net.layers.length)
    (hsquare : layer.neurons.length = layer.inputs) (hin : layer.inputs = net.widthAt p) :
    Chained (net.layers.insertIdx p layer) := by
  cases p with
  | zero =>
    apply net.chained.cons hsquare
    intro a ha
    rw [hin, widthAt, inputs, (List.head_eq_iff_head?_eq_some net.layers_ne_nil).2 ha]
  | succ p =>
    have ha : net.layers[p]? = some net.layers[p] := List.getElem?_eq_getElem hp
    rw [widthAt, ha] at hin
    exact net.chained.insertIdx hsquare ha hin

/-- A stack does not notice a row of input names that stands where there are as many inputs. -/
theorem stack_insertIdx {strategy : Strategy} {rows : List (List (Formula Unit))}
    (hrows : net.formulas strategy = .ok rows) (hp : p ≤ net.layers.length) :
    stack (rows.insertIdx p (inputRow (net.widthAt p))) = stack rows := by
  have hlayers := mapM_eq_ok_iff.1 hrows
  have hne : rows ≠ [] := by
    rintro rfl
    exact net.layers_ne_nil (List.forall₂_nil_right_iff.1 hlayers)
  cases p with
  | zero => exact stacked_inputRow _ hne
  | succ p =>
    obtain ⟨hlen, hget⟩ := List.forall₂_iff_get.1 hlayers
    have hp' : p < rows.length := hlen ▸ hp
    have hrow : net.layers[p].neurons.length = rows[p].length :=
      (mapM_eq_ok_iff.1 (hget p hp hp')).length_eq
    have hwidth : (rows.map List.length)[p]? = some (net.widthAt (p + 1)) := by
      rw [List.getElem?_map, List.getElem?_eq_getElem hp', widthAt, List.getElem?_eq_getElem hp,
        Option.map_some, ← hrow]
      rfl
    rw [stack_eq_stacked, stack_eq_stacked]
    exact stacked_insertIdx hwidth

/-- A layer with the identity matrix and no biases may be put anywhere in a network, between two
layers or at either end, without changing its term or how it fails. -/
theorem term_eq_of_identity_layer (net : Network) {p : Nat} (hp : p ≤ net.layers.length)
    (hk : 0 < net.widthAt p) :
    ∃ layer net', Layer.ofRows (identityRows (net.widthAt p)) (List.replicate (net.widthAt p) 0) =
        .ok layer ∧
      ofLayers (net.layers.insertIdx p layer) = .ok net' ∧
      ∀ strategy, (net'.term strategy).outcome = (net.term strategy).outcome := by
  obtain ⟨layer, hlayer, hin, hneurons⟩ := Layer.exists_identity hk
  have hsquare : layer.neurons.length = layer.inputs := by
    rw [hneurons, hin, List.length_map, List.length_range]
  have hne : net.layers.insertIdx p layer ≠ [] :=
    List.ne_nil_of_mem ((List.mem_insertIdx hp).2 (.inl rfl))
  let net' : Network := ⟨net.layers.insertIdx p layer, hne, chained_insertIdx hp hsquare hin⟩
  refine ⟨layer, net', hlayer, net'.ofLayers_layers, fun strategy => ?_⟩
  have hformulas : net'.formulas strategy = net.formulas strategy >>= fun rows =>
      .ok (rows.insertIdx p (inputRow (net.widthAt p))) :=
    mapM_insertIdx (Layer.formulas_identity hneurons strategy) net.layers p
  rw [outcome_term, outcome_term, hformulas]
  cases hrows : net.formulas strategy with
  | error e => rfl
  | ok rows => rw [ok_bind, ok_bind, ok_bind, stack_insertIdx hrows hp]

def foldedSum : Network where
  layers :=
    [{ inputs := 2
       neurons := [⟨[1 / 2, 1 / 2], 0⟩, ⟨[1, 1], -1⟩]
       neurons_ne_nil := by simp
       length_weights := by simp },
     { inputs := 2
       neurons := [⟨[2, -2], 0⟩]
       neurons_ne_nil := by simp
       length_weights := by simp }]
  layers_ne_nil := by simp
  chained := ⟨rfl, trivial⟩

theorem term_eq_of_identity_layer_foldedSum :
    ∃ layer net', Layer.ofRows [[1, 0], [0, 1]] [0, 0] = .ok layer ∧
      ofLayers (foldedSum.layers.insertIdx 1 layer) = .ok net' ∧
      (net'.term .fractional).outcome = (foldedSum.term .fractional).outcome := by
  have hp : 1 ≤ foldedSum.layers.length := by decide
  have hk : 0 < foldedSum.widthAt 1 := by decide
  obtain ⟨layer, net', hlayer, hnet', hterm⟩ := term_eq_of_identity_layer foldedSum hp hk
  exact ⟨layer, net', hlayer, hnet', hterm .fractional⟩

end Network

end ManyValued
