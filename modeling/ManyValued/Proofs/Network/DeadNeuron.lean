import ManyValued.Proofs.Network.Formulas

/-! Neurons that nothing reads. A synthesis never mentions an input whose weight is 0, so where a
whole layer gives weight 0 to a neuron below, none of its formulas has the name of that neuron, and
what is put for the name does not matter. Exchanging the neuron changes one formula of the table,
and that formula is lost when the next layer is put on top of it. -/

namespace ManyValued

open Formula

def Network.neuron? (net : Network) (layer neuron : Nat) : Option Neuron :=
  net.layers[layer]?.bind fun l => l.neurons[neuron]?

/-- Networks of one shape with the same neurons, except perhaps neuron `i` of layer `l`. -/
structure Network.DifferOnlyAt (l i : Nat) (net net' : Network) : Prop where
  shape : net.shape = net'.shape
  neurons : ∀ k j, (k, j) ≠ (l, i) → net.neuron? k j = net'.neuron? k j

namespace Formula

variable {x : Formula Unit} {r r' : String → Option (Formula Unit)} {below : List (Formula Unit)}

theorem replace_congr (h : ∀ a ∈ x.names, r a = r' a) : x.replace r = x.replace r' := by
  induction x with
  | leaf u a => rw [replace, replace, h a (List.mem_singleton_self a)]
  | unary u op x ih => rw [replace, replace, ih h]
  | binary u op x y ihx ihy =>
    rw [replace, replace, ihx fun a ha => h a (List.mem_append_left _ ha),
      ihy fun a ha => h a (List.mem_append_right _ ha)]

theorem plug_set {i : Nat} (h : inputName i ∉ x.names) (y : Formula Unit) :
    x.plug (below.set i y) = x.plug below := by
  apply replace_congr
  intro a ha
  rcases name_or_ne inputName below a with ⟨j, -, rfl⟩ | hne
  · have hij : i ≠ j := by
      rintro rfl
      exact h ha
    rw [named_inputName, named_inputName, List.getElem?_set_ne hij]
  · rw [named_eq_none hne, named_eq_none (by rwa [List.length_set])]

end Formula

section Stack

variable {below : List (Formula Unit)} {rows : List (List (Formula Unit))} {l i : Nat}

def Unread (i : Nat) (row : List (Formula Unit)) : Prop := ∀ x ∈ row, inputName i ∉ x.names

/-- A formula is lost when a row that does not name it is put on top. -/
theorem stacked_set (h : ∃ above ∈ rows.head?, Unread i above) (y : Formula Unit) :
    stacked (below.set i y) rows = stacked below rows := by
  obtain ⟨above, ha, hu⟩ := h
  obtain ⟨rest, rfl⟩ := List.head?_eq_some_iff.1 ha
  rw [stacked_cons, stacked_cons]
  congr 1
  exact List.map_congr_left fun x hx => plug_set (hu x hx) y

theorem stacked_modify (h : ∃ above ∈ rows[l + 1]?, Unread i above) (y : Formula Unit) :
    stacked below (rows.modify l (·.set i y)) = stacked below rows := by
  induction rows generalizing below l with
  | nil => rw [List.modify_nil]
  | cons row rows ih =>
    rw [List.getElem?_cons_succ] at h
    cases l with
    | zero =>
      rw [← List.head?_eq_getElem?] at h
      rw [List.modify_zero_cons, stacked_cons, stacked_cons, List.map_set, stacked_set h]
    | succ l =>
      rw [List.modify_succ_cons, stacked_cons, stacked_cons, ih h]

theorem stack_modify (h : ∃ above ∈ rows[l + 1]?, Unread i above) (y : Formula Unit) :
    stack (rows.modify l (·.set i y)) = stack rows := by
  rw [stack_eq_stacked, stack_eq_stacked, stacked_modify h]

end Stack

theorem Layer.unread_of_formulas {a : Layer} {row : List (Formula Unit)} {strategy : Strategy}
    {i : Nat} (h : a.formulas strategy = .ok row)
    (hz : ∀ n ∈ a.neurons, n.weights[i]? = some 0) : Unread i row := by
  intro x hx hi
  obtain ⟨n, hn, hnx⟩ := exists_of_forall₂ (mapM_eq_ok_iff.1 h) x hx
  rcases Neuron.weighted_of_formula hnx hi with hc | ⟨j, ⟨w, hw, hne⟩, hij⟩
  · exact constant_ne hc isAtom_inputName i rfl
  · obtain rfl := inputName_inj.1 hij
    rw [hz n hn] at hw
    exact hne (Option.some.inj hw).symm

theorem eq_set_of_getElem? {α : Type} {xs ys : List α} {i : Nat} {y : α}
    (hlen : xs.length = ys.length) (hy : ys[i]? = some y) (h : ∀ j, j ≠ i → xs[j]? = ys[j]?) :
    ys = xs.set i y := by
  have hi : i < xs.length := hlen ▸ (List.getElem?_eq_some_iff.1 hy).1
  apply List.ext_getElem?
  intro j
  by_cases hj : j = i
  · subst hj
    rw [hy, List.getElem?_set_self hi]
  · rw [List.getElem?_set_ne (Ne.symm hj), h j hj]

theorem Layer.eq_of_neurons {a a' : Layer} (hin : a.inputs = a'.inputs)
    (hneurons : a.neurons = a'.neurons) : a = a' := by
  cases a
  cases a'
  cases hin
  cases hneurons
  rfl

namespace Network

variable {l i : Nat} {net net' : Network} {a a' : Layer} {n n' : Neuron}

theorem DifferOnlyAt.width_eq (h : DifferOnlyAt l i net net') (k : Nat) :
    net.layers[k]?.map Layer.width = net'.layers[k]?.map Layer.width := by
  rw [← List.getElem?_map, ← List.getElem?_map]
  exact congrArg (·[k]?) h.shape

theorem DifferOnlyAt.layer_eq (h : DifferOnlyAt l i net net') {k : Nat}
    (ha : net.layers[k]? = some a) (ha' : net'.layers[k]? = some a') :
    a.inputs = a'.inputs ∧ a.neurons.length = a'.neurons.length ∧
      ∀ j, (k, j) ≠ (l, i) → a.neurons[j]? = a'.neurons[j]? := by
  have hw := h.width_eq k
  rw [ha, ha', Option.map_some, Option.map_some, Option.some.injEq] at hw
  refine ⟨congrArg Width.inputs hw, congrArg Width.neurons hw, fun j hj => ?_⟩
  have hn := h.neurons k j hj
  rwa [neuron?, neuron?, ha, ha'] at hn

theorem DifferOnlyAt.getElem?_eq (h : DifferOnlyAt l i net net') {k : Nat} (hk : k ≠ l) :
    net.layers[k]? = net'.layers[k]? := by
  have hw := h.width_eq k
  cases ha : net.layers[k]? with
  | none =>
    cases ha' : net'.layers[k]? with
    | none => rfl
    | some a' => rw [ha, ha'] at hw; cases hw
  | some a =>
    cases ha' : net'.layers[k]? with
    | none => rw [ha, ha'] at hw; cases hw
    | some a' =>
      obtain ⟨hin, -, hn⟩ := h.layer_eq ha ha'
      have hneurons : a.neurons = a'.neurons := by
        apply List.ext_getElem?
        intro j
        apply hn
        rintro ⟨⟩
        exact hk rfl
      rw [Layer.eq_of_neurons hin hneurons]

theorem DifferOnlyAt.layers_eq (h : DifferOnlyAt l i net net')
    (ha' : net'.layers[l]? = some a') : net'.layers = net.layers.set l a' := by
  have hlen := congrArg List.length h.shape
  rw [Network.shape, Network.shape, List.length_map, List.length_map] at hlen
  exact eq_set_of_getElem? hlen ha' fun k hk => h.getElem?_eq hk

theorem DifferOnlyAt.neurons_eq (h : DifferOnlyAt l i net net') (ha : net.layers[l]? = some a)
    (ha' : net'.layers[l]? = some a') (hn' : a'.neurons[i]? = some n') :
    a'.neurons = a.neurons.set i n' := by
  obtain ⟨-, hlen, hn⟩ := h.layer_eq ha ha'
  refine eq_set_of_getElem? hlen hn' fun j hj => hn j ?_
  rintro ⟨⟩
  exact hj rfl

/-- The tables of formulas differ in one place at most. -/
theorem DifferOnlyAt.exists_formulas_eq (h : DifferOnlyAt l i net net')
    (hn : net.neuron? l i = some n) (hn' : net'.neuron? l i = some n')
    (hs : n.denominator < UInt32.size) (hs' : n'.denominator < UInt32.size)
    (strategy : Strategy) : ∃ y, net'.formulas strategy =
      net.formulas strategy >>= fun rows => .ok (rows.modify l (·.set i y)) := by
  obtain ⟨a, ha, hn⟩ := Option.bind_eq_some_iff.1 hn
  obtain ⟨a', ha', hn'⟩ := Option.bind_eq_some_iff.1 hn'
  obtain ⟨x, hx⟩ := n.exists_formula hs strategy
  obtain ⟨y, hy⟩ := n'.exists_formula hs' strategy
  refine ⟨y, ?_⟩
  -- One layer of the network changes, and one neuron of this layer.
  rw [formulas, formulas, h.layers_eq ha']
  apply mapM_set ha
  have hset (row : List (Formula Unit)) : row.set i y = row.modify i fun _ => y :=
    List.set_eq_modify y i row
  simp only [hset]
  rw [Layer.formulas, Layer.formulas, h.neurons_eq ha ha' hn']
  apply mapM_set hn
  rw [hx, hy, ok_bind]

/-- Two networks that differ in one neuron have the same term, or fail in the same way, when the
layer above gives this neuron weight 0 everywhere. -/
theorem term_eq_of_unread_neuron (h : DifferOnlyAt l i net net') (hl : l + 1 < net.layers.length)
    (hn : net.neuron? l i = some n) (hn' : net'.neuron? l i = some n')
    (hs : n.denominator < UInt32.size) (hs' : n'.denominator < UInt32.size)
    (hz : ∀ j m, net.neuron? (l + 1) j = some m → m.weights[i]? = some 0)
    (strategy : Strategy) : (net.term strategy).outcome = (net'.term strategy).outcome := by
  obtain ⟨y, hy⟩ := h.exists_formulas_eq hn hn' hs hs' strategy
  rw [outcome_term, outcome_term, hy]
  cases hf : net.formulas strategy with
  | error e => rfl
  | ok rows =>
    rw [ok_bind, ok_bind, ok_bind, stack_modify]
    have hrows := mapM_eq_ok_iff.1 hf
    have hl' : l + 1 < rows.length := hrows.length_eq ▸ hl
    have habove := (List.forall₂_iff_get.1 hrows).2 (l + 1) hl hl'
    refine ⟨_, List.getElem?_eq_getElem hl', Layer.unread_of_formulas habove ?_⟩
    intro m hm
    obtain ⟨j, hj⟩ := List.mem_iff_getElem?.1 hm
    apply hz j m
    rw [neuron?, List.getElem?_eq_getElem hl]
    exact hj

/-- Two neurons, and above them one that reads the first only; the other is `σ (v x1 + w x2 +
b)`. -/
def firstRead (v w b : Rat) : Network where
  layers :=
    [{ inputs := 2
       neurons := [⟨[1 / 2, -1], 1 / 3⟩, ⟨[v, w], b⟩]
       neurons_ne_nil := by simp
       length_weights := by simp },
     { inputs := 2
       neurons := [⟨[-3 / 4, 0], 1 / 2⟩]
       neurons_ne_nil := by simp
       length_weights := by simp }]
  layers_ne_nil := by simp
  chained := ⟨rfl, trivial⟩

theorem term_eq_of_unread_neuron_firstRead :
    ((firstRead 2 (-1) 0).term .fractional).outcome =
      ((firstRead (1 / 5) 0 (3 / 7)).term .fractional).outcome := by
  have h : DifferOnlyAt 0 1 (firstRead 2 (-1) 0) (firstRead (1 / 5) 0 (3 / 7)) := by
    refine ⟨rfl, fun k j hkj => ?_⟩
    match k, j with
    | 0, 0 | 0, _ + 2 | 1, 0 | 1, _ + 1 | _ + 2, _ => rfl
    | 0, 1 => exact absurd rfl hkj
  refine term_eq_of_unread_neuron h (by decide) rfl rfl (by decide +kernel) (by decide +kernel)
    ?_ .fractional
  intro j m hm
  match j with
  | 0 =>
    obtain rfl := Option.some.inj hm
    rfl
  | _ + 1 => cases hm

end Network

end ManyValued
