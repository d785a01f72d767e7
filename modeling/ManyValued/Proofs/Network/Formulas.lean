import ManyValued.Proofs.Composition
import ManyValued.Proofs.Interchange
import ManyValued.Proofs.Synthesis.Strategy

/-! The term of a network without its texts. A neuron has a formula or a scale that does not fit,
and nothing else can go wrong with it: the formulas of a network always fit on one another, so
composing their texts succeeds up to the number of outputs. Hence `Network.outcome_term`: the term
of a network is the text of its formulas, stacked. -/

namespace ManyValued

open Formula

theorem Term.names_formula {t : Term} {a : String} (h : a ∈ t.formula.names) :
    isConstant a = true ∨ ∃ i ∈ t.inputs, a = inputName i := by
  induction t with
  | falsum => exact .inl (by rw [List.mem_singleton.1 h]; rfl)
  | verum => exact .inl (by rw [List.mem_singleton.1 h]; rfl)
  | input i => exact .inr ⟨i, List.mem_singleton_self i, List.mem_singleton.1 h⟩
  | neg t ih => exact ih h
  | delta k t ih => exact ih h
  | conj s t ihs iht | disj s t ihs iht =>
    rcases List.mem_append.1 h with h | h
    · exact (ihs h).imp_right fun ⟨i, hi, ha⟩ => ⟨i, List.mem_append_left _ hi, ha⟩
    · exact (iht h).imp_right fun ⟨i, hi, ha⟩ => ⟨i, List.mem_append_right _ hi, ha⟩

/-- A formula over the inputs of a neuron that computes its output. -/
structure Neuron.Expressed (n : Neuron) (x : Formula Unit) : Prop where
  wellFormed : x.WellFormed
  names : ∀ a ∈ x.names, isConstant a = true ∨ ∃ i < n.weights.length, a = inputName i
  value : ∀ xs : List Rat, xs.length = n.weights.length → InUnitCube xs →
    x.evaluate Logic.lukasiewicz (Valuation.ofInputs xs) = .ok (n.forward xs)

def Layer.Expressed (l : Layer) (row : List (Formula Unit)) : Prop :=
  List.Forall₂ Neuron.Expressed l.neurons row

/-- The common denominator of a neuron, which must fit a scale. -/
def Neuron.denominator (n : Neuron) : Nat := commonDenominator (n.weights ++ [n.bias])

def Neuron.formula (strategy : Strategy) (n : Neuron) : Except Error (Formula Unit) := do
  let t ← (synthesize strategy n.weights n.bias).outcome
  .ok t.formula

def Layer.formulas (strategy : Strategy) (l : Layer) : Except Error (List (Formula Unit)) :=
  l.neurons.mapM (Neuron.formula strategy)

def Network.formulas (strategy : Strategy) (net : Network) :
    Except Error (List (List (Formula Unit))) :=
  net.layers.mapM (Layer.formulas strategy)

/-- The common denominator of the first neuron, layer by layer, whose denominator does not fit. -/
def Network.overflow? (net : Network) : Option Nat :=
  ((net.layers.flatMap (·.neurons)).find? fun n => UInt32.size ≤ n.denominator).map
    Neuron.denominator

def stack : List (List (Formula Unit)) → List (Formula Unit)
  | [] => []
  | row :: rows => stacked row rows

def inputRow (k : Nat) : List (Formula Unit) := (List.range k).map fun i => leaf () (inputName i)

section Stack

variable {rows : List (List (Formula Unit))}

theorem plug_inputRow (k : Nat) (x : Formula Unit) : x.plug (inputRow k) = x := by
  induction x with
  | leaf u a =>
    rcases name_or_ne inputName (inputRow k) a with ⟨i, hi, rfl⟩ | ha
    · have h : (leaf () (inputName i)).plug (inputRow k) = (inputRow k)[i] := plug_input hi
      simpa [inputRow] using h
    · exact plug_other ha
  | unary u op x ih => exact congrArg (unary () op) ih
  | binary u op x y ihx ihy => exact congrArg₂ (binary () op) ihx ihy

theorem stacked_inputRow (k : Nat) (hne : rows ≠ []) : stacked (inputRow k) rows = stack rows := by
  obtain ⟨row, rest, rfl⟩ := List.exists_cons_of_ne_nil hne
  rw [stack, stacked_cons, List.map_congr_left fun x _ => plug_inputRow k x, List.map_id']

theorem stack_eq_stacked (rows : List (List (Formula Unit))) : stack rows = stacked [] rows := by
  cases rows with
  | nil => rfl
  | cons row rows => exact (stacked_inputRow 0 (List.cons_ne_nil row rows)).symm

end Stack

section Neuron

variable {n : Neuron} {strategy : Strategy} {x : Formula Unit}

theorem forward_eq (n : Neuron) (xs : List Rat) :
    n.forward xs = min (max ((List.zipWith (· * ·) n.weights xs).sum + n.bias) 0) 1 := by
  have hs (ys : List Rat) : TruthValue.sum ys = ys.sum := List.sum_eq_foldl.symm
  rw [Neuron.forward, clip_eq_clipped, hs, ← List.map_uncurry_zip_eq_zipWith]
  rfl

theorem Neuron.formula_eq_error (h : UInt32.size ≤ n.denominator) (strategy : Strategy) :
    n.formula strategy = .error (.scaleOverflow n.denominator) := by
  rw [formula, synthesize_eq_error h, error_bind]
  rfl

theorem Neuron.exists_formula (h : n.denominator < UInt32.size) (strategy : Strategy) :
    ∃ x, n.formula strategy = .ok x := by
  obtain ⟨t, ht, -⟩ := exists_synthesize h strategy
  exact ⟨t.formula, by rw [formula, ht, ok_bind]⟩

/-- A scale that does not fit is all that can go wrong with a neuron. -/
theorem Neuron.failure?_formula (strategy : Strategy) (n : Neuron) :
    failure? (n.formula strategy) =
      (Option.guard (fun n => UInt32.size ≤ n.denominator) n).map fun n =>
        .scaleOverflow n.denominator := by
  by_cases h : UInt32.size ≤ n.denominator
  · rw [formula_eq_error h, Option.guard, if_pos (decide_eq_true h)]
    rfl
  · rw [failure?_eq_none_iff.2 (exists_formula (Nat.not_le.1 h) strategy), Option.guard,
      if_neg (by simpa using h), Option.map_none]

/-- The formula of a neuron reads only inputs whose weight is not 0. -/
theorem Neuron.weighted_of_formula (h : n.formula strategy = .ok x) {a : String}
    (ha : a ∈ x.names) : isConstant a = true ∨ ∃ i, Weighted n.weights i ∧ a = inputName i := by
  obtain ⟨t, ht, h⟩ := bind_eq_ok_iff.1 h
  obtain rfl := Except.ok.inj h
  refine (Term.names_formula ha).imp_right ?_
  rintro ⟨i, hi, rfl⟩
  exact ⟨i, weighted_of_synthesize ht hi, rfl⟩

theorem Neuron.expressed_of_formula (h : n.formula strategy = .ok x) : n.Expressed x := by
  have hs : n.denominator < UInt32.size := by
    by_contra hn
    rw [formula_eq_error (Nat.not_lt.1 hn)] at h
    cases h
  obtain ⟨t, ht, hv⟩ := exists_synthesize hs strategy
  have hx : t.formula = x := by
    rw [formula, ht, ok_bind] at h
    exact Except.ok.inj h
  refine ⟨hx ▸ t.wellFormed_formula, ?_, ?_⟩
  · intro a ha
    refine (weighted_of_formula h ha).imp_right ?_
    rintro ⟨i, ⟨w, hw, -⟩, rfl⟩
    exact ⟨i, (List.getElem?_eq_some_iff.1 hw).1, rfl⟩
  · intro xs hlen hcube
    rw [← hx, hv xs hlen hcube, forward_eq]

theorem Neuron.Expressed.slotName_notMem (h : n.Expressed x) (i : Nat) :
    slotName i ∉ x.names := by
  intro hi
  rcases h.names _ hi with hc | ⟨j, -, hj⟩
  · exact constant_ne hc isAtom_slotName i rfl
  · exact inputName_ne_slotName j i hj.symm

end Neuron

section Layers

variable {l : Layer} {layers : List Layer} {row : List (Formula Unit)}
  {rows : List (List (Formula Unit))} {net : Network} {strategy : Strategy}

theorem Layer.expressed_of_formulas (h : l.formulas strategy = .ok row) : l.Expressed row :=
  (mapM_eq_ok_iff.1 h).imp fun _ _ => Neuron.expressed_of_formula

theorem Network.expressed_of_formulas (h : net.formulas strategy = .ok rows) :
    List.Forall₂ Layer.Expressed net.layers rows :=
  (mapM_eq_ok_iff.1 h).imp fun _ _ => Layer.expressed_of_formulas

theorem stackable_of_chained (hc : Chained (l :: layers)) (hl : row.length = l.neurons.length)
    (h : List.Forall₂ Layer.Expressed layers rows) :
    Stackable row.length ((layers.map Layer.width).zip rows) := by
  induction h generalizing l row with
  | nil => trivial
  | @cons b rowb layers rows hb _ ih =>
    obtain ⟨hin, hc⟩ := hc
    have hlen : rowb.length = b.neurons.length := hb.length_eq.symm
    refine ⟨hin.trans hl.symm, hlen, ?_, ih hc hlen⟩
    intro x hx
    obtain ⟨n, -, hn⟩ := exists_of_forall₂ hb x hx
    exact ⟨hn.wellFormed, fun i _ => hn.slotName_notMem i⟩

theorem Layer.Expressed.length_plug (h : l.Expressed row) (below : List (Formula Unit)) :
    (row.map (plug below)).length = l.neurons.length := by
  rw [List.length_map]
  exact h.length_eq.symm

theorem length_stacked {below : List (Formula Unit)} (hl : below.length = l.neurons.length)
    (h : List.Forall₂ Layer.Expressed layers rows) :
    (stacked below rows).length =
      ((l :: layers).getLast (List.cons_ne_nil l layers)).neurons.length := by
  induction h generalizing l below with
  | nil => exact hl
  | @cons b rowb layers rows hr _ ih =>
    rw [List.getLast_cons (List.cons_ne_nil b layers), ← ih (hr.length_plug below)]
    rfl

theorem Layer.failure?_formulas (strategy : Strategy) (l : Layer) :
    failure? (l.formulas strategy) =
      (l.neurons.find? fun n => UInt32.size ≤ n.denominator).map fun n =>
        .scaleOverflow n.denominator := by
  rw [formulas, failure?_mapM, List.find?_eq_findSome?_guard, List.map_findSome?]
  congr 1
  funext n
  exact n.failure?_formula strategy

theorem Network.failure?_formulas (strategy : Strategy) (net : Network) :
    failure? (net.formulas strategy) = net.overflow?.map .scaleOverflow := by
  rw [formulas, failure?_mapM, overflow?, Option.map_map, List.find?_flatMap, List.map_findSome?]
  congr 1
  funext l
  exact l.failure?_formulas strategy

theorem Network.overflow?_eq_none_iff :
    net.overflow? = none ↔ ∀ l ∈ net.layers, ∀ n ∈ l.neurons, n.denominator < UInt32.size := by
  simp only [overflow?, Option.map_eq_none_iff, List.find?_flatMap_eq_none_iff,
    Bool.not_eq_true', decide_eq_false_iff_not, Nat.not_le]

theorem Network.exists_formulas (h : net.overflow? = none) (strategy : Strategy) :
    ∃ rows, net.formulas strategy = .ok rows := by
  rw [← failure?_eq_none_iff, failure?_formulas, h, Option.map_none]

theorem outcome_layerTerms (strategy : Strategy) (index : Nat) (l : Layer) :
    (Network.layerTerms strategy index l).outcome =
      l.formulas strategy >>= fun row => .ok (row.map render) := by
  rw [Network.layerTerms, Attempt.outcome_mapM]
  apply mapM_zipIdx
  intro n i
  rw [Attempt.outcome_bind, Neuron.formula]
  cases (synthesize strategy n.weights n.bias).outcome with
  | error e => rfl
  | ok t =>
    simp only [ok_bind, Attempt.outcome_bind, Attempt.outcome_lift, Attempt.outcome_pure,
      t.render_formula]

theorem outcome_terms (strategy : Strategy) (net : Network) :
    (net.terms strategy).outcome =
      net.formulas strategy >>= fun rows => .ok (rows.map fun row => row.map render) := by
  rw [Network.terms, Attempt.outcome_mapM]
  exact mapM_zipIdx (fun l index => outcome_layerTerms strategy index l) net.layers

theorem Network.outcome_term (strategy : Strategy) (net : Network) :
    (net.term strategy).outcome =
      net.formulas strategy >>= fun rows => outputText (stack rows) := by
  rw [term, Attempt.outcome_bind, outcome_terms]
  cases hf : net.formulas strategy with
  | error e => rfl
  | ok rows =>
    have hrows := expressed_of_formulas hf
    obtain ⟨layers, hne, hc⟩ := net
    cases hrows with
    | nil => exact absurd rfl hne
    | @cons l row layers rows hrow hrows =>
      -- The lowest layer is not composed with anything; the checks are about those above it.
      have hlen : row.length = l.neurons.length := hrow.length_eq.symm
      have hrow' : row.length = l.width.neurons := hlen
      have hshape : (layers.map Layer.width).length = rows.length := by
        rw [List.length_map]
        exact hrows.length_eq
      exact outcome_compose hrow' hshape (stackable_of_chained hc hlen hrows)

end Layers

end ManyValued
