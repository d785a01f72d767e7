import ManyValued.Proofs.Network.Formulas
import ManyValued.Proofs.Synthesis.Integral

/-! Networks with integer coefficients. Both strategies build the same term for each neuron, so the
formulas of the layers agree, and with them what is composed of their texts. -/

namespace ManyValued

def Neuron.Integral (n : Neuron) : Prop := ∀ q ∈ n.bias :: n.weights, q.den = 1

instance (n : Neuron) : Decidable n.Integral :=
  inferInstanceAs (Decidable (∀ q ∈ n.bias :: n.weights, q.den = 1))

def Network.Integral (net : Network) : Prop := ∀ l ∈ net.layers, ∀ n ∈ l.neurons, n.Integral

instance (net : Network) : Decidable net.Integral :=
  inferInstanceAs (Decidable (∀ l ∈ net.layers, ∀ n ∈ l.neurons, n.Integral))

theorem Neuron.Integral.formula_eq {n : Neuron} (h : n.Integral) (strategy : Strategy) :
    n.formula strategy = n.formula .scaled := by
  obtain ⟨hbias, hweights⟩ := List.forall_mem_cons.1 h
  obtain ⟨weights, hw⟩ := exists_rationals hweights
  have hb : n.bias = (n.bias.num : Rat) := (Rat.coe_int_num_of_den_eq_one hbias).symm
  rw [formula, formula, hw, hb, synthesize_rationals, synthesize_rationals]

theorem Network.Integral.formulas_eq {net : Network} (h : net.Integral) (strategy : Strategy) :
    net.formulas strategy = net.formulas .scaled :=
  mapM_congr fun l hl => mapM_congr fun n hn => (h l hl n hn).formula_eq strategy

/-- Integer coefficients, seen as rationals, get the integer term from the fractional recursion,
with any scale, and from the shifted sums with scale 1. So the strategies agree on every network
whose coefficients are integers. -/
theorem strategies_coincide_on_integers :
    (∀ (scale : UInt32) (weights : List Int) (bias : Int),
      (Fractional.synthesize scale (rationals weights) bias).outcome =
          .ok (Integer.synthesize weights bias).value ∧
        (Scaled.synthesize 1 (rationals weights) bias).outcome =
          .ok (Integer.synthesize weights bias).value) ∧
    ∀ net : Network, net.Integral →
      (net.term .fractional).outcome = (net.term .scaled).outcome := by
  constructor
  · intro scale weights bias
    exact ⟨Fractional.outcome_rationals scale weights bias,
      Scaled.outcome_synthesize_one weights bias⟩
  · intro net hnet
    rw [Network.outcome_term, Network.outcome_term, hnet.formulas_eq]

/-- Computes `σ (σ (2 x1 - x2 + 1) - 2 σ (2 - 3 x1))`. -/
def integerLayers : Network where
  layers :=
    [{ inputs := 2
       neurons := [⟨[2, -1], 1⟩, ⟨[-3, 0], 2⟩]
       neurons_ne_nil := by simp
       length_weights := by simp },
     { inputs := 2
       neurons := [⟨[1, -2], 0⟩]
       neurons_ne_nil := by simp
       length_weights := by simp }]
  layers_ne_nil := by simp
  chained := ⟨rfl, trivial⟩

theorem strategies_coincide_on_integers_twoLayers :
    integerLayers.Integral ∧
      (integerLayers.term .fractional).outcome = (integerLayers.term .scaled).outcome ∧
      (Fractional.synthesize 0 [2, -1] 1).outcome = (Scaled.synthesize 1 [2, -1] 1).outcome := by
  have hint : integerLayers.Integral := by decide +kernel
  obtain ⟨hterm, hnet⟩ := strategies_coincide_on_integers
  obtain ⟨hfractional, hscaled⟩ := hterm 0 [2, -1] 1
  exact ⟨hint, hnet integerLayers hint, hfractional.trans hscaled.symm⟩

end ManyValued
