import ManyValued.Proofs.Network.Formulas

/-! What can go wrong with the term of a network. The checks on layers and networks are all that the
synthesis and the composition rely on: no weight fails to clear, no layer is composed with one that
does not fit it. The only place that a synthesis looks up is that of a positive weight, and
`lt_length_of_firstPositive?` puts it inside the list. What is left are two faults, and the one of a
scale comes first, because all formulas are built before any are composed. -/

namespace ManyValued

open Formula

def Network.outputs (net : Network) : Nat := (net.layers.getLast net.layers_ne_nil).neurons.length

/-- The last layer keeps its formulas when the others are put into it. -/
theorem Network.length_stack {net : Network} {strategy : Strategy}
    {rows : List (List (Formula Unit))} (h : net.formulas strategy = .ok rows) :
    (stack rows).length = net.outputs := by
  have hrows := expressed_of_formulas h
  obtain ⟨layers, hne, hc⟩ := net
  cases hrows with
  | nil => exact absurd rfl hne
  | cons hrow hrows => exact length_stacked hrow.length_eq.symm hrows

theorem exists_outputText (row : List (Formula Unit)) :
    ∃ t, outputText row =
      if row.length = 1 then .ok t else .error (.invalidNetwork (.outputCount row.length)) := by
  match row with
  | [] => exact ⟨"", rfl⟩
  | [x] => exact ⟨x.render, rfl⟩
  | x :: y :: rest => exact ⟨"", by rw [if_neg (by simp)]; rfl⟩

/-- A network has a term unless a scale does not fit or there is not one output. The first neuron
whose common denominator is too large is reported, whatever the number of outputs. -/
theorem Network.term_fails_only_by_scale_or_outputs (net : Network) (strategy : Strategy) :
    ∃ t, (net.term strategy).outcome =
      match net.overflow? with
      | some m => .error (.scaleOverflow m)
      | none =>
        if net.outputs = 1 then .ok t
        else .error (.invalidNetwork (.outputCount net.outputs)) := by
  have hfailure := net.failure?_formulas strategy
  rw [outcome_term]
  cases ho : net.overflow? with
  | some m =>
    rw [ho, Option.map_some, failure?_eq_some_iff] at hfailure
    exact ⟨"", by rw [hfailure, error_bind]⟩
  | none =>
    obtain ⟨rows, hrows⟩ := net.exists_formulas ho strategy
    obtain ⟨t, ht⟩ := exists_outputText (stack rows)
    rw [length_stack hrows] at ht
    exact ⟨t, by rw [hrows, ok_bind, ht]⟩

end ManyValued
