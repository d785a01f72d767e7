import ManyValued.Scale
import ManyValued.TruthValue

/-! Networks of clipped linear neurons. A layer has at least one neuron and all its neurons have as
many weights; a network has at least one layer, and each layer takes what the one before it
gives. -/

namespace ManyValued

structure Neuron where
  weights : List Rat
  bias : Rat
  deriving DecidableEq

structure Layer where
  inputs : Nat
  neurons : List Neuron
  neurons_ne_nil : neurons ≠ []
  length_weights : ∀ n ∈ neurons, n.weights.length = inputs

def Layer.ofRows (rows : List (List Rat)) (biases : List Rat) : Except Error Layer :=
  match rows with
  | [] => .error (.invalidNetwork .noNeurons)
  | first :: rest =>
    if hb : (first :: rest).length ≠ biases.length then
      .error (.invalidNetwork (.rowsWithoutBiases (first :: rest).length biases.length))
    else
      match hr : (first :: rest).findIdx? (·.length ≠ first.length) with
      | some i =>
        .error (.invalidNetwork (.raggedRow i ((first :: rest).getD i []).length first.length))
      | none => .ok
        { inputs := first.length
          neurons := ((first :: rest).zip biases).map fun (weights, bias) => ⟨weights, bias⟩
          neurons_ne_nil := by
            cases biases with
            | nil => simp at hb
            | cons b bs => simp
          length_weights := by
            intro n hn
            obtain ⟨⟨weights, bias⟩, hmem, rfl⟩ := List.mem_map.1 hn
            simpa using List.findIdx?_eq_none_iff.1 hr weights (List.of_mem_zip hmem).1 }

/-- Each layer has as many inputs as the one before it has neurons. -/
def Chained : List Layer → Prop
  | [] => True
  | [_] => True
  | a :: b :: rest => b.inputs = a.neurons.length ∧ Chained (b :: rest)

structure Network where
  layers : List Layer
  layers_ne_nil : layers ≠ []
  chained : Chained layers

/-- The first two layers in a row that do not fit; `index` is the place of the first layer. -/
def misfit? (index : Nat) : List Layer → Option NetworkFault
  | [] => none
  | [_] => none
  | a :: b :: rest =>
    if b.inputs = a.neurons.length then misfit? (index + 1) (b :: rest)
    else some (.widthMismatch (index + 1) b.inputs index a.neurons.length)

theorem chained_of_misfit? {index : Nat} {layers : List Layer} (h : misfit? index layers = none) :
    Chained layers := by
  induction layers generalizing index with
  | nil => trivial
  | cons a rest ih =>
    cases rest with
    | nil => trivial
    | cons b rest =>
      simp only [misfit?] at h
      split at h
      · rename_i hab
        exact ⟨hab, ih h⟩
      · simp at h

def Network.ofLayers (layers : List Layer) : Except Error Network :=
  if hne : layers = [] then .error (.invalidNetwork .noLayers)
  else
    match hm : misfit? 0 layers with
    | some fault => .error (.invalidNetwork fault)
    | none => .ok ⟨layers, hne, chained_of_misfit? hm⟩

structure Width where
  inputs : Nat
  neurons : Nat
  deriving DecidableEq, Repr

def Layer.width (l : Layer) : Width := ⟨l.inputs, l.neurons.length⟩

namespace Network

def shape (net : Network) : List Width := net.layers.map Layer.width

def inputs (net : Network) : Nat := (net.layers.head net.layers_ne_nil).inputs

end Network

variable {α : Type} [TruthValue α]

open TruthValue

/-- The products are summed first and the bias is added last. -/
def Neuron.forward (n : Neuron) (xs : List α) : α :=
  clip (sum ((n.weights.zip xs).map fun (w, x) => ofRat w * x) + ofRat n.bias)

def Layer.forward (l : Layer) (xs : List α) : List α := l.neurons.map (·.forward xs)

def Network.forward (net : Network) (xs : List α) : Except Error (List α) :=
  if xs.length = net.inputs then .ok (net.layers.foldl (fun xs l => l.forward xs) xs)
  else .error .inputWidth

end ManyValued
