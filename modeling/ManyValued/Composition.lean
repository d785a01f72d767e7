import ManyValued.Network
import ManyValued.Substitution
import ManyValued.Synthesis.Strategy

/-! The term of a network. Each neuron has a term over the outputs of the layer before its own; the
composition puts the terms of each layer into those of the next, all at once, until only the inputs
of the network are left. -/

namespace ManyValued

abbrev TermTable := List (List String)

def invalid {β : Type} (fault : NetworkFault) : Attempt β := throw (.invalidNetwork fault)

def openSlots (inputs : Nat) : Replacements :=
  Replacements.ofList ((List.range inputs).map fun i => (inputName i, slotName i))

def fillSlots (below : List String) : Replacements :=
  Replacements.ofList (below.zipIdx.map fun (term, i) => (slotName i, term))

/-- Puts the terms of the layer below for the inputs. The slots in between keep an inserted term
from being changed again. -/
def plugInto (inputs : Nat) (below : List String) (term : String) : String :=
  substitute (fillSlots below) (substitute (openSlots inputs) term)

/-- The first layer whose terms and neurons differ in number, from layer `index` on. -/
def miscount? (index : Nat) : List (Width × List String) → Option NetworkFault
  | [] => none
  | (width, terms) :: rest =>
    if terms.length = width.neurons then miscount? (index + 1) rest
    else some (.termCount index terms.length width.neurons)

/-- Puts the terms `below` layer `index` into it, and so on upwards, to the last layer. -/
def composeLayers (index : Nat) (below : List String) :
    List (Width × List String) → Attempt (List String)
  | [] => return below
  | (width, terms) :: rest =>
    if width.inputs = below.length then do
      let composed := terms.map (plugInto width.inputs below)
      Logged.note (.composed index (composed.map String.utf8ByteSize))
      composeLayers (index + 1) composed rest
    else invalid (.inputCount index width.inputs below.length)

def pairLayers (shape : List Width) (terms : TermTable) :
    Except NetworkFault (List (Width × List String)) :=
  if shape = [] then .error .noLayers
  else if terms.length = shape.length then
    match miscount? 0 (shape.zip terms) with
    | some fault => .error fault
    | none => .ok (shape.zip terms)
  else .error (.layerCount terms.length shape.length)

def compose (shape : List Width) (terms : TermTable) : Attempt String :=
  match pairLayers shape terms with
  | .error fault => invalid fault
  | .ok [] => invalid .noLayers
  | .ok ((_, first) :: rest) => do
    let outputs ← composeLayers 1 first rest
    match outputs with
    | [term] =>
      Logged.note (.networkTerm term.length)
      return term
    | _ => invalid (.outputCount outputs.length)

namespace Network

def layerTerms (strategy : Strategy) (index : Nat) (layer : Layer) : Attempt (List String) :=
  layer.neurons.zipIdx.mapM fun (n, i) => do
    let term ← synthesize strategy n.weights n.bias
    Logged.note (.neuron index (i + 1) term.size)
    return term.render

def terms (net : Network) (strategy : Strategy) : Attempt TermTable :=
  net.layers.zipIdx.mapM fun (layer, index) => layerTerms strategy index layer

def term (net : Network) (strategy : Strategy) : Attempt String := do
  let terms ← net.terms strategy
  compose net.shape terms

end Network

end ManyValued
