import ManyValued.Composition
import ManyValued.Evaluation
import ManyValued.Program.Report

/-! The program that builds the term of an example network and compares the two on a grid. The
network computes `σ (x1 + x2 - 2 σ (x1 + x2 - 1))`, from a halved copy of `x1 + x2`, and may be made
deeper by layers that change nothing. -/

namespace ManyValued.Program.Compare

structure Request where
  strategy : Option Strategy := none
  hidden : Option Nat := none
  steps : Option Nat := none
  verbose : Bool := false

def rules : List OptionRule :=
  [⟨"strategy", none, true⟩, ⟨"hidden", none, true⟩, ⟨"steps", none, true⟩,
    ⟨"verbose", none, false⟩]

def strategyOfName? (name : String) : Option Strategy :=
  if name = "scaled" then some .scaled
  else if name = "from-paper" then some .fractional
  else none

/-- A count that fits a machine word; it may have a plus sign. -/
def readCount? (text : String) : Option Nat :=
  let digits := match text.toList with
    | '+' :: rest => rest
    | cs => cs
  if digits.isEmpty ∨ ¬ digits.all Char.isDigit then none
  else
    let n := Nat.ofDigitChars 10 digits 0
    if n < UInt64.size then some n else none

def judge (r : Request) : Given → Except Refusal Request
  | .value "strategy" name =>
    match r.strategy, strategyOfName? name with
    | none, some strategy => .ok { r with strategy := some strategy }
    | _, _ => .error .usage
  | .value "hidden" text =>
    match r.hidden, readCount? text with
    | none, some n => .ok { r with hidden := some n }
    | _, _ => .error .usage
  | .value "steps" text =>
    match r.steps, readCount? text with
    | none, some n => .ok { r with steps := some n }
    | _, _ => .error .usage
  | .flag "verbose" => if r.verbose then .error .usage else .ok { r with verbose := true }
  | .flag _ => .error .help
  | .value _ _ => .error .usage
  | .positional _ => .error .usage

def first : Except Error Layer := Layer.ofRows [[1 / 2, 1 / 2], [1, 1]] [0, -1]

def identity : Except Error Layer := Layer.ofRows [[1, 0], [0, 1]] [0, 0]

def last : Except Error Layer := Layer.ofRows [[2, -2]] [0]

/-- The example network with `hidden` layers before the last, at least one. -/
def network (hidden : Nat) : Except Error Network := do
  let first ← first
  let identity ← identity
  let last ← last
  Network.ofLayers (first :: List.replicate (hidden - 1) identity ++ [last])

def neuronLines (terms : TermTable) : List Line :=
  terms.zipIdx.flatMap fun (layer, index) =>
    layer.zipIdx.map fun (term, i) =>
      .text ("layer " ++ toString index ++ " neuron " ++ toString (i + 1) ++ ": " ++ term)

def longestPrinted : Nat := 400

def termLines (term : String) : List Line :=
  .text ("term of " ++ toString term.length ++ " characters") ::
    if term.length ≤ longestPrinted then [.text ("term = " ++ term)] else []

def grid (steps : Nat) : List (List Float) :=
  (List.range (steps + 1)).flatMap fun i =>
    (List.range (steps + 1)).map fun j =>
      [i.toFloat / steps.toFloat, j.toFloat / steps.toFloat]

def distance (net : Network) (node : Shared) (point : List Float) : Except Error Float := do
  let outputs ← net.forward point
  let value ← node.evaluateMemoized Logic.lukasiewicz (Valuation.ofInputs point)
  return (value - outputs.headD 0.0).abs

def greatestDistance (net : Network) (node : Shared) (points : List (List Float)) :
    Except Error Float :=
  points.foldlM (fun most point => return TruthValue.join most (← distance net node point)) 0.0

def compare (r : Request) : Report :=
  match network (r.hidden.getD 1) with
  | .error e => .failed [] e
  | .ok net =>
    match (net.terms (r.strategy.getD .scaled)).outcome with
    | .error e => .failed [] e
    | .ok terms =>
      let lines := if r.verbose then neuronLines terms else []
      match (compose net.shape terms).outcome with
      | .error e => .failed lines e
      | .ok term =>
        let lines := lines ++ termLines term
        match Cache.empty.read term 0 with
        | (.error e, _) => .failed lines e
        | (.ok (node, depth), cache) =>
          let lines := lines ++ [.text ("AST: depth " ++ toString depth ++ ", " ++
            toString node.size ++ " nodes as a tree, " ++ toString cache.size ++
            " distinct subformulas")]
          match greatestDistance net node (grid (max (r.steps.getD 10) 1)) with
          | .error e => .failed lines e
          | .ok most =>
            .done (lines ++ [.measure "max |term - network| over the grid = " most .scientific])

def run (args : List String) : Report :=
  match interpret rules 0 judge {} args with
  | .error refusal => .refused refusal
  | .ok r => compare r

end ManyValued.Program.Compare
