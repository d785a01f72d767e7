import ManyValued.Binary64.Decimal
import ManyValued.Evaluation
import ManyValued.Program.Report

/-! The program that evaluates one formula, under the assignments and the logic of its arguments. -/

namespace ManyValued.Program.Evaluate

inductive AssignmentFault where
  | noEquals (text : String)
  | emptyValue
  | malformedValue (text : String)
  | outside (value : Float)

def AssignmentFault.message : AssignmentFault → String
  | .noEquals text => "expected ATOM=VALUE, got `" ++ text ++ "`"
  | .emptyValue => "bad value ``: cannot parse float from empty string"
  | .malformedValue text => "bad value `" ++ text ++ "`: invalid float literal"
  | .outside value =>
    "value " ++ Binary64.render .positional value ++ " is outside [0, 1]"

/-- `ATOM=VALUE`, cut at the first `=`. -/
def readAssignment (text : String) : Except AssignmentFault (String × Float) :=
  let cs := text.toList
  match cs.dropWhile (· ≠ '=') with
  | [] => .error (.noEquals text)
  | _ :: value =>
    if value.isEmpty then .error .emptyValue
    else
      let value := String.ofList value
      match Binary64.read? value with
      | none => .error (.malformedValue value)
      | some x =>
        if 0.0 ≤ x ∧ x ≤ 1.0 then .ok (String.ofList (cs.takeWhile (· ≠ '=')), x)
        else .error (.outside x)

structure Request where
  formula : Option String := none
  assignments : List (String × Float) := []
  logic : Option (Logic Float) := none
  cached : Bool := false
  tree : Bool := false

def rules : List OptionRule :=
  [⟨"set", some 'a', true⟩, ⟨"logic", none, true⟩, ⟨"cached", none, false⟩,
    ⟨"tree", none, false⟩]

def logicOfName? (name : String) : Option (Logic Float) :=
  if name = "lukasiewicz" then some Logic.lukasiewicz
  else if name = "godel" then some Logic.godel
  else if name = "product" then some Logic.product
  else none

/-- Only assignments may be repeated. -/
def judge (r : Request) : Given → Except Refusal Request
  | .positional text => .ok { r with formula := some text }
  | .value "set" text =>
    match readAssignment text with
    | .ok assignment => .ok { r with assignments := r.assignments ++ [assignment] }
    | .error fault => .error (.because fault.message)
  | .value "logic" name =>
    match r.logic, logicOfName? name with
    | none, some logic => .ok { r with logic := some logic }
    | _, _ => .error .usage
  | .flag "cached" => if r.cached then .error .usage else .ok { r with cached := true }
  | .flag "tree" => if r.tree then .error .usage else .ok { r with tree := true }
  | .flag _ => .error .help
  | .value _ _ => .error .usage

def summary (depth : Depth) (size : Nat) : Line :=
  .text ("depth = " ++ toString depth ++ ", size = " ++ toString size)

def treeLines (levels : List (String × Depth)) : List Line :=
  levels.map fun (label, depth) =>
    .text (String.join (List.replicate depth.toNat "  ") ++ label)

def cacheLine (c : Cache) : Line :=
  .text ("cache: " ++ toString c.size ++ " distinct subformulas, " ++ toString c.hits ++
    " hits, " ++ toString c.misses ++ " misses")

def conclude (formula : String) (logic : Logic Float) (lines : List Line) :
    Except Error Float → Report
  | .error e => .failed lines e
  | .ok value =>
    .done (lines ++ [.measure (formula ++ " under " ++ logic.name ++ " = ") value .positional])

def evaluate (formula : String) (r : Request) : Report :=
  let logic := r.logic.getD Logic.lukasiewicz
  let valuation := Valuation.ofList r.assignments
  if r.cached then
    match Cache.empty.read formula 0 with
    | (.error e, _) => .failed [] e
    | (.ok (node, depth), cache) =>
      let lines := [summary depth node.size, cacheLine cache] ++
        if r.tree then treeLines node.depths.levelOrder else []
      conclude formula logic lines (node.evaluateMemoized logic valuation)
  else
    match (Formula.ofText formula 0).outcome with
    | .error e => .failed [] e
    | .ok (node, depth) =>
      let lines := summary depth node.size :: if r.tree then treeLines node.levelOrder else []
      conclude formula logic lines (node.evaluate logic valuation)

def run (args : List String) : Report :=
  match interpret rules 1 judge {} args with
  | .error refusal => .refused refusal
  | .ok r =>
    match r.formula with
    | none => .refused .usage
    | some formula => evaluate formula r

end ManyValued.Program.Evaluate
