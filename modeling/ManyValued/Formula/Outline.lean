import ManyValued.Formula.Basic
import ManyValued.Journal

/-! Reading formulas. An outline is a text cut into layers all the way down; where a layer cannot be
cut it records the fault. `Outline.build` turns an outline into a formula whose nodes are marked
with their depths, and stops at the first fault or unknown token, counted in preorder. -/

namespace ManyValued

inductive Outline where
  | fault (text : String) (error : Error)
  | leaf (text token : String)
  | unary (text : String) (op : Unary) (operand : Outline)
  | binary (text : String) (op : Binary) (left right : Outline)
  deriving DecidableEq

namespace Outline

def text : Outline → String
  | fault t _ => t
  | leaf t _ => t
  | unary t _ _ => t
  | binary t _ _ _ => t

def ofText (formula : String) : Outline :=
  match h : Split.ofText formula with
  | .error e => fault formula e
  | .ok (.leaf token) => leaf formula token
  | .ok (.unary op operand) =>
    have := operand_length_lt h (x := operand) (by simp [Split.operands])
    unary formula op (ofText operand)
  | .ok (.binary op left right) =>
    have := operand_length_lt h (x := left) (by simp [Split.operands])
    have := operand_length_lt h (x := right) (by simp [Split.operands])
    binary formula op (ofText left) (ofText right)
termination_by formula.length

theorem ofText_eq (formula : String) :
    ofText formula = match Split.ofText formula with
      | .error e => fault formula e
      | .ok (.leaf token) => leaf formula token
      | .ok (.unary op operand) => unary formula op (ofText operand)
      | .ok (.binary op left right) => binary formula op (ofText left) (ofText right) := by
  rw [ofText]
  split <;> simp [*]

@[simp] theorem text_ofText (formula : String) : (ofText formula).text = formula := by
  rw [ofText]
  split <;> rfl

def readLeaf {μ : Type} (formula token : String) (mark : μ) : Except Error (Formula μ) :=
  if isAtom token || isConstant token then .ok (.leaf mark token)
  else .error (.invalidFormula formula (.unknownToken token))

/-- The formula whose root is at `depth`, and the greatest depth of a leaf in it. -/
def build (depth : Depth) : Outline → Attempt (Formula Depth × Depth)
  | fault _ e => throw e
  | leaf text token => do
    Logged.note (.split depth (.leaf token))
    let node ← Attempt.ofExcept (readLeaf text token depth)
    return (node, depth)
  | unary _ op operand => do
    Logged.note (.split depth (.unary op operand.text))
    let (x, deepest) ← operand.build (depth + 1)
    return (.unary depth op x, deepest)
  | binary _ op left right => do
    Logged.note (.split depth (.binary op left.text right.text))
    let (x, deepestLeft) ← left.build (depth + 1)
    let (y, deepestRight) ← right.build (depth + 1)
    return (.binary depth op x y, max deepestLeft deepestRight)

end Outline

namespace Formula

def ofText (formula : String) (depth : Depth) : Attempt (Formula Depth × Depth) :=
  (Outline.ofText formula).build depth

def parse (formula : String) : Attempt (Formula Depth) := do
  let (node, _) ← ofText formula 0
  return node

end Formula

end ManyValued
