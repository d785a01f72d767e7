import ManyValued.Connective

/-! Formulas as trees. Every node carries a mark: a depth in a formula that was read, a depth and an
identity in one whose repeated subformulas are shared. Two formulas have the same shape when they
differ in their marks only. -/

namespace ManyValued

/-- Depths are counted in a machine word. Below the deepest one the count begins again at 0. -/
abbrev Depth := UInt64

inductive Formula (μ : Type) where
  | leaf (mark : μ) (name : String)
  | unary (mark : μ) (op : Unary) (operand : Formula μ)
  | binary (mark : μ) (op : Binary) (left right : Formula μ)
  deriving DecidableEq, Repr

namespace Formula

variable {μ ν : Type}

def mark : Formula μ → μ
  | leaf m _ => m
  | unary m _ _ => m
  | binary m _ _ _ => m

def map (f : μ → ν) : Formula μ → Formula ν
  | leaf m name => leaf (f m) name
  | unary m op x => unary (f m) op (x.map f)
  | binary m op x y => binary (f m) op (x.map f) (y.map f)

def isLeaf : Formula μ → Bool
  | leaf _ _ => true
  | _ => false

def label : Formula μ → String
  | leaf _ name => name
  | unary _ op _ => op.symbol
  | binary _ op _ _ => op.symbol

def left? : Formula μ → Option (Formula μ)
  | leaf _ _ => none
  | unary _ _ x => some x
  | binary _ _ x _ => some x

def right? : Formula μ → Option (Formula μ)
  | binary _ _ _ y => some y
  | _ => none

/-- The number of nodes, a shared one counted at each of its places. -/
def size : Formula μ → Nat
  | leaf _ _ => 1
  | unary _ _ x => 1 + x.size
  | binary _ _ x y => 1 + x.size + y.size

def shape (x : Formula μ) : Formula Unit := x.map fun _ => ()

/-- Equal labels at equal places. -/
def SameShape (x : Formula μ) (y : Formula ν) : Prop := x.shape = y.shape

instance (x : Formula μ) (y : Formula ν) : Decidable (x.SameShape y) :=
  inferInstanceAs (Decidable (x.shape = y.shape))

/-- The text of a formula. A blank keeps the operand of `δ_k` apart from the digits of `k`. -/
def render : Formula μ → String
  | leaf _ name => name
  | unary _ .neg x => "(" ++ Unary.neg.symbol ++ x.render ++ ")"
  | unary _ (.delta scale) x => "(" ++ (Unary.delta scale).symbol ++ " " ++ x.render ++ ")"
  | binary _ op x y => "(" ++ x.render ++ op.symbol ++ y.render ++ ")"

def children : Formula μ → List (Formula μ)
  | leaf _ _ => []
  | unary _ _ x => [x]
  | binary _ _ x y => [x, y]

def totalSize : List (Formula μ) → Nat
  | [] => 0
  | x :: xs => x.size + totalSize xs

theorem totalSize_append (xs ys : List (Formula μ)) :
    totalSize (xs ++ ys) = totalSize xs + totalSize ys := by
  induction xs with
  | nil => simp [totalSize]
  | cons x xs ih => simp [totalSize, ih, Nat.add_assoc]

theorem totalSize_reverse (xs : List (Formula μ)) : totalSize xs.reverse = totalSize xs := by
  induction xs with
  | nil => rfl
  | cons x xs ih => simp [totalSize, totalSize_append, ih, Nat.add_comm]

theorem size_eq_children (x : Formula μ) : x.size = 1 + totalSize x.children := by
  cases x <;> simp [size, children, totalSize, Nat.add_assoc]

/-- Visits the nodes of `front`, then those of `back` from its end, and after them their children:
the two lists make up one queue. -/
def visit : (front back : List (Formula μ)) → List (String × μ)
  | [], [] => []
  | [], y :: ys => visit (y :: ys).reverse []
  | x :: xs, back => (x.label, x.mark) :: visit xs (x.children.reverse ++ back)
termination_by front back => 3 * (totalSize front + totalSize back) + back.length
decreasing_by
  · simp only [totalSize_reverse, totalSize, List.length_cons, List.length_nil]
    omega
  · have h2 : x.children.length ≤ 2 := by cases x <;> simp [children]
    have h3 := size_eq_children x
    simp only [totalSize_append, totalSize_reverse, totalSize, List.length_append,
      List.length_reverse]
    omega

/-- Label and mark of every node, level by level, each level from left to right. -/
def levelOrder (x : Formula μ) : List (String × μ) := visit [x] []

end Formula

end ManyValued
