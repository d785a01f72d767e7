import ManyValued.Formula.Cache
import ManyValued.Logic
import ManyValued.Valuation

/-! The value of a formula, computed at every place of every node or, with a table, once for each
node. -/

namespace ManyValued

variable {α μ : Type} [TruthValue α]

namespace Formula

/-- Operands before their connective, the left one first. -/
def evaluate (l : Logic α) (v : Valuation α) : Formula μ → Except Error α
  | leaf _ name => v.leaf name
  | unary _ op x => do
    let a ← x.evaluate l v
    l.unary op a
  | binary _ op x y => do
    let a ← x.evaluate l v
    let b ← y.evaluate l v
    l.binary op a b

/-- The values found so far, by the identity of the node. -/
abbrev Table (α : Type) := Std.HashMap Nat α

def evaluateWith (l : Logic α) (v : Valuation α) (x : Shared) (table : Table α) :
    Except Error (α × Table α) :=
  match table[x.mark.identity]? with
  | some a => .ok (a, table)
  | none =>
    match x with
    | leaf m name => do
      let a ← v.leaf name
      .ok (a, table.insert m.identity a)
    | unary m op x => do
      let (a, table) ← evaluateWith l v x table
      let b ← l.unary op a
      .ok (b, table.insert m.identity b)
    | binary m op x y => do
      let (a, table) ← evaluateWith l v x table
      let (b, table) ← evaluateWith l v y table
      let c ← l.binary op a b
      .ok (c, table.insert m.identity c)

def evaluateMemoized (l : Logic α) (v : Valuation α) (x : Shared) : Except Error α := do
  let (a, _) ← x.evaluateWith l v ∅
  .ok a

end Formula

end ManyValued
