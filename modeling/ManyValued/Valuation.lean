import ManyValued.Error
import ManyValued.Formula.Token
import ManyValued.TruthValue
import Std.Data.HashMap

/-! Valuations bind names to truth values. A name is bound to the value that it was given last. -/

namespace ManyValued

structure Valuation (α : Type) where
  entries : Std.HashMap String α := ∅

namespace Valuation

variable {α : Type}

def empty : Valuation α := {}

def get? (v : Valuation α) (name : String) : Option α := v.entries[name]?

def insert (v : Valuation α) (name : String) (x : α) : Valuation α :=
  ⟨v.entries.insert name x⟩

def size (v : Valuation α) : Nat := v.entries.size

def ofList (pairs : List (String × α)) : Valuation α :=
  pairs.foldl (fun v (name, x) => v.insert name x) empty

def ofInputs (inputs : List α) : Valuation α :=
  ofList (inputs.zipIdx.map fun (x, i) => (inputName i, x))

/-- The value of a leaf. The constants have their own values where nothing else is bound to
them. -/
def leaf [TruthValue α] (v : Valuation α) (name : String) : Except Error α :=
  match v.get? name with
  | some x => .ok x
  | none =>
    if name = "0" then .ok TruthValue.zero
    else if name = "1" then .ok TruthValue.one
    else .error (.unboundAtom name)

theorem get?_insert (v : Valuation α) (name other : String) (x : α) :
    (v.insert name x).get? other = if name = other then some x else v.get? other := by
  simp only [get?, insert, Std.HashMap.getElem?_insert, beq_iff_eq]

end Valuation

end ManyValued
