import ManyValued.Error
import ManyValued.Formula.Basic

/-! Random formulas. A source hands out indices below a bound; one kind of source makes them from
32-bit words. A formula takes one index for its shape and one for each atom. -/

namespace ManyValued

inductive Shape where
  | atom
  | unary (op : Unary)
  | binary (op : Binary)
  deriving DecidableEq, Repr

def Shape.lukasiewicz : List Shape :=
  [.unary .neg, .binary .conj, .binary .disj, .binary .implies]

structure IndexSource (σ : Type) where
  below : (n : Nat) → 0 < n → σ → Fin n × σ

def pick {σ β : Type} (source : IndexSource σ) (xs : List β) (h : xs ≠ []) (s : σ) : β × σ :=
  let (i, s) := source.below xs.length (List.length_pos_iff.2 h) s
  (xs[i], s)

/-- A formula of depth at most `depth`. Where no depth or no shape is left, it is an atom. -/
def randomFormulaFrom {σ : Type} (source : IndexSource σ) (atoms : List String) (h : atoms ≠ [])
    (shapes : List Shape) : (depth : Nat) → σ → String × σ
  | 0, s => pick source atoms h s
  | depth + 1, s =>
    if hs : shapes = [] then pick source atoms h s
    else
      match pick source shapes hs s with
      | (.atom, s) => pick source atoms h s
      | (.unary op, s) =>
        let (x, s) := randomFormulaFrom source atoms h shapes depth s
        let gap := if op = .neg then "" else " "
        ("(" ++ op.symbol ++ gap ++ x ++ ")", s)
      | (.binary op, s) =>
        let (x, s) := randomFormulaFrom source atoms h shapes depth s
        let (y, s) := randomFormulaFrom source atoms h shapes depth s
        ("(" ++ x ++ op.symbol ++ y ++ ")", s)

def randomFormula {σ : Type} (source : IndexSource σ) (atoms : List String)
    (shapes : List Shape) (depth : Depth) (s : σ) : Except Error (String × σ) :=
  if h : atoms = [] then .error .noAtoms
  else .ok (randomFormulaFrom source atoms h shapes depth.toNat s)

/-- The index that a word stands for: the word is a fraction of `2 ^ 32` and picks the index by
its whole part. Where the rest is so near to the next index that a longer fraction might reach it,
`more` continues the fraction. -/
def scaledIndex (n : Nat) (word : UInt32) (more : UInt32) : Nat :=
  let product := word.toNat * n
  let index := product / UInt32.size
  let rest := product % UInt32.size
  if rest > UInt32.size - n ∧ rest + more.toNat * n / UInt32.size ≥ UInt32.size then index + 1
  else index

def needsMore (n : Nat) (word : UInt32) : Bool := word.toNat * n % UInt32.size > UInt32.size - n

theorem scaledIndex_lt {n : Nat} (hn : 0 < n) (word more : UInt32) :
    scaledIndex n word more < n := by
  have hw : word.toNat ≤ 4294967295 := Nat.le_of_lt_succ word.toNat_lt
  have hp : word.toNat * n ≤ 4294967295 * n := Nat.mul_le_mul_right n hw
  simp only [scaledIndex, UInt32.size]
  generalize word.toNat * n = p at *
  generalize more.toNat * n / 4294967296 = m
  split <;> omega

/-- Makes indices from words; the state counts the words used. -/
def IndexSource.ofWords (word : Nat → UInt32) : IndexSource Nat where
  below n hn s :=
    (⟨scaledIndex n (word s) (word (s + 1)), scaledIndex_lt hn _ _⟩,
      if needsMore n (word s) then s + 2 else s + 1)

/-- The words of a list over and over; zeros for an empty list. -/
def repeated (words : List UInt32) : Nat → UInt32 :=
  let words := words.toArray
  fun i => words.getD (i % words.size) 0

end ManyValued
