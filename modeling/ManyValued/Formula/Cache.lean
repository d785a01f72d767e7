import ManyValued.Formula.Outline
import Std.Data.HashMap

/-! Reading with shared subformulas. A cache keeps every formula that it has read under its trimmed
text; a text met again gives the node it gave before, with the depths it had then. Nodes carry an
identity, fresh for each new node, so that equal identities mean the same node. -/

namespace ManyValued

structure Mark where
  identity : Nat
  depth : Depth
  deriving DecidableEq, Repr

abbrev Shared := Formula Mark

def Formula.depths (x : Shared) : Formula Depth := x.map Mark.depth

namespace Formula

/-- Numbers the nodes in preorder from `first`; the second part is the next free number. -/
def number (first : Nat) : Formula Depth → Shared × Nat
  | leaf depth name => (leaf ⟨first, depth⟩ name, first + 1)
  | unary depth op x =>
    let (x, next) := x.number (first + 1)
    (unary ⟨first, depth⟩ op x, next)
  | binary depth op x y =>
    let (x, next) := x.number (first + 1)
    let (y, next) := y.number next
    (binary ⟨first, depth⟩ op x y, next)

/-- The formula as a tree in which no two places share a node. -/
def unshared (x : Formula Depth) : Shared := (x.number 0).1

end Formula

structure Cache where
  entries : Std.HashMap String (Shared × Depth) := ∅
  hits : Nat := 0
  misses : Nat := 0
  /-- No node so far has this identity or a greater one. -/
  nextIdentity : Nat := 0

namespace Cache

def empty : Cache := {}

instance : Inhabited Cache := ⟨empty⟩

def size (c : Cache) : Nat := c.entries.size

/-- Forgets the entries and the counts. Identities are not used again. -/
def clear (c : Cache) : Cache := { nextIdentity := c.nextIdentity }

def find? (c : Cache) (text : String) : Option (Shared × Depth) := c.entries[text]?

def hit (c : Cache) : Cache := { c with hits := c.hits + 1 }

def miss (c : Cache) : Cache := { c with misses := c.misses + 1 }

/-- Gives a new node the next identity and stores it with its height, unless its text has an
entry already. -/
def insert (c : Cache) (text : String) (depth height : Depth) (node : Mark → Shared) :
    Shared × Cache :=
  let x := node ⟨c.nextIdentity, depth⟩
  (x, { c with
    entries := c.entries.insertIfNew text (x, height)
    nextIdentity := c.nextIdentity + 1 })

/-- Reads an outline with its root at `depth`. The answer is the node and the greatest depth found,
which for a text met again comes from the stored height. A failed reading leaves what it had stored
before it failed. -/
def build (depth : Depth) (o : Outline) (c : Cache) : Except Error (Shared × Depth) × Cache :=
  match c.find? o.text with
  | some (node, height) => (.ok (node, depth + height), c.hit)
  | none =>
    match o with
    | .fault _ e => (.error e, c.miss)
    | .leaf text token =>
      match Outline.readLeaf text token () with
      | .error e => (.error e, c.miss)
      | .ok _ =>
        let (node, c) := c.miss.insert text depth 0 (.leaf · token)
        (.ok (node, depth), c)
    | .unary text op operand =>
      match build (depth + 1) operand c.miss with
      | (.error e, c) => (.error e, c)
      | (.ok (x, deepest), c) =>
        let (node, c) := c.insert text depth (deepest - depth) (.unary · op x)
        (.ok (node, deepest), c)
    | .binary text op left right =>
      match build (depth + 1) left c.miss with
      | (.error e, c) => (.error e, c)
      | (.ok (x, deepestLeft), c) =>
        match build (depth + 1) right c with
        | (.error e, c) => (.error e, c)
        | (.ok (y, deepestRight), c) =>
          let deepest := max deepestLeft deepestRight
          let (node, c) := c.insert text depth (deepest - depth) (.binary · op x y)
          (.ok (node, deepest), c)

def read (c : Cache) (formula : String) (depth : Depth) : Except Error (Shared × Depth) × Cache :=
  build depth (Outline.ofText (trimmed formula.toList)) c

end Cache

end ManyValued
