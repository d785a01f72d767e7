import ManyValued.Proofs.Formula.Printing

/-! Where the nodes of a formula are. Reading does two things at once: it finds the tree of a text,
or the first fault, and it marks every node with its depth. The first does not depend on where the
root is put, and the second looks at the tree alone, so a text that is read at one depth is read at
every depth, as the same tree, and a text that is refused is refused everywhere for the same fault.
Depths are words, so the greatest one is the depth of the root and the height together only as long
as the two together fit a word. -/

namespace ManyValued

section Word

variable {d : Depth} {k : Nat}

theorem toNat_add_ofNat (h : d.toNat + k < UInt64.size) : (d + .ofNat k).toNat = d.toNat + k := by
  rw [UInt64.toNat_add, UInt64.toNat_ofNat_of_lt' (Nat.lt_of_le_of_lt (Nat.le_add_left _ _) h)]
  exact Nat.mod_eq_of_lt h

theorem toNat_add_one (h : d.toNat + 1 < UInt64.size) : (d + 1).toNat = d.toNat + 1 :=
  toNat_add_ofNat h

@[simp] theorem add_ofNat_zero (d : Depth) : d + .ofNat 0 = d := UInt64.add_zero d

theorem add_ofNat_succ (d : Depth) (k : Nat) : d + .ofNat (k + 1) = d + 1 + .ofNat k := by
  rw [Nat.add_comm, UInt64.ofNat_add, ← UInt64.add_assoc]
  rfl

/-- Two depths are as far apart as they say when the lower one has not begun again at 0. -/
theorem toNat_sub_of_eq_add {deepest : Depth} (h : deepest.toNat = d.toNat + k) :
    (deepest - d).toNat = k := by
  rw [UInt64.toNat_sub_of_le _ _ (UInt64.le_iff_toNat_le.2 (by omega)), h, Nat.add_sub_cancel_left]

end Word

namespace Formula

variable {μ ν : Type}

def height : Formula μ → Nat
  | leaf _ _ => 0
  | unary _ _ x => x.height + 1
  | binary _ _ x y => max x.height y.height + 1

/-- The formula with every node marked by its distance from the root, counted from `depth`. -/
def atDepth (depth : Depth) : Formula μ → Formula Depth
  | leaf _ name => leaf depth name
  | unary _ op x => unary depth op (x.atDepth (depth + 1))
  | binary _ op x y => binary depth op (x.atDepth (depth + 1)) (y.atDepth (depth + 1))

/-- The greatest depth of a leaf. One that has begun again at 0 is a small depth. -/
def deepestFrom (depth : Depth) : Formula μ → Depth
  | leaf _ _ => depth
  | unary _ _ x => x.deepestFrom (depth + 1)
  | binary _ _ x y => max (x.deepestFrom (depth + 1)) (y.deepestFrom (depth + 1))

/-- Every node records its distance from the root, counted from `depth`. -/
def DepthsFrom (depth : Depth) : Formula Depth → Prop
  | leaf m _ => m = depth
  | unary m _ x => m = depth ∧ x.DepthsFrom (depth + 1)
  | binary m _ x y => m = depth ∧ x.DepthsFrom (depth + 1) ∧ y.DepthsFrom (depth + 1)

instance decidableDepthsFrom (depth : Depth) : (x : Formula Depth) → Decidable (x.DepthsFrom depth)
  | leaf m _ => inferInstanceAs (Decidable (m = depth))
  | unary m _ x =>
    have := decidableDepthsFrom (depth + 1) x
    inferInstanceAs (Decidable (m = depth ∧ x.DepthsFrom (depth + 1)))
  | binary m _ x y =>
    have := decidableDepthsFrom (depth + 1) x
    have := decidableDepthsFrom (depth + 1) y
    inferInstanceAs
      (Decidable (m = depth ∧ x.DepthsFrom (depth + 1) ∧ y.DepthsFrom (depth + 1)))

@[simp] theorem shape_leaf (m : μ) (name : String) : (leaf m name).shape = leaf () name := rfl

@[simp] theorem shape_unary (m : μ) (op : Unary) (x : Formula μ) :
    (unary m op x).shape = unary () op x.shape := rfl

@[simp] theorem shape_binary (m : μ) (op : Binary) (x y : Formula μ) :
    (binary m op x y).shape = binary () op x.shape y.shape := rfl

@[simp] theorem shape_of_unit (x : Formula Unit) : x.shape = x := by
  induction x with
  | leaf m name => rfl
  | unary m op x ih => rw [shape_unary, ih]
  | binary m op x y ihx ihy => rw [shape_binary, ihx, ihy]

@[simp] theorem height_shape (x : Formula μ) : x.shape.height = x.height := by
  induction x with
  | leaf m name => rfl
  | unary m op x ih => rw [shape_unary, height, height, ih]
  | binary m op x y ihx ihy => rw [shape_binary, height, height, ihx, ihy]

@[simp] theorem render_shape (x : Formula μ) : x.shape.render = x.render := by
  induction x with
  | leaf m name => rfl
  | unary m op x ih => cases op <;> rw [shape_unary, render, render, ih]
  | binary m op x y ihx ihy => rw [shape_binary, render, render, ihx, ihy]

theorem wellFormed_shape (x : Formula μ) : x.shape.WellFormed ↔ x.WellFormed := by
  induction x with
  | leaf m name => rfl
  | unary m op x ih => rw [shape_unary, WellFormed, WellFormed, ih]
  | binary m op x y ihx ihy => rw [shape_binary, WellFormed, WellFormed, ihx, ihy]

@[simp] theorem shape_atDepth (x : Formula μ) (d : Depth) : (x.atDepth d).shape = x.shape := by
  induction x generalizing d with
  | leaf m name => rfl
  | unary m op x ih => rw [atDepth, shape_unary, shape_unary, ih]
  | binary m op x y ihx ihy => rw [atDepth, shape_binary, shape_binary, ihx, ihy]

@[simp] theorem height_atDepth (x : Formula μ) (d : Depth) : (x.atDepth d).height = x.height := by
  rw [← height_shape, shape_atDepth, height_shape]

theorem sameShape_shape_atDepth (x : Formula μ) (d : Depth) : x.SameShape (x.shape.atDepth d) := by
  rw [SameShape, shape_atDepth, shape_of_unit]

theorem atDepth_shape_eq_iff (x : Formula Depth) (d : Depth) :
    x.shape.atDepth d = x ↔ x.DepthsFrom d := by
  induction x generalizing d with
  | leaf m name => simp only [shape_leaf, atDepth, DepthsFrom, leaf.injEq, and_true, eq_comm]
  | unary m op x ih =>
    simp only [shape_unary, atDepth, DepthsFrom, unary.injEq, true_and, ih, @eq_comm _ d m]
  | binary m op x y ihx ihy =>
    simp only [shape_binary, atDepth, DepthsFrom, binary.injEq, true_and, ihx, ihy,
      @eq_comm _ d m]

@[simp] theorem deepestFrom_shape (x : Formula μ) (d : Depth) :
    x.shape.deepestFrom d = x.deepestFrom d := by
  induction x generalizing d with
  | leaf m name => rfl
  | unary m op x ih => rw [shape_unary, deepestFrom, deepestFrom, ih]
  | binary m op x y ihx ihy => rw [shape_binary, deepestFrom, deepestFrom, ihx, ihy]

/-- As long as the depths fit a word, the deepest leaf is as far from the root as any node. -/
theorem toNat_deepestFrom {x : Formula μ} {d : Depth} (h : d.toNat + x.height < UInt64.size) :
    (x.deepestFrom d).toNat = d.toNat + x.height := by
  induction x generalizing d with
  | leaf m name => rfl
  | unary m op x ih =>
    rw [height] at h ⊢
    have hd : (d + 1).toNat = d.toNat + 1 := toNat_add_one (by omega)
    rw [deepestFrom, ih (by omega)]
    omega
  | binary m op x y ihx ihy =>
    rw [height] at h ⊢
    have hd : (d + 1).toNat = d.toNat + 1 := toNat_add_one (by omega)
    rw [deepestFrom, UInt64.toNat_max, ihx (by omega), ihy (by omega)]
    omega

theorem SameShape.render_eq {x : Formula μ} {y : Formula ν} (h : x.SameShape y) :
    x.render = y.render := by
  rw [← render_shape x, ← render_shape y, show x.shape = y.shape from h]

end Formula

namespace Outline

def tree : Outline → Except Error (Formula Unit)
  | fault _ e => .error e
  | leaf text token => readLeaf text token ()
  | unary _ op operand => do
    let x ← operand.tree
    return .unary () op x
  | binary _ op left right => do
    let x ← left.tree
    let y ← right.tree
    return .binary () op x y

/-- Reading is finding the tree and marking it. -/
theorem outcome_build (o : Outline) (d : Depth) :
    (o.build d).outcome = o.tree >>= fun t => .ok (t.atDepth d, t.deepestFrom d) := by
  induction o generalizing d with
  | fault text e => rfl
  | leaf text token =>
    rw [build, outcome_note, Attempt.outcome_bind, Attempt.outcome_ofExcept, tree, readLeaf,
      readLeaf]
    split <;> rfl
  | unary text op operand ih =>
    rw [build, outcome_note, Attempt.outcome_bind, ih, tree]
    cases operand.tree with
    | error e => rfl
    | ok t => rfl
  | binary text op left right ihl ihr =>
    rw [build, outcome_note, Attempt.outcome_bind, ihl, tree]
    cases left.tree with
    | error e => rfl
    | ok t =>
      simp only [ok_bind, Attempt.outcome_bind, ihr]
      cases right.tree with
      | error e => rfl
      | ok u => rfl

/-- How many layers down a reading goes. A right operand is read only when the left one has a
tree. -/
def height : Outline → Nat
  | fault _ _ | leaf _ _ => 0
  | unary _ _ operand => operand.height + 1
  | binary _ _ left right =>
    match left.tree with
    | .ok _ => max left.height right.height + 1
    | .error _ => left.height + 1

theorem height_of_tree {o : Outline} {t : Formula Unit} (h : o.tree = .ok t) :
    o.height = t.height := by
  induction o generalizing t with
  | fault text e => cases h
  | leaf text token =>
    obtain ⟨-, rfl⟩ := readLeaf_eq_ok h
    rfl
  | unary text op operand ih =>
    obtain ⟨x, hx, h⟩ := bind_eq_ok_iff.1 h
    obtain rfl := Except.ok.inj h
    rw [height, Formula.height, ih hx]
  | binary text op left right ihl ihr =>
    obtain ⟨x, hx, h⟩ := bind_eq_ok_iff.1 h
    obtain ⟨y, hy, h⟩ := bind_eq_ok_iff.1 h
    obtain rfl := Except.ok.inj h
    simp only [height, hx]
    rw [Formula.height, ihl hx, ihr hy]

end Outline

def treeOf (f : String) : Except Error (Formula Unit) := (Outline.ofText f).tree

section TreeOf

open Formula

variable {f : String} {t : Formula Unit}

theorem treeOf_of_error {e : Error} (h : Split.ofText f = .error e) : treeOf f = .error e := by
  rw [treeOf, Outline.ofText_eq, h, Outline.tree]

theorem treeOf_of_leaf {token : String} (h : Split.ofText f = .ok (.leaf token)) :
    treeOf f = Outline.readLeaf f token () := by
  rw [treeOf, Outline.ofText_eq, h, Outline.tree]

theorem treeOf_of_unary {op : Unary} {operand : String}
    (h : Split.ofText f = .ok (.unary op operand)) :
    treeOf f = treeOf operand >>= fun x => .ok (.unary () op x) := by
  rw [treeOf, Outline.ofText_eq, h, Outline.tree]
  rfl

theorem treeOf_of_binary {op : Binary} {left right : String}
    (h : Split.ofText f = .ok (.binary op left right)) :
    treeOf f = treeOf left >>= fun x => treeOf right >>= fun y => .ok (.binary () op x y) := by
  rw [treeOf, Outline.ofText_eq, h, Outline.tree]
  rfl

theorem outcome_ofText (f : String) (d : Depth) : (Formula.ofText f d).outcome =
    treeOf f >>= fun t => .ok (t.atDepth d, t.deepestFrom d) :=
  Outline.outcome_build _ d

theorem outcome_ofText_eq_ok_iff {x : Formula Depth} {d deepest : Depth} :
    (Formula.ofText f d).outcome = .ok (x, deepest) ↔
      ∃ t, treeOf f = .ok t ∧ t.atDepth d = x ∧ t.deepestFrom d = deepest := by
  rw [outcome_ofText, bind_eq_ok_iff]
  simp only [Except.ok.injEq, Prod.mk.injEq]

theorem outcome_parse (f : String) :
    (Formula.parse f).outcome = treeOf f >>= fun t => .ok (t.atDepth 0) := by
  rw [Formula.parse, Attempt.outcome_bind, outcome_ofText]
  cases treeOf f <;> rfl

theorem reads_iff_treeOf : Reads f t ↔ treeOf f = .ok t := by
  constructor
  · intro h
    obtain ⟨node, deepest, hn, rfl⟩ := h 0
    obtain ⟨u, hu, rfl, -⟩ := outcome_ofText_eq_ok_iff.1 hn
    rw [hu, shape_atDepth, shape_of_unit]
  · intro h d
    exact ⟨t.atDepth d, t.deepestFrom d, outcome_ofText_eq_ok_iff.2 ⟨t, h, rfl, rfl⟩, by simp⟩

theorem treeOf_trimmed (h : treeOf f = .ok t) : treeOf (trimmed f.toList) = .ok t := by
  rw [← reads_iff_treeOf] at h ⊢
  rw [← String.ofList_toList (s := f)] at h
  exact h.trimmed

theorem treeOf_render {μ : Type} {x : Formula μ} (h : x.WellFormed) :
    treeOf x.render = .ok x.shape :=
  reads_iff_treeOf.1 (reads_render h)

end TreeOf

/-- No depth begins again at 0 when the text `f` is read with its root at depth `d`. -/
def DepthsFit (d : Depth) (f : String) : Prop :=
  d.toNat + (Outline.ofText f).height < UInt64.size

instance (d : Depth) (f : String) : Decidable (DepthsFit d f) :=
  inferInstanceAs (Decidable (_ < _))

section DepthsFit

variable {d : Depth} {f x : String} {layer : Split}

theorem depthsFit_iff {t : Formula Unit} (h : treeOf f = .ok t) :
    DepthsFit d f ↔ d.toNat + t.height < UInt64.size := by
  rw [DepthsFit, Outline.height_of_tree h]

theorem height_first_lt {rest : List String} (h : Split.ofText f = .ok layer)
    (hx : layer.operands = x :: rest) : (Outline.ofText x).height < (Outline.ofText f).height := by
  rw [Outline.ofText_eq f, h]
  cases layer with
  | leaf token => cases hx
  | unary op operand =>
    cases hx
    exact Nat.lt_succ_self _
  | binary op left right =>
    cases hx
    simp only [Outline.height]
    split <;> omega

theorem height_right_lt {op : Binary} {left right : String} {t : Formula Unit}
    (h : Split.ofText f = .ok (.binary op left right)) (ht : treeOf left = .ok t) :
    (Outline.ofText right).height < (Outline.ofText f).height := by
  have ht : (Outline.ofText left).tree = .ok t := ht
  rw [Outline.ofText_eq f, h]
  simp only [Outline.height, ht]
  omega

theorem DepthsFit.toNat_add_one {rest : List String} (h : DepthsFit d f)
    (hs : Split.ofText f = .ok layer) (hx : layer.operands = x :: rest) :
    (d + 1).toNat = d.toNat + 1 := by
  have hlt := height_first_lt hs hx
  rw [DepthsFit] at h
  exact ManyValued.toNat_add_one (by omega)

theorem DepthsFit.first {rest : List String} (h : DepthsFit d f) (hs : Split.ofText f = .ok layer)
    (hx : layer.operands = x :: rest) : DepthsFit (d + 1) x := by
  have hlt := height_first_lt hs hx
  have hd := h.toNat_add_one hs hx
  rw [DepthsFit] at h ⊢
  omega

theorem DepthsFit.right {op : Binary} {left right : String} {t : Formula Unit} (h : DepthsFit d f)
    (hs : Split.ofText f = .ok (.binary op left right)) (ht : treeOf left = .ok t) :
    DepthsFit (d + 1) right := by
  have hlt := height_right_lt hs ht
  have hd := h.toNat_add_one hs rfl
  rw [DepthsFit] at h ⊢
  omega

end DepthsFit

end ManyValued
