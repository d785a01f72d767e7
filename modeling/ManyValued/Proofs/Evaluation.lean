import ManyValued.Evaluation
import ManyValued.Proofs.Cache.Agreement
import ManyValued.Proofs.Cache.Identity
import ManyValued.Proofs.Formula.Replacement
import ManyValued.Proofs.Formula.RoundTrip

/-! A node that occurs again need not be evaluated again. The table keeps values by identity, so the
invariant speaks of the nodes of one formula, and of them all: whatever is found under the identity
of a node is the value of that node. That is kept when a value is entered because identities tell
nodes apart. An evaluation that fails leaves no table behind and fails as the plain one does. -/

namespace ManyValued.Formula

variable {α : Type} [TruthValue α] {l : Logic α} {v : Valuation α}

/-- What the table has for a node of the formula is the value of that node. -/
def Table.Sound (l : Logic α) (v : Valuation α) (root : Shared) (table : Table α) : Prop :=
  ∀ y ∈ root.subformulas, ∀ a, table[y.mark.identity]? = some a → y.evaluate l v = .ok a

/-- The memoized evaluation does as the plain one did, and its table is sound. -/
def Agrees (l : Logic α) (v : Valuation α) (root : Shared) (plain : Except Error α) :
    Except Error (α × Table α) → Prop
  | .ok (a, table) => plain = .ok a ∧ table.Sound l v root
  | .error e => plain = .error e

variable {root x : Shared} {table : Table α}

theorem Table.sound_empty : Table.Sound l v root ∅ := by
  intro y _ a ha
  rw [Std.HashMap.getElem?_empty] at ha
  cases ha

theorem Table.Sound.insert (h : table.Sound l v root) (hroot : root.Coherent)
    (hx : x ∈ root.subformulas) {a : α} (ha : x.evaluate l v = .ok a) :
    Table.Sound l v root (table.insert x.mark.identity a) := by
  intro y hy b hb
  rw [Std.HashMap.getElem?_insert] at hb
  split at hb
  · rename_i hid
    obtain rfl : x = y := hroot hx hy (beq_iff_eq.1 hid)
    rw [ha, Option.some.inj hb]
  · exact h y hy b hb

theorem Table.Sound.agrees (h : table.Sound l v root) (hroot : root.Coherent)
    (hx : x ∈ root.subformulas) :
    Agrees l v root (x.evaluate l v)
      (x.evaluate l v >>= fun a => .ok (a, table.insert x.mark.identity a)) := by
  cases ha : x.evaluate l v with
  | error e => rfl
  | ok a => exact ⟨rfl, h.insert hroot hx ha⟩

/-- What goes on from a value agrees when it agrees for that value and every sound table. -/
theorem Agrees.bind {plain : Except Error α} {memoized : Except Error (α × Table α)}
    (h : Agrees l v root plain memoized) {k : α → Except Error α}
    {k' : α × Table α → Except Error (α × Table α)}
    (hk : ∀ a table, plain = .ok a → table.Sound l v root →
      Agrees l v root (k a) (k' (a, table))) :
    Agrees l v root (plain >>= k) (memoized >>= k') := by
  cases memoized with
  | error e =>
    rw [Agrees] at h
    rw [h, error_bind, error_bind]
    rfl
  | ok answer =>
    obtain ⟨a, table⟩ := answer
    obtain ⟨ha, ht⟩ := h
    rw [ha, ok_bind, ok_bind]
    exact hk a table ha ht

theorem agrees_evaluateWith (hroot : root.Coherent) (hx : x ∈ root.subformulas)
    (h : table.Sound l v root) :
    Agrees l v root (x.evaluate l v) (x.evaluateWith l v table) := by
  -- The root stays fixed: the table is sound for its nodes all the way down.
  induction x generalizing table with
  | leaf m name =>
    rw [evaluateWith]
    split
    · rename_i a ha
      exact ⟨h _ hx a ha, h⟩
    · exact h.agrees hroot hx
  | unary m op x ih =>
    rw [evaluateWith]
    split
    · rename_i a ha
      exact ⟨h _ hx a ha, h⟩
    · refine (ih (operand_mem_subformulas hx) h).bind fun a table ha ht => ?_
      have hop : l.unary op a = (unary m op x).evaluate l v := by rw [evaluate, ha, ok_bind]
      dsimp only
      rw [hop]
      exact ht.agrees hroot hx
  | binary m op x y ihx ihy =>
    rw [evaluateWith]
    split
    · rename_i a ha
      exact ⟨h _ hx a ha, h⟩
    · refine (ihx (left_mem_subformulas hx) h).bind fun a table ha ht => ?_
      refine (ihy (right_mem_subformulas hx) ht).bind fun b table hb ht => ?_
      have hop : l.binary op a b = (binary m op x y).evaluate l v := by
        rw [evaluate, ha, ok_bind, hb, ok_bind]
      dsimp only
      rw [hop]
      exact ht.agrees hroot hx

theorem Coherent.evaluateMemoized_eq (h : x.Coherent) :
    x.evaluateMemoized l v = x.evaluate l v := by
  have hx : Agrees l v x (x.evaluate l v) (x.evaluateWith l v ∅) :=
    agrees_evaluateWith h (self_mem_subformulas x) Table.sound_empty
  rw [evaluateMemoized]
  generalize x.evaluateWith l v ∅ = memoized at hx
  obtain e | ⟨a, table⟩ := memoized
  · exact hx.symm
  · exact hx.1.symm

/-- A formula has one value, or one error: in its tree and in whatever a cache answers for it,
evaluated place by place or node by node. -/
theorem evaluations_agree (l : Logic α) (v : Valuation α) :
    (∀ x : Shared, x.Coherent → x.evaluateMemoized l v = x.evaluate l v) ∧
    ∀ f plain, (parse f).outcome = .ok plain →
      plain.unshared.evaluateMemoized l v = plain.evaluate l v ∧
      ∀ history d, ∃ shared deepest,
        ((Cache.after history).read f d).1 = .ok (shared, deepest) ∧
        shared.evaluate l v = plain.evaluate l v ∧
        shared.evaluateMemoized l v = plain.evaluate l v := by
  refine ⟨fun x hx => hx.evaluateMemoized_eq, fun f plain hf => ⟨?_, fun history d => ?_⟩⟩
  · rw [(coherent_unshared plain).evaluateMemoized_eq, ← evaluate_shape, unshared, shape_number,
      evaluate_shape]
  · have ht := (outcome_parse_eq_ok_iff.1 hf).1
    obtain ⟨shared, deepest, hread, hshape⟩ :=
      (Cache.faithful_after history).exists_read (treeOf_trimmed ht) d
    have hvalue : shared.evaluate l v = plain.evaluate l v := by
      rw [← evaluate_shape, hshape, evaluate_shape]
    refine ⟨shared, deepest, hread, hvalue, ?_⟩
    rw [(Cache.coherent_read history hread).evaluateMemoized_eq, hvalue]

def twice : Shared :=
  let x := binary ⟨1, 1⟩ .conj (leaf ⟨2, 2⟩ "A") (leaf ⟨3, 2⟩ "B")
  binary ⟨0, 0⟩ .disj x x

theorem evaluations_agree_twice :
    let v : Valuation Rat := Valuation.ofList [("A", 7 / 10), ("B", 1 / 2)]
    twice.evaluateMemoized Logic.lukasiewicz v = .ok (2 / 5) ∧
      ∃ shared deepest,
        ((Cache.after [.read "(A⊙B)" 3, .read "A⊙" 0]).read twice.render 4).1 =
          .ok (shared, deepest) ∧
        shared.evaluateMemoized Logic.lukasiewicz v = .ok (2 / 5) := by
  intro v
  have hw : twice.WellFormed := by decide
  have ha : v.leaf "A" = .ok (7 / 10) := by rw [Valuation.leaf, Valuation.get?_ofList]; rfl
  have hb : v.leaf "B" = .ok (1 / 2) := by rw [Valuation.leaf, Valuation.get?_ofList]; rfl
  have hvalue : twice.evaluate Logic.lukasiewicz v = .ok (2 / 5) := by
    simp only [twice, evaluate, ha, hb, ok_bind]
    decide +kernel
  obtain ⟨hmemoized, hparsed⟩ := evaluations_agree Logic.lukasiewicz v
  have hparse : (parse twice.render).outcome = .ok (twice.shape.atDepth 0) := by
    rw [outcome_parse, treeOf_render hw, ok_bind]
  obtain ⟨-, hcached⟩ := hparsed _ _ hparse
  obtain ⟨shared, deepest, hread, -, hshared⟩ :=
    hcached [.read "(A⊙B)" 3, .read "A⊙" 0] 4
  refine ⟨(hmemoized twice (by decide)).trans hvalue, shared, deepest, hread, hshared.trans ?_⟩
  rw [← evaluate_shape, shape_atDepth, shape_of_unit, evaluate_shape, hvalue]

end ManyValued.Formula
