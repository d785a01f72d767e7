import ManyValued.Proofs.Cache.Run
import Mathlib.Data.List.Nodup
import Mathlib.Data.Set.Function

/-! Identities tell nodes apart. A formula is coherent when equal identities in it mean one node, so
that what is known of an identity is known of the node. A tree is coherent once its places are
numbered. A cache hands out identities in order, so all that it has stored is below the next one and
a new node cannot be taken for an old one. -/

namespace ManyValued

namespace Formula

variable {μ : Type}

def subformulas : Formula μ → List (Formula μ)
  | leaf m name => [leaf m name]
  | unary m op x => unary m op x :: x.subformulas
  | binary m op x y => binary m op x y :: (x.subformulas ++ y.subformulas)

theorem self_mem_subformulas (x : Formula μ) : x ∈ x.subformulas := by
  cases x <;> exact List.mem_cons_self ..

theorem subformulas_subset {x y : Formula μ} (h : y ∈ x.subformulas) :
    y.subformulas ⊆ x.subformulas := by
  induction x with
  | leaf m name =>
    rw [subformulas, List.mem_singleton] at h
    rw [h]
    exact fun _ hz => hz
  | unary m op x ih =>
    rcases List.mem_cons.1 h with rfl | h
    · exact fun _ hz => hz
    · exact fun z hz => List.mem_cons_of_mem _ (ih h hz)
  | binary m op x y ihx ihy =>
    rcases List.mem_cons.1 h with rfl | h
    · exact fun _ hz => hz
    · rcases List.mem_append.1 h with h | h
      · exact fun z hz => List.mem_cons_of_mem _ (List.mem_append_left _ (ihx h hz))
      · exact fun z hz => List.mem_cons_of_mem _ (List.mem_append_right _ (ihy h hz))

theorem operand_mem_subformulas {x y : Formula μ} {m : μ} {op : Unary}
    (h : unary m op x ∈ y.subformulas) : x ∈ y.subformulas :=
  subformulas_subset h (List.mem_cons_of_mem _ (self_mem_subformulas x))

theorem left_mem_subformulas {x y z : Formula μ} {m : μ} {op : Binary}
    (h : binary m op x y ∈ z.subformulas) : x ∈ z.subformulas :=
  subformulas_subset h (List.mem_cons_of_mem _ (List.mem_append_left _ (self_mem_subformulas x)))

theorem right_mem_subformulas {x y z : Formula μ} {m : μ} {op : Binary}
    (h : binary m op x y ∈ z.subformulas) : y ∈ z.subformulas :=
  subformulas_subset h (List.mem_cons_of_mem _ (List.mem_append_right _ (self_mem_subformulas y)))

def identity (x : Shared) : Nat := x.mark.identity

/-- Equal identities mean the same node. -/
def Coherent (x : Shared) : Prop := Set.InjOn identity {y | y ∈ x.subformulas}

instance (x : Shared) : Decidable x.Coherent :=
  decidable_of_iff
    (∀ y ∈ x.subformulas, ∀ z ∈ x.subformulas, identity y = identity z → y = z)
    ⟨fun h y hy z hz => h y hy z hz, fun h _ hy _ hz => h hy hz⟩

theorem injOn_insert {nodes : Set Shared} {x : Shared} (h : Set.InjOn identity nodes)
    (hx : ∀ y ∈ nodes, identity y ≠ identity x) : Set.InjOn identity (insert x nodes) := by
  have hmem : x ∉ nodes := fun hm => hx x hm rfl
  refine (Set.injOn_insert hmem).2 ⟨h, ?_⟩
  rintro ⟨y, hy, he⟩
  exact hx y hy he

section Number

theorem shape_number (x : Formula Depth) (first : Nat) : (x.number first).1.shape = x.shape := by
  induction x generalizing first with
  | leaf m name => rfl
  | unary m op x ih => rw [number, shape_unary, shape_unary, ih]
  | binary m op x y ihx ihy => rw [number, shape_binary, shape_binary, ihx, ihy]

theorem next_number (x : Formula Depth) (first : Nat) : (x.number first).2 = first + x.size := by
  induction x generalizing first with
  | leaf m name => rfl
  | unary m op x ih =>
    rw [number, ih, size]
    omega
  | binary m op x y ihx ihy =>
    rw [number, ihy, ihx, size]
    omega

/-- The nodes are numbered in order, each with a number of its own. -/
theorem map_identity_number (x : Formula Depth) (first : Nat) :
    (x.number first).1.subformulas.map identity = List.range' first x.size := by
  induction x generalizing first with
  | leaf m name => rfl
  | unary m op x ih =>
    rw [size, Nat.add_comm 1, List.range'_succ, ← ih (first + 1)]
    rfl
  | binary m op x y ihx ihy =>
    calc ((binary m op x y).number first).1.subformulas.map identity
        = first :: (List.range' (first + 1) x.size ++ List.range' (first + 1 + x.size) y.size) := by
          rw [← ihx, ← ihy, ← List.map_append, ← next_number, number]
          rfl
      _ = List.range' first (binary m op x y).size := by
          rw [List.range'_append_1, ← List.range'_succ, size]
          congr 1
          omega

theorem coherent_unshared (x : Formula Depth) : x.unshared.Coherent := by
  have h : (x.unshared.subformulas.map identity).Nodup := by
    rw [unshared, map_identity_number]
    exact List.nodup_range'
  exact fun y hy z hz => List.inj_on_of_nodup_map h hy hz

end Number

end Formula

namespace Cache

open Formula

variable {c c' : Cache} {d : Depth} {f : String} {r : Except Error (Shared × Depth)}

def nodes (c : Cache) : Set Shared :=
  {x | ∃ text entry, c.find? text = some entry ∧ x ∈ entry.1.subformulas}

/-- The stored nodes are told apart by their identities, which have all been handed out. -/
structure Coherent (c : Cache) : Prop where
  injOn : Set.InjOn identity c.nodes
  lt : ∀ x ∈ c.nodes, identity x < c.nextIdentity

theorem subset_nodes {text : String} {entry : Shared × Depth} (h : c.find? text = some entry) :
    ∀ x ∈ entry.1.subformulas, x ∈ c.nodes :=
  fun _ hx => ⟨text, entry, h, hx⟩

theorem coherent_of_find?_eq_none (h : ∀ text, c.find? text = none) : c.Coherent := by
  have hnodes : ∀ x, x ∉ c.nodes := by
    rintro x ⟨text, entry, hentry, -⟩
    rw [h text] at hentry
    cases hentry
  exact ⟨fun x hx => (hnodes x hx).elim, fun x hx => (hnodes x hx).elim⟩

theorem Coherent.hit (hc : c.Coherent) : c.hit.Coherent := ⟨hc.injOn, hc.lt⟩

theorem Coherent.miss (hc : c.Coherent) : c.miss.Coherent := ⟨hc.injOn, hc.lt⟩

/-- A new node over stored ones takes an identity that none of them has. -/
theorem Coherent.insert (hc : c.Coherent) {depth height : Depth} {node : Mark → Shared}
    (hmark : ∀ m, (node m).mark = m)
    (hnode : ∀ m, ∀ x ∈ (node m).subformulas, x = node m ∨ x ∈ c.nodes) :
    (c.insert f depth height node).2.Coherent := by
  have hnew : identity (node ⟨c.nextIdentity, depth⟩) = c.nextIdentity := by
    rw [identity, hmark]
  have hsub : ∀ x ∈ (c.insert f depth height node).2.nodes,
      x = node ⟨c.nextIdentity, depth⟩ ∨ x ∈ c.nodes := by
    rintro x ⟨text, entry, h, hx⟩
    rcases find?_of_find?_insert h with hold | ⟨rfl, rfl⟩
    · exact .inr ⟨text, entry, hold, hx⟩
    · exact hnode _ x hx
  refine ⟨(injOn_insert hc.injOn fun y hy => ?_).mono hsub, fun x hx => ?_⟩
  · rw [hnew]
    exact Nat.ne_of_lt (hc.lt y hy)
  · rcases hsub x hx with rfl | hold
    · rw [hnew]
      exact Nat.lt_succ_self _
    · exact Nat.lt_succ_of_lt (hc.lt x hold)

/-- A reading only makes new nodes over nodes that it has stored. -/
theorem Run.coherent (h : Run d f c r c') (hc : c.Coherent) : c'.Coherent := by
  induction h with
  | hit h => exact hc.hit
  | fault h hs => exact hc.miss
  | badToken h hs ht => exact hc.miss
  | leaf h hs ht => exact hc.miss.insert (fun _ => rfl) fun _ x hx => .inl (List.mem_singleton.1 hx)
  | operandFault h hs hx ih => exact ih hc.miss
  | unary h hs hx ih =>
    obtain ⟨height, hstored⟩ := hx.find?_answer
    refine (ih hc.miss).insert (fun _ => rfl) fun _ z hz => ?_
    exact (List.mem_cons.1 hz).imp_right (subset_nodes hstored z)
  | leftFault h hs hx ih => exact ih hc.miss
  | rightFault h hs hx hy ihx ihy => exact ihy (ihx hc.miss)
  | binary h hs hx hy ihx ihy =>
    obtain ⟨heightLeft, hleft⟩ := hx.find?_answer
    obtain ⟨heightRight, hright⟩ := hy.find?_answer
    refine (ihy (ihx hc.miss)).insert (fun _ => rfl) fun _ z hz => ?_
    refine (List.mem_cons.1 hz).imp_right fun hz => ?_
    -- The left operand is still stored when the right one has been read.
    rcases List.mem_append.1 hz with hz | hz
    · exact subset_nodes (hy.find?_of_find? hleft) z hz
    · exact subset_nodes hright z hz

theorem coherent_after (history : List Request) : (after history).Coherent :=
  after_induction (coherent_of_find?_eq_none find?_empty) (fun f d => (run_read _ f d).coherent)
    (fun _ => coherent_of_find?_eq_none (find?_clear _)) history

/-- What a cache answers is coherent, whatever it shares with earlier answers. -/
theorem coherent_read (history : List Request) {d : Depth} {node : Shared} {deepest : Depth}
    (h : ((after history).read f d).1 = .ok (node, deepest)) : node.Coherent := by
  have hrun := run_read (after history) f d
  rw [h] at hrun
  obtain ⟨height, hstored⟩ := hrun.find?_answer
  exact (hrun.coherent (coherent_after history)).injOn.mono (subset_nodes hstored)

end Cache

end ManyValued
