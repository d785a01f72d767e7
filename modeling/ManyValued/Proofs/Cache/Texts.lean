import ManyValued.Proofs.Cache.Entries
import ManyValued.Proofs.Formula.Places
import Mathlib.Data.Finset.Card

/-! Which texts a cache has entries for. Entries are closed under cutting, so the ways through the
operands of a stored text lead through the nodes below its node, and whatever text is met on the way
has an entry too. A reading that succeeds therefore leaves entries for the texts that had one and
for those of its formula, and for no others. -/

namespace ManyValued

theorem rel_getElem?_of_forall₂ {α β : Type} {R : α → β → Prop} {xs : List α} {ys : List β}
    (h : List.Forall₂ R xs ys) (i : Nat) : Option.Rel R xs[i]? ys[i]? := by
  induction h generalizing i with
  | nil => exact .none
  | cons hxy _ ih =>
    cases i with
    | zero => exact .some hxy
    | succ i => exact ih i

namespace Cache

def texts (c : Cache) : Finset String := c.entries.keys.toFinset

variable {c c' : Cache} {d : Depth} {f t : String} {x : Shared} {r : Except Error (Shared × Depth)}

theorem mem_texts : t ∈ c.texts ↔ ∃ entry, c.find? t = some entry := by
  rw [texts, List.mem_toFinset, Std.HashMap.mem_keys, Std.HashMap.mem_iff_isSome_getElem?,
    Option.isSome_iff_exists]
  rfl

theorem notMem_texts : t ∉ c.texts ↔ c.find? t = none := by
  rw [mem_texts, Option.eq_none_iff_forall_ne_some, not_exists]

theorem card_texts (c : Cache) : c.texts.card = c.size := by
  rw [texts, List.toFinset_card_of_nodup Std.HashMap.nodup_keys, Std.HashMap.length_keys, size]

@[simp] theorem texts_empty : empty.texts = ∅ :=
  Finset.eq_empty_of_forall_notMem fun t => notMem_texts.2 (find?_empty t)

@[simp] theorem texts_miss (c : Cache) : c.miss.texts = c.texts := rfl

theorem texts_insert (c : Cache) (text : String) (depth height : Depth) (node : Mark → Shared) :
    (c.insert text depth height node).2.texts = Insert.insert text c.texts := by
  ext t
  rw [texts, List.mem_toFinset, Std.HashMap.mem_keys, insert, Std.HashMap.mem_insertIfNew,
    Finset.mem_insert, texts, List.mem_toFinset, Std.HashMap.mem_keys, beq_iff_eq, eq_comm]

theorem Rests.forall₂ (h : c.Rests t x) : List.Forall₂ c.Holds (operandsOf t) x.children := by
  obtain ⟨-, layer, hs, hops⟩ := h
  rwa [operandsOf_of_ok hs]

/-- The text at a place of a stored text and the node at that place are stored together. -/
theorem Closed.holds_at (hc : c.Closed) (h : c.Holds f x) (path : List Nat) :
    Option.Rel c.Holds (textAt? path f) (x.at? path) := by
  induction path generalizing f x with
  | nil => exact .some h
  | cons i path ih =>
    have hi := rel_getElem?_of_forall₂ (hc f x h).forall₂ i
    rw [textAt?, Formula.at?]
    generalize (operandsOf f)[i]? = text, x.children[i]? = node at hi
    cases hi with
    | none => exact .none
    | some hi => exact ih hi

theorem Closed.exists_at (hc : c.Closed) (h : c.Holds f x) {path : List Nat}
    (ht : textAt? path f = some t) : ∃ y, x.at? path = some y ∧ c.Holds t y := by
  have hrel := hc.holds_at h path
  rw [ht] at hrel
  generalize x.at? path = node at hrel
  cases hrel with
  | some hy => exact ⟨_, rfl, hy⟩

theorem Closed.exists_textAt (hc : c.Closed) (h : c.Holds f x) {path : List Nat} {y : Shared}
    (hy : x.at? path = some y) : ∃ t, textAt? path f = some t ∧ c.Holds t y := by
  have hrel := hc.holds_at h path
  rw [hy] at hrel
  generalize textAt? path f = text at hrel
  cases hrel with
  | some ht => exact ⟨_, rfl, ht⟩

theorem Closed.textsOf_subset (hc : c.Closed) (h : c.Holds f x) :
    (textsOf f).toFinset ⊆ c.texts := by
  intro t ht
  obtain ⟨path, hpath⟩ := mem_textsOf_iff.1 (List.mem_toFinset.1 ht)
  obtain ⟨y, -, height, hentry⟩ := hc.exists_at h hpath
  exact mem_texts.2 ⟨_, hentry⟩

/-- After a reading there are entries for the old texts and for those of the formula. -/
theorem Run.texts_eq (h : Run d f c r c') (hf : trimmed f.toList = f) (hc : c.Closed)
    {answer : Shared × Depth} (hr : r = .ok answer) :
    c'.texts = c.texts ∪ (textsOf f).toFinset := by
  induction h generalizing answer with
  | hit h => exact (Finset.union_eq_left.2 (hc.textsOf_subset ⟨_, h⟩)).symm
  | fault h hs => cases hr
  | badToken h hs ht => cases hr
  | leaf h hs ht =>
    rw [texts_insert, texts_miss, textsOf_of_ok hs]
    simp [Split.operands]
  | operandFault h hs hx ih => cases hr
  | unary h hs hx ih =>
    rw [texts_insert, ih (trimmed_operand hs) hc.miss rfl, textsOf_of_ok hs]
    simp [Split.operands]
  | leftFault h hs hx ih => cases hr
  | rightFault h hs hx hy ihx ihy => cases hr
  | binary h hs hx hy ihx ihy =>
    have hc₁ := hx.closed (trimmed_left hs) hc.miss
    rw [texts_insert, ihy (trimmed_right hs) hc₁ rfl, ihx (trimmed_left hs) hc.miss rfl,
      textsOf_of_ok hs]
    simp [Split.operands]

end Cache

end ManyValued
