import ManyValued.Proofs.Cache.Agreement

/-! What the entries of a cache hold together. A node is stored after its operands, and a reading
that fails half-way leaves only such nodes behind, so the entries are closed under cutting a text
into its operands: the children of a stored node are the very nodes that are stored under the
operands, with the depths they have there. Since no reading changes an entry, later readings cannot
undo this. -/

namespace ManyValued

section Operands

variable {f operand left right : String} {op : Unary} {bop : Binary}

theorem trimmed_operand (h : Split.ofText f = .ok (.unary op operand)) :
    trimmed operand.toList = operand :=
  trimmed_of_mem_operands h operand (List.mem_singleton_self operand)

theorem trimmed_left (h : Split.ofText f = .ok (.binary bop left right)) :
    trimmed left.toList = left :=
  trimmed_of_mem_operands h left (List.mem_cons_self ..)

theorem trimmed_right (h : Split.ofText f = .ok (.binary bop left right)) :
    trimmed right.toList = right :=
  trimmed_of_mem_operands h right (List.mem_cons_of_mem _ (List.mem_singleton_self right))

end Operands

namespace Cache

def Holds (c : Cache) (text : String) (node : Shared) : Prop :=
  ∃ height, c.find? text = some (node, height)

/-- The text has no white space around it, and the nodes stored under its operands are the children
of the node. -/
structure Rests (c : Cache) (text : String) (node : Shared) : Prop where
  trimmed : ManyValued.trimmed text.toList = text
  operands : ∃ layer, Split.ofText text = .ok layer ∧
    List.Forall₂ c.Holds layer.operands node.children

def Closed (c : Cache) : Prop := ∀ text node, c.Holds text node → c.Rests text node

variable {c c' : Cache} {d : Depth} {f text : String} {node : Shared}
  {r : Except Error (Shared × Depth)}

theorem Rests.mono (h : c.Rests text node)
    (hkeep : ∀ text node, c.Holds text node → c'.Holds text node) : c'.Rests text node := by
  obtain ⟨ht, layer, hs, hops⟩ := h
  exact ⟨ht, layer, hs, hops.imp hkeep⟩

theorem Run.holds (h : Run d f c r c') (hn : c.Holds text node) : c'.Holds text node :=
  hn.imp fun _ => h.find?_of_find?

theorem closed_of_find?_eq_none (h : ∀ text, c.find? text = none) : c.Closed := by
  rintro text node ⟨height, hentry⟩
  rw [h text] at hentry
  cases hentry

theorem Closed.hit (hc : c.Closed) : c.hit.Closed :=
  fun text node h => (hc text node h).mono fun _ _ h => h

theorem Closed.miss (hc : c.Closed) : c.miss.Closed :=
  fun text node h => (hc text node h).mono fun _ _ h => h

/-- A node whose children are stored joins the others, which rest on what they rested on. -/
theorem Closed.insert (hc : c.Closed) {depth height : Depth} {node : Mark → Shared} {layer : Split}
    (hf : trimmed f.toList = f) (hs : Split.ofText f = .ok layer)
    (hnode : ∀ m, List.Forall₂ c.Holds layer.operands (node m).children) :
    (c.insert f depth height node).2.Closed := by
  have hkeep (text : String) (x : Shared) (h : c.Holds text x) :
      (c.insert f depth height node).2.Holds text x := h.imp fun _ => find?_insert_of_find?
  rintro text x ⟨h, hx⟩
  rcases find?_of_find?_insert hx with hold | ⟨rfl, hnew⟩
  · exact (hc text x ⟨h, hold⟩).mono hkeep
  · obtain ⟨rfl, -⟩ := Prod.mk.inj hnew
    exact ⟨hf, layer, hs, (hnode _).imp hkeep⟩

/-- A reading stores a node only when its operands are stored. -/
theorem Run.closed (h : Run d f c r c') (hf : trimmed f.toList = f) (hc : c.Closed) :
    c'.Closed := by
  induction h with
  | hit h => exact hc.hit
  | fault h hs => exact hc.miss
  | badToken h hs ht => exact hc.miss
  | leaf h hs ht => exact hc.miss.insert hf hs fun _ => .nil
  | operandFault h hs hx ih => exact ih (trimmed_operand hs) hc.miss
  | unary h hs hx ih =>
    have hc₁ := ih (trimmed_operand hs) hc.miss
    exact hc₁.insert hf hs fun _ => .cons hx.find?_answer .nil
  | leftFault h hs hx ih => exact ih (trimmed_left hs) hc.miss
  | rightFault h hs hx hy ihx ihy =>
    exact ihy (trimmed_right hs) (ihx (trimmed_left hs) hc.miss)
  | binary h hs hx hy ihx ihy =>
    have hc₂ := ihy (trimmed_right hs) (ihx (trimmed_left hs) hc.miss)
    -- Reading the right operand has kept the entry of the left one.
    have hleft := hy.holds hx.find?_answer
    exact hc₂.insert hf hs fun _ => .cons hleft (.cons hy.find?_answer .nil)

theorem closed_after (history : List Request) : (after history).Closed :=
  after_induction (closed_of_find?_eq_none find?_empty)
    (fun f d => (run_read _ f d).closed (trimmed_trimmed f.toList))
    (fun _ => closed_of_find?_eq_none (find?_clear _)) history

theorem find?_of_not_clear {entry : Shared × Depth} {requests : List Request}
    (hr : Request.clear ∉ requests) (h : c.find? text = some entry) :
    (requests.foldl serve c).find? text = some entry := by
  induction requests generalizing c with
  | nil => exact h
  | cons request rest ih =>
    rw [List.mem_cons, not_or] at hr
    cases request with
    | read formula depth => exact ih hr.2 ((run_read c formula depth).find?_of_find? h)
    | clear => exact absurd rfl hr.1

/-- What a text with an entry has in the cache: its tree, and its operands with the children of its
node. -/
structure Represents (c : Cache) (text : String) (node : Shared) : Prop where
  rests : c.Rests text node
  parsed : ∃ plain, (Formula.parse text).outcome = .ok plain ∧ node.SameShape plain

/-- The height that is stored with a node is that of the node, and the greatest depth of its
text. -/
structure Measures (text : String) (node : Shared) (height : Depth) : Prop where
  node : height.toNat = node.height
  parsed : ∃ plain, (Formula.ofText text 0).outcome = .ok (plain, height)

theorem represents_of_find? {height : Depth} (hf : c.Faithful) (hc : c.Closed)
    (h : c.find? text = some (node, height)) : c.Represents text node := by
  refine ⟨hc text node ⟨_, h⟩, node.shape.atDepth 0, ?_, Formula.sameShape_shape_atDepth node 0⟩
  rw [outcome_parse, hf text node height h, ok_bind]

theorem measures_of_find? {height : Depth} (hf : c.Faithful) (hm : c.Measured)
    (h : c.find? text = some (node, height)) : Measures text node height := by
  have hheight := hm text node height h
  refine ⟨hheight, node.shape.atDepth 0, ?_⟩
  -- A stored height is a word, so counting from 0 it is reached before depths begin again.
  have hfit : (0 : Depth).toNat + node.shape.height < UInt64.size := by
    rw [Formula.height_shape, ← hheight, UInt64.toNat_zero, Nat.zero_add]
    exact height.toNat_lt
  have hreach : node.shape.deepestFrom 0 = height := by
    rw [← UInt64.toNat_inj, Formula.toNat_deepestFrom hfit, Formula.height_shape, hheight,
      UInt64.toNat_zero, Nat.zero_add]
  rw [outcome_ofText, hf text node height h, ok_bind, hreach]

theorem Faithful.exists_entry (hc : c.Faithful) {t : Formula Unit}
    (h : treeOf (trimmed f.toList) = .ok t) (d : Depth) :
    ∃ node height, (c.read f d).2.find? (trimmed f.toList) = some (node, height) := by
  obtain ⟨node, reached, hread, -⟩ := hc.exists_read h d
  have hrun := run_read c f d
  rw [hread] at hrun
  exact ⟨node, hrun.find?_answer⟩

end Cache

end ManyValued
