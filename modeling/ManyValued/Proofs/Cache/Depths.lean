import ManyValued.Proofs.Cache.Identity
import ManyValued.Proofs.Cache.Texts

/-! Which depths the nodes of a shared formula record. A text is stored when it is read for the
first time, with the depth that it has there, and never again. A reading goes through its formula in
preorder and leaves out what lies below a text that it meets again; but whatever lies there has an
entry already, so no text occurs for the first time in a part that is left out. Hence the depths in
the cache are those that a list of all places gives when it is searched from the front. -/

namespace ManyValued.Cache

open Formula

def depthOf? (c : Cache) (t : String) : Option Depth := (c.find? t).map (·.1.mark.depth)

/-- Every text is recorded with the depth of the first place that has it. -/
def Records (c : Cache) (places : List (String × Depth)) : Prop :=
  ∀ t, c.depthOf? t = places.lookup t

/-- Different texts have nodes of their own. -/
def Apart (c : Cache) : Prop :=
  ∀ t t' x x', c.Holds t x → c.Holds t' x' → identity x = identity x' → t = t'

variable {c c' : Cache} {d : Depth} {f : String} {r : Except Error (Shared × Depth)}

section Records

variable {places below : List (String × Depth)}

theorem Holds.depthOf? {t : String} {x : Shared} (h : c.Holds t x) :
    c.depthOf? t = some x.mark.depth := by
  obtain ⟨height, h⟩ := h
  rw [Cache.depthOf?, h]
  rfl

theorem Holds.unique {t : String} {x y : Shared} (hx : c.Holds t x) (hy : c.Holds t y) : x = y := by
  obtain ⟨height, hx⟩ := hx
  obtain ⟨height', hy⟩ := hy
  exact (Prod.mk.inj (Option.some.inj (hx.symm.trans hy))).1

theorem records_empty : empty.Records [] := fun t => by
  rw [depthOf?, find?_empty, Option.map_none, List.lookup_nil]

theorem Records.miss (hp : c.Records places) : c.miss.Records places := hp

theorem Records.append_of_subset (hp : c.Records places)
    (hsub : (textsOf f).toFinset ⊆ c.texts) (d : Depth) : c.Records (places ++ placesOf f d) := by
  intro t
  rw [hp t, List.lookup_append]
  cases hlookup : places.lookup t with
  | some depth => rfl
  | none =>
    have hnone : c.find? t = none := Option.map_eq_none_iff.1 ((hp t).trans hlookup)
    have hmem : t ∉ textsOf f := fun ht =>
      notMem_texts.2 hnone (hsub (List.mem_toFinset.2 ht))
    exact (lookup_placesOf_eq_none_iff.2 hmem).symm

/-- A text that was missing is stored after those below it, but its place comes before theirs. -/
theorem Records.insert {height : Depth} {node : Mark → Shared} (hp : c.Records (places ++ below))
    (h : c.find? f = none) (hmark : ∀ m, (node m).mark = m) :
    (c.insert f d height node).2.Records (places ++ (f, d) :: below) := by
  intro t
  have hprev := hp t
  rw [List.lookup_append] at hprev ⊢
  rw [List.lookup_cons, depthOf?]
  by_cases ht : t = f
  · subst ht
    rw [depthOf?, h, Option.map_none, eq_comm, Option.or_eq_none_iff] at hprev
    rw [find?_insert_of_none h, hprev.1, Option.none_or, beq_self_eq_true, Option.map_some, hmark]
  · rw [find?_insert_of_ne ht, beq_false_of_ne ht]
    exact hprev

theorem Run.records (h : Run d f c r c') (hf : trimmed f.toList = f) (hc : c.Closed)
    {answer : Shared × Depth} (hr : r = .ok answer) (hp : c.Records places) :
    c'.Records (places ++ placesOf f d) := by
  induction h generalizing answer places with
  | hit h => exact hp.append_of_subset (hc.textsOf_subset ⟨_, h⟩) _
  | fault h hs => cases hr
  | badToken h hs ht => cases hr
  | leaf h hs ht =>
    rw [← List.append_nil places] at hp
    rw [placesOf_of_ok hs]
    exact hp.miss.insert h fun _ => rfl
  | operandFault h hs hx ih => cases hr
  | unary h hs hx ih =>
    have hp₁ := ih (trimmed_operand hs) hc.miss rfl hp.miss
    rw [placesOf_of_ok hs, Split.operands, List.flatMap_singleton]
    exact hp₁.insert (hx.absent (length_operand hs) h) fun _ => rfl
  | leftFault h hs hx ih => cases hr
  | rightFault h hs hx hy ihx ihy => cases hr
  | binary h hs hx hy ihx ihy =>
    have hp₁ := ihx (trimmed_left hs) hc.miss rfl hp.miss
    have hp₂ := ihy (trimmed_right hs) (hx.closed (trimmed_left hs) hc.miss) rfl hp₁
    have hleft := hx.absent (length_left hs) h
    rw [List.append_assoc] at hp₂
    rw [placesOf_of_ok hs, Split.operands, List.flatMap_cons, List.flatMap_singleton]
    exact hp₂.insert (hy.absent (length_right hs) hleft) fun _ => rfl

end Records

section Apart

theorem holds_of_holds_insert {t : String} {x : Shared} {depth height : Depth}
    {node : Mark → Shared} (h : (c.insert f depth height node).2.Holds t x) :
    c.Holds t x ∨ t = f ∧ x = node ⟨c.nextIdentity, depth⟩ := by
  obtain ⟨height', h⟩ := h
  rcases find?_of_find?_insert h with hold | ⟨ht, hnew⟩
  · exact .inl ⟨height', hold⟩
  · exact .inr ⟨ht, (Prod.mk.inj hnew).1⟩

theorem apart_empty : empty.Apart := by
  rintro t t' x x' ⟨height, h⟩ - -
  rw [find?_empty] at h
  cases h

theorem Apart.miss (ha : c.Apart) : c.miss.Apart := ha

theorem Apart.insert (ha : c.Apart) (hc : c.Coherent) {depth height : Depth}
    {node : Mark → Shared} (hmark : ∀ m, (node m).mark = m) :
    (c.insert f depth height node).2.Apart := by
  have hnew : identity (node ⟨c.nextIdentity, depth⟩) = c.nextIdentity := by
    rw [identity, hmark]
  have hold {t : String} {x : Shared} (h : c.Holds t x) : identity x ≠ c.nextIdentity := by
    obtain ⟨height, h⟩ := h
    exact Nat.ne_of_lt (hc.lt x (subset_nodes h x (self_mem_subformulas x)))
  intro t t' x x' h h' heq
  rcases holds_of_holds_insert h with hx | ⟨rfl, rfl⟩
  · rcases holds_of_holds_insert h' with hx' | ⟨rfl, rfl⟩
    · exact ha t t' x x' hx hx' heq
    · exact absurd (heq.trans hnew) (hold hx)
  · rcases holds_of_holds_insert h' with hx' | ⟨rfl, rfl⟩
    · exact absurd (heq.symm.trans hnew) (hold hx')
    · rfl

theorem Run.apart (h : Run d f c r c') (hc : c.Coherent) (ha : c.Apart) : c'.Apart := by
  induction h with
  | hit h => exact ha
  | fault h hs => exact ha
  | badToken h hs ht => exact ha
  | leaf h hs ht => exact ha.miss.insert hc.miss fun _ => rfl
  | operandFault h hs hx ih => exact ih hc.miss ha.miss
  | unary h hs hx ih => exact (ih hc.miss ha.miss).insert (hx.coherent hc.miss) fun _ => rfl
  | leftFault h hs hx ih => exact ih hc.miss ha.miss
  | rightFault h hs hx hy ihx ihy => exact ihy (hx.coherent hc.miss) (ihx hc.miss ha.miss)
  | binary h hs hx hy ihx ihy =>
    have hc₁ := hx.coherent hc.miss
    exact (ihy hc₁ (ihx hc.miss ha.miss)).insert (hy.coherent hc₁) fun _ => rfl

end Apart

section Fresh

variable {shared x : Shared} {reached : Depth} {path : List Nat}

theorem run_read_empty (h : (empty.read f d).1 = .ok (shared, reached)) :
    Run d (trimmed f.toList) empty (.ok (shared, reached)) (empty.read f d).2 := by
  have hrun := run_read empty f d
  rwa [h] at hrun

theorem closed_read_empty (f : String) (d : Depth) : (empty.read f d).2.Closed :=
  (run_read empty f d).closed (trimmed_trimmed f.toList) (closed_after [])

theorem exists_textAt_read_empty (h : (empty.read f d).1 = .ok (shared, reached))
    (hx : shared.at? path = some x) :
    ∃ t, textAt? path (trimmed f.toList) = some t ∧ (empty.read f d).2.Holds t x :=
  (closed_read_empty f d).exists_textAt (run_read_empty h).find?_answer hx

theorem lookup_placesOf_read_empty {t : String} (h : (empty.read f d).1 = .ok (shared, reached))
    (hx : (empty.read f d).2.Holds t x) :
    (placesOf (trimmed f.toList) d).lookup t = some x.mark.depth := by
  have hrecords := (run_read_empty h).records (trimmed_trimmed f.toList) (closed_after []) rfl
    records_empty
  exact (hrecords t).symm.trans hx.depthOf?

end Fresh

/-- What the node at a place of `f` records: the depth that the text of the place has in the plain
parse where it occurs first. It is the exact one as long as depths fit a word. -/
def RecordsFirst (f : String) (d : Depth) (plain : Formula Depth) (path : List Nat) (x : Shared) :
    Prop :=
  ∃ t first y, textAt? path f = some t ∧ FirstPlace f t first ∧ plain.at? first = some y ∧
    x.SameShape y ∧ y.mark = d + .ofNat first.length ∧ x.mark.depth = d + .ofNat first.length ∧
    (d.toNat + plain.height < UInt64.size → x.mark.depth.toNat = d.toNat + first.length)

theorem RecordsFirst.depth {t : String} {plain : Formula Depth} {path : List Nat} {x : Shared}
    {depth : Depth} (h : RecordsFirst f d plain path x) (ht : textAt? path f = some t)
    (hlookup : (placesOf f d).lookup t = some depth) : x.mark.depth = depth := by
  obtain ⟨t', first, -, ht', hfirst, -, -, -, hdepth, -⟩ := h
  obtain rfl := Option.some.inj (ht.symm.trans ht')
  exact hdepth.trans (Option.some.inj ((hfirst.lookup_placesOf d).symm.trans hlookup))

end ManyValued.Cache
