import ManyValued.Proofs.Cache.Texts
import Mathlib.Algebra.BigOperators.Group.Finset.Piecewise
import Mathlib.Algebra.BigOperators.Ring.Finset

/-! What a cache counts. Every text that is read is looked up once, and its operands are read only
where it had no entry; so each miss of a reading that succeeds is followed by one new entry, and the
look-ups are those of the formula and of the operands of what is new. A reading that fails has
missed the text that it failed at without storing it. So the entries are as many as the misses until
the first failure, and fewer from then on. -/

namespace ManyValued.Cache

def lookups (c : Cache) : Nat := c.hits + c.misses

def operandCount (c : Cache) : Nat := ∑ t ∈ c.texts, (operandsOf t).length

/-- A reading that succeeds stores as often as it misses, and looks up its formula and the operands
of what it stores; one that fails misses more often than it stores. -/
def Accounts (c c' : Cache) : Except Error (Shared × Depth) → Prop
  | .ok _ => c'.size + c.misses = c.size + c'.misses ∧
      c'.lookups + c.operandCount = c.lookups + 1 + c'.operandCount
  | .error _ => c'.size + c.misses < c.size + c'.misses

variable {c c' : Cache} {d : Depth} {f : String} {r : Except Error (Shared × Depth)}

section Insert

variable {depth height : Depth} {node : Mark → Shared}

theorem size_insert (h : c.find? f = none) :
    (c.insert f depth height node).2.size = c.size + 1 := by
  rw [← card_texts, texts_insert, Finset.card_insert_of_notMem (notMem_texts.2 h), card_texts]

theorem operandCount_insert (h : c.find? f = none) :
    (c.insert f depth height node).2.operandCount = c.operandCount + (operandsOf f).length := by
  rw [operandCount, texts_insert, Finset.sum_insert (notMem_texts.2 h), Nat.add_comm, operandCount]

end Insert

section Counts

@[simp] theorem size_hit (c : Cache) : c.hit.size = c.size := rfl

@[simp] theorem size_miss (c : Cache) : c.miss.size = c.size := rfl

@[simp] theorem misses_hit (c : Cache) : c.hit.misses = c.misses := rfl

@[simp] theorem misses_miss (c : Cache) : c.miss.misses = c.misses + 1 := rfl

@[simp] theorem lookups_hit (c : Cache) : c.hit.lookups = c.lookups + 1 :=
  Nat.add_right_comm c.hits 1 c.misses

@[simp] theorem lookups_miss (c : Cache) : c.miss.lookups = c.lookups + 1 := rfl

@[simp] theorem operandCount_hit (c : Cache) : c.hit.operandCount = c.operandCount := rfl

@[simp] theorem operandCount_miss (c : Cache) : c.miss.operandCount = c.operandCount := rfl

end Counts

theorem Accounts.store {c c₁ : Cache} {depth height : Depth} {node : Mark → Shared}
    {answer : Shared × Depth} (h : c₁.find? f = none)
    (hsize : c₁.size + c.misses + 1 = c.size + c₁.misses)
    (hlookups : c₁.lookups + c.operandCount =
      c.lookups + 1 + (c₁.operandCount + (operandsOf f).length)) :
    Accounts c (c₁.insert f depth height node).2 (.ok answer) := by
  rw [Accounts, size_insert h, operandCount_insert h]
  exact ⟨by rw [Nat.add_right_comm]; exact hsize, hlookups⟩

/-- The miss that comes first is not made good when an operand fails. -/
theorem Accounts.of_miss {e : Error} (h : Accounts c.miss c' (.error e)) :
    Accounts c c' (.error e) := by
  rw [Accounts] at h ⊢
  simp only [size_miss, misses_miss] at h
  omega

theorem Run.accounts (h : Run d f c r c') : Accounts c c' r := by
  induction h with
  | hit h => simp [Accounts]
  | fault h hs => simp [Accounts]
  | badToken h hs ht => simp [Accounts]
  | leaf h hs ht =>
    refine .store h ?_ ?_
    · simp [Nat.add_assoc]
    · simp [operandsOf_of_ok hs, Split.operands]
  | operandFault h hs hx ih => exact ih.of_miss
  | unary h hs hx ih =>
    obtain ⟨hsize, hlookups⟩ := ih
    simp only [size_miss, misses_miss, lookups_miss, operandCount_miss] at hsize hlookups
    refine .store (hx.absent (length_operand hs) h) hsize ?_
    rw [operandsOf_of_ok hs, hlookups]
    simp only [Split.operands, List.length_singleton]
    omega
  | leftFault h hs hx ih => exact ih.of_miss
  | rightFault h hs hx hy ihx ihy =>
    obtain ⟨hsize, -⟩ := ihx
    refine .of_miss ?_
    rw [Accounts] at ihy ⊢
    omega
  | binary h hs hx hy ihx ihy =>
    obtain ⟨hsizeLeft, hlookupsLeft⟩ := ihx
    obtain ⟨hsizeRight, hlookupsRight⟩ := ihy
    simp only [size_miss, misses_miss, lookups_miss, operandCount_miss]
      at hsizeLeft hlookupsLeft
    have hleft := hx.absent (length_left hs) h
    refine .store (hy.absent (length_right hs) hleft) (by omega) ?_
    -- The look-ups of the two operands are counted by their own readings.
    rw [operandsOf_of_ok hs]
    simp only [Split.operands, List.length_cons, List.length_nil]
    omega

section History

variable {history : List Request}

/-- A reading has failed since the cache was made or last cleared. -/
def Refused (history : List Request) : Prop :=
  ∃ earlier f d later e, history = earlier ++ .read f d :: later ∧ Request.clear ∉ later ∧
    ((after earlier).read f d).1 = .error e

theorem not_refused_nil : ¬ Refused [] := by
  rintro ⟨earlier, f, d, later, e, h, -, -⟩
  exact List.append_ne_nil_of_right_ne_nil earlier (List.cons_ne_nil _ later) h.symm

theorem not_refused_clear (history : List Request) : ¬ Refused (history ++ [.clear]) := by
  rintro ⟨earlier, f, d, later, e, h, hclear, -⟩
  rcases List.eq_nil_or_concat later with rfl | ⟨later, request, rfl⟩
  · cases (List.append_inj' h rfl).2
  · rw [List.concat_eq_append, ← List.cons_append, ← List.append_assoc] at h
    obtain ⟨-, hrequest⟩ := List.append_inj' h rfl
    simp [← hrequest] at hclear

theorem refused_read : Refused (history ++ [.read f d]) ↔
    Refused history ∨ ∃ e, ((after history).read f d).1 = .error e := by
  constructor
  · rintro ⟨earlier, f', d', later, e, h, hclear, he⟩
    rcases List.eq_nil_or_concat later with rfl | ⟨later, request, rfl⟩
    · obtain ⟨rfl, hrequest⟩ := List.append_inj' h rfl
      cases hrequest
      exact .inr ⟨e, he⟩
    · rw [List.concat_eq_append] at h hclear
      rw [← List.cons_append, ← List.append_assoc] at h
      obtain ⟨rfl, -⟩ := List.append_inj' h rfl
      exact .inl ⟨earlier, f', d', later, e, rfl,
        fun hmem => hclear (List.mem_append_left _ hmem), he⟩
  · rintro (⟨earlier, f', d', later, e, rfl, hclear, he⟩ | ⟨e, he⟩)
    · refine ⟨earlier, f', d', later ++ [.read f d], e, by simp, ?_, he⟩
      simpa using hclear
    · exact ⟨history, f, d, [], e, rfl, List.not_mem_nil, he⟩

theorem size_and_misses_after (history : List Request) :
    (after history).size ≤ (after history).misses ∧
      ((after history).size = (after history).misses ↔ ¬ Refused history) := by
  induction history using List.reverseRecOn with
  | nil => exact ⟨Nat.le_refl 0, iff_of_true rfl not_refused_nil⟩
  | append_singleton history request ih =>
    obtain ⟨hle, hiff⟩ := ih
    rw [after_concat]
    cases request with
    | clear => exact ⟨Nat.le_refl 0, iff_of_true rfl (not_refused_clear history)⟩
    | read f d =>
      have h := (run_read (after history) f d).accounts
      rw [serve, refused_read, not_or, ← hiff]
      cases hr : ((after history).read f d).1 with
      | ok answer =>
        obtain ⟨hsize, -⟩ := hr ▸ h
        simp only [reduceCtorEq, exists_false, not_false_eq_true, and_true]
        omega
      | error e =>
        have hsize : _ < _ := hr ▸ h
        simp only [Except.error.injEq, exists_eq', not_true_eq_false, and_false, iff_false]
        omega

end History

/-- From `c` to `c'` entries and misses grow alike, and the look-ups by one and by the operands of
what is new. -/
structure Grows (c c' : Cache) : Prop where
  size : c'.size = c.size + (c'.texts \ c.texts).card
  misses : c'.misses = c.misses + (c'.texts \ c.texts).card
  lookups : c'.hits + c'.misses =
    c.hits + c.misses + (1 + ∑ t ∈ c'.texts \ c.texts, (operandsOf t).length)

/-- The different texts in a text that have `n` operands. -/
def textsWith (n : Nat) (f : String) : Finset String :=
  {t ∈ (textsOf f).toFinset | (operandsOf t).length = n}

/-- The cache counts the different texts in `f`, and a hit for each look-up but the first of a
text. -/
structure CountsTexts (c : Cache) (f : String) : Prop where
  size : c.size = (textsOf f).toFinset.card
  misses : c.misses = (textsOf f).toFinset.card
  hits : c.hits + c.size = 1 + (textsWith 1 f).card + 2 * (textsWith 2 f).card

theorem Run.grows {answer : Shared × Depth} (h : Run d f c (.ok answer) c') : Grows c c' := by
  obtain ⟨hsize, hlookups⟩ := h.accounts
  have hsub : c.texts ⊆ c'.texts := fun t ht => by
    obtain ⟨entry, hentry⟩ := mem_texts.1 ht
    exact mem_texts.2 ⟨entry, h.find?_of_find? hentry⟩
  have hcard := Finset.card_sdiff_add_card_eq_card hsub
  rw [card_texts, card_texts] at hcard
  have hsum : _ + c.operandCount = c'.operandCount := Finset.sum_sdiff hsub
  rw [lookups, lookups] at hlookups
  exact ⟨by omega, by omega, by omega⟩

theorem length_operandsOf (t : String) :
    (operandsOf t).length = 0 ∨ (operandsOf t).length = 1 ∨ (operandsOf t).length = 2 := by
  unfold operandsOf
  split
  · rename_i layer h
    cases layer <;> simp [Split.operands]
  · exact .inl rfl

theorem sum_length_operandsOf (f : String) :
    ∑ t ∈ (textsOf f).toFinset, (operandsOf t).length =
      (textsWith 1 f).card + 2 * (textsWith 2 f).card := by
  rw [textsWith, textsWith, Finset.card_filter, Finset.card_filter, Finset.mul_sum,
    ← Finset.sum_add_distrib]
  refine Finset.sum_congr rfl fun t _ => ?_
  rcases length_operandsOf t with h | h | h <;> rw [h] <;> rfl

theorem Grows.countsTexts (h : Grows empty c) (ht : c.texts = (textsOf f).toFinset) :
    c.CountsTexts f := by
  obtain ⟨hsize, hmisses, hlookups⟩ := h
  rw [texts_empty, Finset.sdiff_empty, ht] at hsize hmisses hlookups
  rw [sum_length_operandsOf] at hlookups
  have hzero : empty.size = 0 ∧ empty.misses = 0 ∧ empty.hits = 0 := ⟨rfl, rfl, rfl⟩
  exact ⟨by omega, by omega, by omega⟩

/-- After every history a reading that succeeds makes entries and misses grow alike, and the
look-ups by one and by the operands of what is new; on an empty cache it counts the different texts
of its formula. There are at most as many entries as misses, and as many exactly if no reading has
failed since the cache was made or last cleared. -/
theorem counts_after_any_history (history : List Request) :
    (∀ f d answer, ((after history).read f d).1 = .ok answer →
      (after history).Grows ((after history).read f d).2) ∧
    (∀ f d answer, (empty.read f d).1 = .ok answer →
      (empty.read f d).2.CountsTexts (trimmed f.toList)) ∧
    (after history).size ≤ (after history).misses ∧
    ((after history).size = (after history).misses ↔ ¬ Refused history) := by
  have hgrows (c : Cache) (f : String) (d : Depth) (answer : Shared × Depth)
      (h : (c.read f d).1 = .ok answer) : c.Grows (c.read f d).2 := by
    have hrun := run_read c f d
    rw [h] at hrun
    exact hrun.grows
  refine ⟨hgrows (after history), fun f d answer h => ?_, size_and_misses_after history⟩
  have htexts := (run_read empty f d).texts_eq (trimmed_trimmed f.toList) (closed_after []) h
  rw [texts_empty, Finset.empty_union] at htexts
  exact (hgrows empty f d answer h).countsTexts htexts

/-- The formula has its operand twice; the reading before it fails when it has stored two texts. -/
theorem counts_after_any_history_sharing :
    (∃ answer, (empty.read "((A⊙B)⊕(A⊙B))" 0).1 = .ok answer) ∧
    (empty.read "((A⊙B)⊕(A⊙B))" 0).2.size = 4 ∧
    (empty.read "((A⊙B)⊕(A⊙B))" 0).2.misses = 4 ∧
    (empty.read "((A⊙B)⊕(A⊙B))" 0).2.hits = 1 ∧
    (∃ answer, ((after [.read "((¬B)⊕)" 0]).read "((A⊙B)⊕(A⊙B))" 0).1 = .ok answer) ∧
    (after [.read "((¬B)⊕)" 0]).Grows
      ((after [.read "((¬B)⊕)" 0]).read "((A⊙B)⊕(A⊙B))" 0).2 ∧
    (after [.read "((¬B)⊕)" 0]).size < (after [.read "((¬B)⊕)" 0]).misses := by
  have htree : treeOf (trimmed "((A⊙B)⊕(A⊙B))".toList) = .ok (.binary () .disj
      (.binary () .conj (.leaf () "A") (.leaf () "B"))
      (.binary () .conj (.leaf () "A") (.leaf () "B"))) := by decide +kernel
  have hfault : treeOf (trimmed "((¬B)⊕)".toList) =
      .error (.invalidFormula "" (.unknownToken "")) := by decide +kernel
  have htexts : (textsOf (trimmed "((A⊙B)⊕(A⊙B))".toList)).toFinset.card = 4 := by decide +kernel
  have hunary : (textsWith 1 (trimmed "((A⊙B)⊕(A⊙B))".toList)).card = 0 := by decide +kernel
  have hbinary : (textsWith 2 (trimmed "((A⊙B)⊕(A⊙B))".toList)).card = 2 := by decide +kernel
  obtain ⟨node, reached, hread, -⟩ := (faithful_after []).exists_read htree 0
  obtain ⟨-, hcounts, -⟩ := counts_after_any_history []
  obtain ⟨hsize, hmisses, hhits⟩ := hcounts _ _ _ hread
  obtain ⟨again, reached', hagain, -⟩ := (faithful_after [.read "((¬B)⊕)" 0]).exists_read htree 0
  obtain ⟨hgrows, -, hle, hiff⟩ := counts_after_any_history [.read "((¬B)⊕)" 0]
  have hrefused : Refused [.read "((¬B)⊕)" 0] :=
    ⟨[], _, _, [], _, rfl, List.not_mem_nil, (faithful_after []).read_eq_error hfault 0⟩
  refine ⟨⟨_, hread⟩, by omega, by omega, by omega, ⟨_, hagain⟩, hgrows _ _ _ hagain, ?_⟩
  exact Nat.lt_of_le_of_ne hle fun heq => hiff.1 heq hrefused

end ManyValued.Cache
