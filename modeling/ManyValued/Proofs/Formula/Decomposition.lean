import ManyValued.Proofs.Cache.Run
import ManyValued.Proofs.Formula.Counting
import ManyValued.Proofs.Formula.Places

/-! What becomes of the characters of a text when a layer is cut from it. The connective and the
operands are pieces of the text, in order, and between them is white space only; around all of them
there may be one pair of parentheses. Since the connective is a piece too, every operand is shorter
than the text, so both readers come to an end on any text, whether or not it is a formula. -/

namespace ManyValued

inductive Unary.Spells : Unary → List Char → Prop
  | neg : Spells .neg ['¬']
  | delta {k : UInt32} {digits : List Char} (hne : digits ≠ [])
      (hd : ∀ c ∈ digits, c.isDigit = true) (hk : Nat.ofDigitChars 10 digits 0 = k.toNat) :
      Spells (.delta k) ('δ' :: '_' :: digits)

/-- The pieces of a layer put together give the text. -/
inductive Decomposes : List Char → Split → Prop
  | leaf (token : String) : Decomposes token.toList (.leaf token)
  | unary {u symbol v w : List Char} {op : Unary} {operand : String} (hs : op.Spells symbol)
      (hu : Blank u) (hv : Blank v) (hw : Blank w) :
      Decomposes (u ++ symbol ++ v ++ operand.toList ++ w) (.unary op operand)
  | binary {t u v w : List Char} {op : Binary} {left right : String}
      (hleft : Sheltered left.toList) (ht : Blank t) (hu : Blank u) (hv : Blank v) (hw : Blank w) :
      Decomposes (t ++ left.toList ++ u ++ op.symbol.toList ++ v ++ right.toList ++ w)
        (.binary op left right)

/-- All characters of a text are accounted for by a layer whose operands are trimmed and shorter. -/
structure Split.Accounts (layer : Split) (text : List Char) : Prop where
  pieces : ∃ inner, (text = inner ∨ text = '(' :: inner ++ [')']) ∧ Decomposes inner layer
  trimmed : ∀ x ∈ layer.operands, trim x.toList = x.toList
  shorter : ∀ x ∈ layer.operands, x.length < text.length

section Pieces

variable {s : List Char} {f : String} {layer : Split}

theorem exists_trimmed (s : List Char) :
    ∃ u v, Blank u ∧ Blank v ∧ s = u ++ (trimmed s).toList ++ v := by
  rw [toList_trimmed]
  exact exists_trim s

theorem Quiet.trim (h : Quiet s) : Quiet (trim s) := by
  obtain ⟨u, v, hu, hv, hs⟩ := exists_trim s
  rw [hs, List.append_assoc, Quiet, hu.quiet.nesting_append] at h
  obtain ⟨e, he, hrest⟩ := Quiet.exists_nesting h
  rw [hv.nesting] at hrest
  rw [Quiet, he, hrest]

theorem spells_delta {ds : List Char} (hne : ds ≠ []) (hd : ∀ c ∈ ds, c.isDigit = true)
    (hlt : Nat.ofDigitChars 10 ds 0 < UInt32.size) :
    (Unary.delta (UInt32.ofNat (Nat.ofDigitChars 10 ds 0))).Spells ('δ' :: '_' :: ds) :=
  .delta hne hd (UInt32.toNat_ofNat_of_lt' hlt).symm

theorem decomposes_unary {before symbol : List Char} {op : Unary} (hb : Blank before)
    (hs : op.Spells symbol) (rest : List Char) :
    Decomposes (before ++ symbol ++ rest) (.unary op (trimmed rest)) := by
  obtain ⟨v, w, hv, hw, hrest⟩ := exists_trimmed rest
  have h : Decomposes (before ++ symbol ++ v ++ (trimmed rest).toList ++ w)
      (.unary op (trimmed rest)) := .unary hs hb hv hw
  rwa [List.append_assoc _ v, List.append_assoc _ _ w, ← hrest] at h

theorem decomposes_binary {before : List Char} (hq : Quiet before) (op : Binary)
    (rest : List Char) :
    Decomposes (before ++ op.symbol.toList ++ rest)
      (.binary op (trimmed before) (trimmed rest)) := by
  obtain ⟨t, u, ht, hu, hbefore⟩ := exists_trimmed before
  obtain ⟨v, w, hv, hw, hrest⟩ := exists_trimmed rest
  have hleft : Sheltered (trimmed before).toList := by
    rw [toList_trimmed]
    exact hq.trim.sheltered
  have h : Decomposes (t ++ (trimmed before).toList ++ u ++ op.symbol.toList ++ v ++
      (trimmed rest).toList ++ w) (.binary op (trimmed before) (trimmed rest)) :=
    .binary hleft ht hu hv hw
  rwa [← hbefore, List.append_assoc _ v, List.append_assoc _ _ w, ← hrest] at h

theorem CutsTo.decomposes (h : CutsTo s layer) : Decomposes s layer := by
  obtain ⟨before, c, after, rfl, hq, hc, hcut⟩ := h
  rcases cases_of_cut hc hcut with ⟨rfl, hb, rfl⟩ | ⟨rfl, hb, hdelta⟩ | ⟨op, rest, hafter, rfl⟩
  · have h := decomposes_unary hb .neg after
    rwa [List.append_assoc] at h
  · obtain ⟨ds, rest, rfl, hne, hd, -, hlt, -, rfl⟩ := cases_of_cutDelta hdelta
    have h := decomposes_unary hb (spells_delta hne hd hlt) rest
    rwa [List.append_assoc] at h
  · rw [hafter, ← List.append_assoc]
    exact decomposes_binary hq op rest

theorem accounts_of_ofText (h : Split.ofText f = .ok layer) :
    layer.Accounts (trim f.toList) where
  pieces := by
    obtain ⟨inner, htext, rfl | hcuts⟩ := cases_of_ofText h
    · have hleaf := Decomposes.leaf (String.ofList inner)
      rw [String.toList_ofList] at hleaf
      exact ⟨inner, htext, hleaf⟩
    · exact ⟨inner, htext, hcuts.decomposes⟩
  trimmed := by
    intro x hx
    rw [← toList_trimmed, trimmed_of_mem_operands h x hx]
  shorter := length_operand_lt h

/-- Trimming does not make a text longer, so it can be done on the way. -/
theorem wellFounded_operands_trimmed :
    WellFounded fun x f => x ∈ operandsOf (trimmed f.toList) := by
  refine Subrelation.wf (fun {x f} hx => ?_) (measure String.length).wf
  have htrim : (trimmed f.toList).length ≤ f.length := by
    rw [← String.length_toList]
    exact length_trimmed_le f.toList
  exact Nat.lt_of_lt_of_le (length_lt_of_mem_operandsOf hx) htrim

end Pieces

namespace Formula

/-- How the text `f` is read with its root at depth `d`, and the answer. -/
inductive Run : Depth → String → Except Error (Formula Depth × Depth) → Prop
  | fault {d : Depth} {f : String} {e : Error} (hs : Split.ofText f = .error e) : Run d f (.error e)
  | badToken {d : Depth} {f token : String} {e : Error} (hs : Split.ofText f = .ok (.leaf token))
      (ht : Outline.readLeaf f token d = .error e) : Run d f (.error e)
  | leaf {d : Depth} {f token : String} {node : Formula Depth}
      (hs : Split.ofText f = .ok (.leaf token))
      (ht : Outline.readLeaf f token d = .ok node) : Run d f (.ok (node, d))
  | operandFault {d : Depth} {f operand : String} {op : Unary} {e : Error}
      (hs : Split.ofText f = .ok (.unary op operand)) (hx : Run (d + 1) operand (.error e)) :
      Run d f (.error e)
  | unary {d deepest : Depth} {f operand : String} {op : Unary} {x : Formula Depth}
      (hs : Split.ofText f = .ok (.unary op operand))
      (hx : Run (d + 1) operand (.ok (x, deepest))) : Run d f (.ok (.unary d op x, deepest))
  | leftFault {d : Depth} {f left right : String} {op : Binary} {e : Error}
      (hs : Split.ofText f = .ok (.binary op left right)) (hx : Run (d + 1) left (.error e)) :
      Run d f (.error e)
  | rightFault {d deepest : Depth} {f left right : String} {op : Binary} {x : Formula Depth}
      {e : Error} (hs : Split.ofText f = .ok (.binary op left right))
      (hx : Run (d + 1) left (.ok (x, deepest))) (hy : Run (d + 1) right (.error e)) :
      Run d f (.error e)
  | binary {d deepestLeft deepestRight : Depth} {f left right : String} {op : Binary}
      {x y : Formula Depth} (hs : Split.ofText f = .ok (.binary op left right))
      (hx : Run (d + 1) left (.ok (x, deepestLeft)))
      (hy : Run (d + 1) right (.ok (y, deepestRight))) :
      Run d f (.ok (.binary d op x y, max deepestLeft deepestRight))

theorem run_ofText (d : Depth) (f : String) : Run d f (ofText f d).outcome := by
  induction f using operands_induction generalizing d with
  | h f ih =>
    cases hs : Split.ofText f with
    | error e =>
      rw [outcome_of_error hs]
      exact .fault hs
    | ok layer =>
      rw [operandsOf_of_ok hs] at ih
      cases layer with
      | leaf token =>
        rw [outcome_of_leaf hs]
        cases ht : Outline.readLeaf f token d with
        | error e => exact .badToken hs ht
        | ok node => exact .leaf hs ht
      | unary op operand =>
        have hx := ih operand (List.mem_singleton_self operand) (d + 1)
        rw [outcome_of_unary hs]
        generalize (ofText operand (d + 1)).outcome = r at hx ⊢
        obtain e | ⟨x, deepest⟩ := r
        · exact .operandFault hs hx
        · exact .unary hs hx
      | binary op left right =>
        have hx := ih left (List.mem_cons_self ..) (d + 1)
        have hy := ih right (List.mem_cons_of_mem _ (List.mem_singleton_self right)) (d + 1)
        rw [outcome_of_binary hs]
        generalize (ofText left (d + 1)).outcome = r at hx ⊢
        obtain e | ⟨x, deepestLeft⟩ := r
        · exact .leftFault hs hx
        · rw [ok_bind]
          generalize (ofText right (d + 1)).outcome = r at hy ⊢
          obtain e | ⟨y, deepestRight⟩ := r
          · exact .rightFault hs hx hy
          · exact .binary hs hx hy

end Formula

/-- The search for the parenthesis that closes the first never lowers its counter below zero. A text
that is cut falls into the pieces of its layer, and no operand is as long as the text. There is no
endless descent from texts to their operands, with or without trimming on the way, so both readers
come to an end on every text. -/
theorem layers_decompose_texts :
    (∀ text, stripCounting text = some (stripEnclosing text)) ∧
    (∀ f layer, Split.ofText f = .ok layer → layer.Accounts (trim f.toList)) ∧
    (WellFounded fun x f => x ∈ operandsOf f) ∧
    (WellFounded fun x f => x ∈ operandsOf (trimmed f.toList)) ∧
    (∀ f d, Formula.Run d f (Formula.ofText f d).outcome) ∧
    ∀ c f d, Cache.Run d (trimmed f.toList) c (Cache.read c f d).1 (Cache.read c f d).2 := by
  exact ⟨stripCounting_eq, fun _ _ => accounts_of_ofText, wellFounded_operands,
    wellFounded_operands_trimmed, fun f d => Formula.run_ofText d f, Cache.run_read⟩

/-- The pair of parentheses that encloses the text is dropped, the others stay. -/
theorem layers_decompose_texts_enclosed :
    Split.ofText " ( (A⊙B) ⊕(δ_07 C) ) " = .ok (.binary .disj "(A⊙B)" "(δ_07 C)") ∧
      (Split.binary .disj "(A⊙B)" "(δ_07 C)").Accounts "( (A⊙B) ⊕(δ_07 C) )".toList := by
  have h : Split.ofText " ( (A⊙B) ⊕(δ_07 C) ) " = .ok (.binary .disj "(A⊙B)" "(δ_07 C)") := by
    decide +kernel
  have htrim : trim " ( (A⊙B) ⊕(δ_07 C) ) ".toList = "( (A⊙B) ⊕(δ_07 C) )".toList := by
    decide +kernel
  have haccounts := layers_decompose_texts.2.1 _ _ h
  rw [htrim] at haccounts
  exact ⟨h, haccounts⟩

end ManyValued
