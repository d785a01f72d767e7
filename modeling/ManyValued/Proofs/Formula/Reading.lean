import ManyValued.Formula.Outline
import ManyValued.Proofs.Formula.Layer
import ManyValued.Proofs.Outcome

/-! Reading follows the grammar. A formula that derives a tree is read as that tree, by induction on
the derivation; a formula that is read derives the tree it is read as, by induction on its layers;
and every other formula is invalid. -/

namespace ManyValued

variable {f g : String} {layer : Split} {op : Unary} {bop : Binary} {token left right : String}

section Outcome

variable {e : Error}

theorem outcome_of_error (h : Split.ofText f = .error e) (d : Depth) :
    (Formula.ofText f d).outcome = .error e := by
  rw [Formula.ofText, Outline.ofText_eq, h]
  rfl

theorem outcome_of_leaf (h : Split.ofText f = .ok (.leaf token)) (d : Depth) :
    (Formula.ofText f d).outcome =
      Outline.readLeaf f token d >>= fun node => .ok (node, d) := by
  rw [Formula.ofText, Outline.ofText_eq, h]
  simp only [Outline.build, Attempt.outcome_bind, Attempt.outcome_lift, ok_bind,
    Attempt.outcome_ofExcept, Attempt.outcome_pure]

theorem outcome_of_unary (h : Split.ofText f = .ok (.unary op left)) (d : Depth) :
    (Formula.ofText f d).outcome =
      (Formula.ofText left (d + 1)).outcome >>= fun x => .ok (.unary d op x.1, x.2) := by
  rw [Formula.ofText, Outline.ofText_eq, h]
  simp only [Outline.build, Attempt.outcome_bind, Attempt.outcome_lift, ok_bind,
    Attempt.outcome_pure, Formula.ofText]

theorem outcome_of_binary (h : Split.ofText f = .ok (.binary bop left right)) (d : Depth) :
    (Formula.ofText f d).outcome =
      (Formula.ofText left (d + 1)).outcome >>= fun x =>
        (Formula.ofText right (d + 1)).outcome >>= fun y =>
          .ok (.binary d bop x.1 y.1, max x.2 y.2) := by
  rw [Formula.ofText, Outline.ofText_eq, h]
  simp only [Outline.build, Attempt.outcome_bind, Attempt.outcome_lift, ok_bind,
    Attempt.outcome_pure, Formula.ofText]

theorem readLeaf_of_token {μ : Type} (h : isAtom token = true ∨ isConstant token = true)
    (f : String) (m : μ) : Outline.readLeaf f token m = .ok (.leaf m token) := by
  rw [Outline.readLeaf, if_pos (by rwa [Bool.or_eq_true])]

theorem readLeaf_eq_ok {μ : Type} {m : μ} {node : Formula μ}
    (h : Outline.readLeaf f token m = .ok node) :
    (isAtom token = true ∨ isConstant token = true) ∧ node = .leaf m token := by
  unfold Outline.readLeaf at h
  split at h
  · rename_i ht
    exact ⟨by rwa [Bool.or_eq_true] at ht, (Except.ok.inj h).symm⟩
  · cases h

end Outcome

/-- At every depth the formula is read as a node of the given shape. -/
def Reads (f : String) (t : Formula Unit) : Prop :=
  ∀ d, ∃ node deepest, (Formula.ofText f d).outcome = .ok (node, deepest) ∧ node.shape = t

inductive Split.Reads : Split → Formula Unit → Prop
  | leaf {a : String} (ha : isAtom a = true ∨ isConstant a = true) :
      Split.Reads (.leaf a) (.leaf () a)
  | unary {op : Unary} {x : String} {t : Formula Unit} (hx : ManyValued.Reads x t) :
      Split.Reads (.unary op x) (.unary () op t)
  | binary {op : Binary} {x y : String} {l r : Formula Unit} (hx : ManyValued.Reads x l)
      (hy : ManyValued.Reads y r) : Split.Reads (.binary op x y) (.binary () op l r)

section Complete

variable {s : List Char} {t : Formula Unit}

theorem reads_of_layer (h : Split.ofText f = .ok layer) (hl : layer.Reads t) : Reads f t := by
  intro d
  cases hl with
  | leaf ha => exact ⟨_, _, by rw [outcome_of_leaf h, readLeaf_of_token ha, ok_bind], rfl⟩
  | unary hl =>
    obtain ⟨x, deepest, hx, rfl⟩ := hl (d + 1)
    exact ⟨_, _, by rw [outcome_of_unary h, hx, ok_bind], rfl⟩
  | binary hl hr =>
    obtain ⟨x, dx, hx, rfl⟩ := hl (d + 1)
    obtain ⟨y, dy, hy, rfl⟩ := hr (d + 1)
    exact ⟨_, _, by rw [outcome_of_binary h, hx, ok_bind, hy, ok_bind], rfl⟩

/-- Only the errors of two texts that are trimmed to the same can differ. -/
theorem ofText_congr (hfg : trim f.toList = trim g.toList) (h : Split.ofText f = .ok layer) :
    Split.ofText g = .ok layer := by
  cases hs : stripEnclosing (trim f.toList) with
  | none =>
    simp only [Split.ofText, hs] at h
    cases h
  | some inner =>
    have hg : stripEnclosing (trim g.toList) = some inner := by rw [← hfg, hs]
    simp only [Split.ofText, hs] at h
    simp only [Split.ofText, hg]
    split at h
    · cases h
    · exact h
    · split at h
      · exact h
      · cases h

theorem exists_layer (h : Reads f t) : ∃ layer, Split.ofText f = .ok layer := by
  obtain ⟨node, deepest, hn, -⟩ := h 0
  cases hs : Split.ofText f with
  | error e =>
    rw [outcome_of_error hs] at hn
    cases hn
  | ok layer => exact ⟨layer, rfl⟩

theorem reads_congr (hfg : trim f.toList = trim g.toList) (h : Reads f t) : Reads g t := by
  -- The layers agree, so what is left to read is the same; only a leaf looks at the text again.
  obtain ⟨layer, hf⟩ := exists_layer h
  have hg : Split.ofText g = .ok layer := ofText_congr hfg hf
  intro d
  obtain ⟨node, deepest, hn, ht⟩ := h d
  refine ⟨node, deepest, ?_, ht⟩
  cases layer with
  | leaf token =>
    rw [outcome_of_leaf hf] at hn
    obtain ⟨x, hx, hn⟩ := bind_eq_ok_iff.1 hn
    obtain ⟨ha, rfl⟩ := readLeaf_eq_ok hx
    rw [outcome_of_leaf hg, ← hn, readLeaf_of_token ha, ok_bind]
  | unary op left => rw [outcome_of_unary hg, ← outcome_of_unary hf, hn]
  | binary op left right => rw [outcome_of_binary hg, ← outcome_of_binary hf, hn]

theorem Reads.trimmed (h : Reads (String.ofList s) t) : Reads (trimmed s) t := by
  refine reads_congr ?_ h
  rw [toList_trimmed, trim_trim, String.toList_ofList]

/-- What a derivation of either form says of reading. A bare text may yet be put in parentheses, so
for it the layer is what counts. -/
def Form.Reads : Form → List Char → Formula Unit → Prop
  | .closed, s, t => ManyValued.Reads (String.ofList s) t
  | .bare, s, t => ∃ layer, CutsTo s layer ∧ layer.Reads t

theorem Form.Reads.reads {form : Form} (h : form.Reads s t) :
    ManyValued.Reads (String.ofList s) t := by
  cases form with
  | closed => exact h
  | bare =>
    obtain ⟨layer, hs, hl⟩ := h
    refine reads_of_layer (ofText_of_cutsTo ?_) hl
    rwa [String.toList_ofList]

theorem cutsTo_binary {p : List Char} (op : Binary) (hp : Quiet p) (s : List Char) :
    CutsTo (p ++ (op.symbol.toList ++ s)) (.binary op (trimmed p) (trimmed s)) := by
  obtain ⟨c, cs, h, hc⟩ := symbol_eq_cons op
  have hs : c :: (cs ++ s) = op.symbol.toList ++ s := by rw [h, List.cons_append]
  exact ⟨p, c, cs ++ s, by rw [hs], hp, hc, cut_binary hs p⟩

theorem Derives.reads {form : Form} (h : Derives form s t) : form.Reads s t := by
  induction h with
  | @leaf u v a hu hv ha =>
    have h1 : Split.ofText (String.ofList (u ++ (a.toList ++ v))) =
        .ok (.leaf (String.ofList a.toList)) :=
      ofText_plain String.toList_ofList hu hv fun c hc => isAlphanum_of_mem ha hc
    rw [String.ofList_toList] at h1
    exact reads_of_layer h1 (.leaf ha)
  | @leafParens u v a hu hv ha =>
    have h1 : Split.ofText (String.ofList (u ++ ('(' :: a.toList ++ [')']) ++ v)) =
        .ok (.leaf (String.ofList a.toList)) :=
      ofText_plainParens String.toList_ofList hu hv (quiet_token ha)
    rw [String.ofList_toList] at h1
    exact reads_of_layer h1 (.leaf ha)
  | @neg _ u s t hu hs ih =>
    exact ⟨_, ⟨u, negSymbol, s, rfl, hu.quiet, by decide, cut_neg hu s⟩, .unary ih.reads.trimmed⟩
  | @delta _ u ds s t hu hne hd hpos hlt hs hh ih =>
    refine ⟨_, ⟨u, deltaSymbol, _, rfl, hu.quiet, by decide, ?_⟩, .unary ih.reads.trimmed⟩
    rw [cut_delta hu, cutDelta_digits hd hh, if_neg (by simpa using hne),
      if_neg (Nat.not_le_of_lt hlt), if_neg (by omega)]
  | @binary _ p s l r op hp hs ihp ihs =>
    exact ⟨_, cutsTo_binary op hp.quiet s, .binary ihp.reads.trimmed ihs.reads.trimmed⟩
  | parens hu hv hs ih =>
    obtain ⟨layer, hcut, hl⟩ := ih
    exact reads_of_layer (ofText_parens String.toList_ofList hu hv hs.balanced hcut) hl

end Complete

section Sound

variable {s : List Char} {t l r : Formula Unit} {form form' : Form}

theorem Derives.of_trimmed (h : Derives form (trimmed s).toList t) : Derives form s t := by
  obtain ⟨u, v, hu, hv, hs⟩ := exists_trim s
  rw [toList_trimmed] at h
  rw [hs, List.append_assoc]
  exact h.between hu hv

theorem not_cutsTo_leaf : ¬ CutsTo s (.leaf token) := by
  rintro ⟨before, c, after, -, -, hc, hcut⟩
  rcases cases_of_cut hc hcut with ⟨-, -, h⟩ | ⟨-, -, h⟩ | ⟨op, rest, -, h⟩
  · cases h
  · obtain ⟨ds, rest, -, -, -, -, -, -, h⟩ := cases_of_cutDelta h
    cases h
  · cases h

theorem bare_of_unary (h : CutsTo s (.unary op left)) (hl : Derives form left.toList t) :
    Derives .bare s (.unary () op t) := by
  obtain ⟨before, c, after, rfl, hq, hc, hcut⟩ := h
  rcases cases_of_cut hc hcut with ⟨rfl, hb, h⟩ | ⟨rfl, hb, h⟩ | ⟨op, rest, -, h⟩
  · obtain ⟨rfl, rfl⟩ := Split.unary.inj h
    exact .neg hb hl.of_trimmed
  · obtain ⟨ds, rest, rfl, hne, hd, hpos, hlt, hr, h⟩ := cases_of_cutDelta h
    obtain ⟨rfl, rfl⟩ := Split.unary.inj h
    exact .delta hb hne hd hpos hlt hl.of_trimmed hr
  · cases h

theorem bare_of_binary (h : CutsTo s (.binary bop left right))
    (hl : Derives form left.toList l) (hr : Derives form' right.toList r) :
    Derives .bare s (.binary () bop l r) := by
  obtain ⟨before, c, after, rfl, hq, hc, hcut⟩ := h
  rcases cases_of_cut hc hcut with ⟨-, -, h⟩ | ⟨-, -, h⟩ | ⟨op, rest, ho, h⟩
  · cases h
  · obtain ⟨ds, rest, -, -, -, -, -, -, h⟩ := cases_of_cutDelta h
    cases h
  · obtain ⟨rfl, rfl, rfl⟩ := Split.binary.inj h
    rw [ho]
    -- The left operand has no connective outside its parentheses, so it is not a bare text.
    exact .binary bop (hl.of_trimmed.closed_of_quiet hq) hr.of_trimmed

theorem derivesTree_of_bare {u v : List Char} (hu : Blank u) (hv : Blank v)
    (ht : f.toList = u ++ (s ++ v) ∨ f.toList = u ++ ('(' :: s ++ [')']) ++ v)
    (hs : Derives .bare s t) : DerivesTree f t := by
  rcases ht with ht | ht
  · refine ⟨.bare, ?_⟩
    rw [ht]
    exact hs.between hu hv
  · refine ⟨.closed, ?_⟩
    rw [ht]
    exact .parens hu hv hs

theorem derivesTree_of_leaf (h : Split.ofText f = .ok (.leaf token))
    (ha : isAtom token = true ∨ isConstant token = true) : DerivesTree f (.leaf () token) := by
  obtain ⟨u, s, v, hu, hv, ht, hl | hl⟩ := exists_of_ofText h
  · obtain rfl := Split.leaf.inj hl
    have hs : s = (String.ofList s).toList := String.toList_ofList.symm
    rw [hs] at ht
    rcases ht with ht | ht
    · exact ⟨.closed, by rw [ht]; exact .leaf hu hv ha⟩
    · exact ⟨.closed, by rw [ht]; exact .leafParens hu hv ha⟩
  · exact absurd hl not_cutsTo_leaf

theorem derivesTree_of_unary (h : Split.ofText f = .ok (.unary op left))
    (hl : DerivesTree left t) : DerivesTree f (.unary () op t) := by
  obtain ⟨form, hl⟩ := hl
  obtain ⟨u, s, v, hu, hv, ht, hs | hs⟩ := exists_of_ofText h
  · cases hs
  · exact derivesTree_of_bare hu hv ht (bare_of_unary hs hl)

theorem derivesTree_of_binary (h : Split.ofText f = .ok (.binary bop left right))
    (hl : DerivesTree left l) (hr : DerivesTree right r) :
    DerivesTree f (.binary () bop l r) := by
  obtain ⟨form, hl⟩ := hl
  obtain ⟨form', hr⟩ := hr
  obtain ⟨u, s, v, hu, hv, ht, hs | hs⟩ := exists_of_ofText h
  · cases hs
  · exact derivesTree_of_bare hu hv ht (bare_of_binary hs hl hr)

/-- A formula is read as a tree that it derives, or it is invalid. -/
theorem derivesTree_or_invalid (f : String) (d : Depth) :
    (∃ node deepest, (Formula.ofText f d).outcome = .ok (node, deepest) ∧
      DerivesTree f node.shape) ∨
    ∃ text fault, (Formula.ofText f d).outcome = .error (.invalidFormula text fault) := by
  induction f using Outline.ofText.induct generalizing d with
  | case1 f e h =>
    obtain ⟨text, fault, rfl⟩ := error_of_ofText h
    exact .inr ⟨text, fault, outcome_of_error h d⟩
  | case2 f token h =>
    rw [outcome_of_leaf h, Outline.readLeaf]
    split
    · rename_i ha
      rw [Bool.or_eq_true] at ha
      exact .inl ⟨_, _, rfl, derivesTree_of_leaf h ha⟩
    · exact .inr ⟨_, _, rfl⟩
  | case3 f op operand h _ ih =>
    rw [outcome_of_unary h]
    rcases ih (d + 1) with ⟨x, deepest, hx, ht⟩ | ⟨text, fault, he⟩
    · exact .inl ⟨.unary d op x, deepest, by rw [hx, ok_bind], derivesTree_of_unary h ht⟩
    · exact .inr ⟨text, fault, by rw [he, error_bind]⟩
  | case4 f op left right h _ _ ihl ihr =>
    rw [outcome_of_binary h]
    rcases ihl (d + 1) with ⟨x, dx, hx, hl⟩ | ⟨text, fault, he⟩
    · rcases ihr (d + 1) with ⟨y, dy, hy, hr⟩ | ⟨text, fault, he⟩
      · exact .inl ⟨.binary d op x y, max dx dy, by rw [hx, ok_bind, hy, ok_bind],
          derivesTree_of_binary h hl hr⟩
      · exact .inr ⟨text, fault, by rw [hx, ok_bind, he, error_bind]⟩
    · exact .inr ⟨text, fault, by rw [he, error_bind]⟩

end Sound

theorem DerivesTree.reads {t : Formula Unit} (h : DerivesTree f t) : Reads f t := by
  obtain ⟨form, h⟩ := h
  have h1 := h.reads.reads
  rwa [String.ofList_toList] at h1

theorem derivesTree_of_outcome {d deepest : Depth} {node : Formula Depth}
    (h : (Formula.ofText f d).outcome = .ok (node, deepest)) : DerivesTree f node.shape := by
  rcases derivesTree_or_invalid f d with ⟨x, dx, hx, ht⟩ | ⟨text, fault, he⟩
  · rw [h] at hx
    obtain ⟨rfl, -⟩ := Prod.mk.inj (Except.ok.inj hx)
    exact ht
  · rw [h] at he
    cases he

theorem DerivesTree.unique {t t' : Formula Unit} (h : DerivesTree f t) (h' : DerivesTree f t') :
    t = t' := by
  obtain ⟨x, dx, hx, rfl⟩ := h.reads 0
  obtain ⟨y, dy, hy, rfl⟩ := h'.reads 0
  rw [hx] at hy
  obtain ⟨rfl, -⟩ := Prod.mk.inj (Except.ok.inj hy)
  rfl

end ManyValued
