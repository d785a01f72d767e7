import ManyValued.Proofs.Formula.Grammar

/-! One layer of a text. A text that can be cut has a first connective outside all parentheses, and
white space around the text does not change what it is cut into. The outermost parentheses count
only when they enclose the whole text. -/

namespace ManyValued

/-- A text without parentheses around it, and the layer that it is cut into. -/
def CutsTo (s : List Char) (layer : Split) : Prop :=
  ∃ before c after, s = before ++ c :: after ∧ Quiet before ∧ opensConnective c = true ∧
    cut before c after = .ok layer

section Cut

variable {u v before after : List Char} {c : Char} {layer : Split}

theorem trimmed_append_left (hu : Blank u) (s : List Char) : trimmed (u ++ s) = trimmed s := by
  rw [trimmed, trim_append_left hu, trimmed]

theorem trimmed_append_right (hv : Blank v) (s : List Char) : trimmed (s ++ v) = trimmed s := by
  rw [trimmed, trim_append_right hv, trimmed]

theorem ne_of_isBlank {d : Char} (hc : isBlank c = true) (hd : isBlank d = false) : c ≠ d := by
  rintro rfl
  rw [hc] at hd
  cases hd

theorem cutDelta_digits {ds s : List Char} (hd : ∀ c ∈ ds, c.isDigit = true)
    (hs : NoLeadingDigit s) :
    cutDelta ('_' :: (ds ++ s)) =
      if ds.isEmpty then .error .emptyScale
      else if Nat.ofDigitChars 10 ds 0 ≥ UInt32.size then .error .scaleTooLarge
      else if Nat.ofDigitChars 10 ds 0 = 0 then .error .zeroScale
      else .ok (.unary (.delta (UInt32.ofNat (Nat.ofDigitChars 10 ds 0))) (trimmed s)) := by
  simp only [cutDelta, takeWhile_isDigit_append hd hs, dropWhile_isDigit_append hd hs]

theorem cutDelta_other (hc : c ≠ '_') (s : List Char) :
    cutDelta (c :: s) = .error .missingScale := by
  unfold cutDelta
  split
  · rename_i h
    exact absurd (List.cons.inj h).1 hc
  · rfl

theorem cutDelta_append (hv : Blank v) (s : List Char) : cutDelta (s ++ v) = cutDelta s := by
  cases s with
  | nil =>
    cases v with
    | nil => rfl
    | cons c v =>
      have hc := ne_of_isBlank (d := '_') (hv c (List.mem_cons_self ..)) (by decide)
      rw [List.nil_append, cutDelta_other hc]
      rfl
  | cons c s =>
    by_cases hc : c = '_'
    · subst hc
      obtain ⟨ds, rest, rfl, hd, hr⟩ := exists_digits s
      rw [List.cons_append, List.append_assoc, cutDelta_digits hd hr,
        cutDelta_digits hd (hr.append_blank hv), trimmed_append_right hv]
    · rw [List.cons_append, cutDelta_other hc, cutDelta_other hc]

theorem ofChar?_symbol (op : Binary) : (∃ c, op.symbol.toList = [c] ∧ c ≠ negSymbol ∧
    c ≠ deltaSymbol ∧ Binary.ofChar? c = some op) ∨
    (∃ c, op.symbol.toList = [c, '='] ∧ c ≠ negSymbol ∧ c ≠ deltaSymbol ∧
      Binary.ofChar? c = none ∧ (if c = '=' then Binary.equals else .unequals) = op) := by
  cases op with
  | conj => exact .inl ⟨'⊙', rfl, by decide, by decide, rfl⟩
  | disj => exact .inl ⟨'⊕', rfl, by decide, by decide, rfl⟩
  | implies => exact .inl ⟨'⇒', rfl, by decide, by decide, rfl⟩
  | equals => exact .inr ⟨'=', rfl, by decide, by decide, rfl, rfl⟩
  | unequals => exact .inr ⟨'!', rfl, by decide, by decide, rfl, rfl⟩

theorem symbol_of_ofChar? {op : Binary} (h : Binary.ofChar? c = some op) :
    op.symbol.toList = [c] := by
  unfold Binary.ofChar? at h
  split at h
  · rename_i hc
    rw [← Option.some.inj h, hc]
    rfl
  · split at h
    · rename_i hc
      rw [← Option.some.inj h, hc]
      rfl
    · split at h
      · rename_i hc
        rw [← Option.some.inj h, hc]
        rfl
      · cases h

theorem isEmpty_trim (hb : Blank before) : (trim before).isEmpty = true := by
  rw [trim_of_blank hb]
  rfl

theorem cut_neg (hb : Blank before) (after : List Char) :
    cut before negSymbol after = .ok (.unary .neg (trimmed after)) := by
  simp only [cut, isEmpty_trim hb, if_true, true_or]

theorem cut_delta (hb : Blank before) (after : List Char) :
    cut before deltaSymbol after = cutDelta after := by
  have h : ¬ deltaSymbol = negSymbol := by decide
  simp only [cut, isEmpty_trim hb, if_true, or_true, if_neg h]

/-- A binary connective is cut at its first character, which may come with a second. -/
theorem cut_binary {op : Binary} {rest : List Char} (h : c :: after = op.symbol.toList ++ rest)
    (before : List Char) :
    cut before c after = .ok (.binary op (trimmed before) (trimmed rest)) := by
  rcases ofChar?_symbol op with ⟨d, hd, h1, h2, h3⟩ | ⟨d, hd, h1, h2, h3, h4⟩
  · rw [hd] at h
    obtain ⟨rfl, rfl⟩ := List.cons.inj h
    simp only [cut, h1, h2, or_false, if_false, h3]
  · rw [hd] at h
    obtain ⟨rfl, rfl : after = '=' :: rest⟩ := List.cons.inj h
    simp only [cut, h1, h2, or_false, if_false, h3, h4]

theorem eq_sign (hc : opensConnective c = true) (hu : ¬ (c = negSymbol ∨ c = deltaSymbol))
    (ho : Binary.ofChar? c = none) : c = '=' ∨ c = '!' := by
  simp only [opensConnective, ho, Option.isSome_none, Bool.or_false, Bool.or_eq_true,
    beq_iff_eq] at hc
  rcases hc with ((hc | hc) | hc) | hc
  · exact absurd (.inl hc) hu
  · exact absurd (.inr hc) hu
  · exact .inl hc
  · exact .inr hc

/-- What the three ways to cut a text say of it. -/
theorem cases_of_cut (hc : opensConnective c = true) (h : cut before c after = .ok layer) :
    (c = negSymbol ∧ Blank before ∧ layer = .unary .neg (trimmed after)) ∨
    (c = deltaSymbol ∧ Blank before ∧ cutDelta after = .ok layer) ∨
    ∃ op rest, c :: after = op.symbol.toList ++ rest ∧
      layer = .binary op (trimmed before) (trimmed rest) := by
  unfold cut at h
  split at h
  · rename_i hu
    split at h
    · rename_i hb
      have hb := blank_iff_trim_eq_nil.2 (List.isEmpty_iff.1 hb)
      split at h
      · rename_i hn
        exact .inl ⟨hn, hb, (Except.ok.inj h).symm⟩
      · rename_i hn
        exact .inr (.inl ⟨hu.resolve_left hn, hb, h⟩)
    · cases h
  · rename_i hu
    refine .inr (.inr ?_)
    split at h
    · rename_i op ho
      exact ⟨op, after, by rw [symbol_of_ofChar? ho]; rfl, (Except.ok.inj h).symm⟩
    · rename_i ho
      split at h
      · rename_i rest
        refine ⟨if c = '=' then .equals else .unequals, rest, ?_, (Except.ok.inj h).symm⟩
        rcases eq_sign hc hu ho with rfl | rfl
        · rfl
        · rfl
      · cases h

theorem cases_of_cutDelta (h : cutDelta after = .ok layer) :
    ∃ ds s, after = '_' :: (ds ++ s) ∧ ds ≠ [] ∧ (∀ c ∈ ds, c.isDigit = true) ∧
      1 ≤ Nat.ofDigitChars 10 ds 0 ∧ Nat.ofDigitChars 10 ds 0 < UInt32.size ∧
      NoLeadingDigit s ∧
      layer = .unary (.delta (UInt32.ofNat (Nat.ofDigitChars 10 ds 0))) (trimmed s) := by
  cases after with
  | nil => cases h
  | cons c after =>
    by_cases hc : c = '_'
    · subst hc
      obtain ⟨ds, s, rfl, hd, hs⟩ := exists_digits after
      rw [cutDelta_digits hd hs] at h
      split at h
      · cases h
      · rename_i hne
        split at h
        · cases h
        · rename_i hlt
          split at h
          · cases h
          · rename_i hpos
            exact ⟨ds, s, rfl, by simpa using hne, hd, Nat.pos_of_ne_zero hpos,
              Nat.lt_of_not_le hlt, hs, (Except.ok.inj h).symm⟩
    · rw [cutDelta_other hc] at h
      cases h

theorem exists_of_symbol {op : Binary} {rest : List Char} (hv : Blank v)
    (h : c :: (after ++ v) = op.symbol.toList ++ rest) :
    ∃ rest', c :: after = op.symbol.toList ++ rest' ∧ rest = rest' ++ v := by
  rcases ofChar?_symbol op with ⟨d, hd, -⟩ | ⟨d, hd, -⟩
  · rw [hd] at h ⊢
    obtain ⟨rfl, ht⟩ := List.cons.inj h
    exact ⟨after, rfl, ht.symm⟩
  · rw [hd] at h ⊢
    obtain ⟨rfl, ht⟩ := List.cons.inj h
    cases after with
    | nil =>
      have hb := hv '=' (by rw [show v = '=' :: rest from ht]; exact List.mem_cons_self ..)
      exact absurd hb (by decide)
    | cons b after =>
      obtain ⟨rfl, hr⟩ := List.cons.inj ht
      exact ⟨after, rfl, hr.symm⟩

theorem cut_of_append (hc : opensConnective c = true) (hu : Blank u) (hv : Blank v)
    (h : cut (u ++ before) c (after ++ v) = .ok layer) : cut before c after = .ok layer := by
  have hbefore : Blank (u ++ before) → Blank before := fun hb d hd =>
    hb d (List.mem_append_right _ hd)
  rcases cases_of_cut hc h with ⟨rfl, hb, rfl⟩ | ⟨rfl, hb, hl⟩ | ⟨op, rest, ho, rfl⟩
  · rw [cut_neg (hbefore hb), trimmed_append_right hv]
  · rw [cut_delta (hbefore hb), ← hl, cutDelta_append hv]
  · obtain ⟨rest', ho', rfl⟩ := exists_of_symbol hv ho
    rw [trimmed_append_left hu, trimmed_append_right hv]
    exact cut_binary ho' before

end Cut

theorem CutsTo.trim {s : List Char} {layer : Split} (h : CutsTo s layer) :
    CutsTo (trim s) layer := by
  obtain ⟨before, c, after, rfl, hq, hc, hcut⟩ := h
  obtain ⟨u, hu, hb⟩ := exists_trimStart before
  obtain ⟨v, hv, ha⟩ := exists_trimEnd after
  refine ⟨trimStart before, c, trimEnd after, trim_around (isBlank_of_opensConnective hc) ..,
    ?_, hc, ?_⟩
  · rw [hb, Quiet, hu.quiet.nesting_append] at hq
    exact hq
  · rw [hb, ha] at hcut
    exact cut_of_append hc hu hv hcut

section Layer

variable {formula : String} {u v s : List Char} {layer : Split}

theorem ofText_of_scan_plain (hs : stripEnclosing (trim formula.toList) = some s)
    (hq : Quiet s) : Split.ofText formula = .ok (.leaf (String.ofList s)) := by
  simp only [Split.ofText, hs, scan_plain hq]

theorem ofText_of_scan_found {before after : List Char} {c : Char}
    (hs : stripEnclosing (trim formula.toList) = some (before ++ c :: after))
    (hq : Quiet before) (hc : opensConnective c = true) (hcut : cut before c after = .ok layer) :
    Split.ofText formula = .ok layer := by
  simp only [Split.ofText, hs, scan_found hq hc, hcut]

theorem trim_between (hu : Blank u) (hv : Blank v) (s : List Char) :
    trim (u ++ (s ++ v)) = trim s := by
  rw [trim_append_left hu, trim_append_right hv]

theorem trim_parens (hu : Blank u) (hv : Blank v) (s : List Char) :
    trim (u ++ ('(' :: s ++ [')']) ++ v) = '(' :: s ++ [')'] := by
  have h1 : trimStart u = [] := by
    have h := trimStart_append hu []
    rwa [List.append_nil] at h
  have h2 := trimEnd_append hv (s ++ [')'])
  rw [trimEnd_concat (by decide)] at h2
  rw [List.append_assoc, List.cons_append, List.cons_append, trim_around (by decide), h1, h2]
  rfl

theorem ofText_of_cutsTo (h : CutsTo formula.toList layer) : Split.ofText formula = .ok layer := by
  obtain ⟨before, c, after, ht, hq, hc, hcut⟩ := h.trim
  refine ofText_of_scan_found ?_ hq hc hcut
  rw [ht]
  exact stripEnclosing_prefix hq.balanced (opensConnective_ne hc).1

theorem ofText_parens (ht : formula.toList = u ++ ('(' :: s ++ [')']) ++ v) (hu : Blank u)
    (hv : Blank v) (hb : Balanced s) (h : CutsTo s layer) : Split.ofText formula = .ok layer := by
  obtain ⟨before, c, after, rfl, hq, hc, hcut⟩ := h
  refine ofText_of_scan_found ?_ hq hc hcut
  rw [ht, trim_parens hu hv]
  exact stripEnclosing_parens hb

theorem ofText_plain (ht : formula.toList = u ++ (s ++ v)) (hu : Blank u) (hv : Blank v)
    (h : ∀ c ∈ s, c.isAlphanum = true) : Split.ofText formula = .ok (.leaf (String.ofList s)) := by
  refine ofText_of_scan_plain ?_ (quiet_of_isAlphanum h)
  rw [ht, trim_between hu hv, trim_eq_self fun c hc => isBlank_of_isAlphanum (h c hc)]
  unfold stripEnclosing
  split
  · exact absurd (h '(' (List.mem_cons_self ..)) (by decide)
  · rfl

theorem ofText_plainParens (ht : formula.toList = u ++ ('(' :: s ++ [')']) ++ v) (hu : Blank u)
    (hv : Blank v) (h : Quiet s) : Split.ofText formula = .ok (.leaf (String.ofList s)) := by
  refine ofText_of_scan_plain ?_ h
  rw [ht, trim_parens hu hv]
  exact stripEnclosing_parens h.balanced

/-- Trimmed and without the parentheses around it, a text that is cut into a layer is a leaf or
bare. -/
theorem cases_of_ofText (h : Split.ofText formula = .ok layer) :
    ∃ s, (trim formula.toList = s ∨ trim formula.toList = '(' :: s ++ [')']) ∧
      (layer = .leaf (String.ofList s) ∨ CutsTo s layer) := by
  cases hs : stripEnclosing (trim formula.toList) with
  | none =>
    simp only [Split.ofText, hs] at h
    cases h
  | some s =>
    refine ⟨s, (cases_of_stripEnclosing hs).imp_right And.left, ?_⟩
    simp only [Split.ofText, hs] at h
    split at h
    · cases h
    · exact .inl (Except.ok.inj h).symm
    · rename_i before c after hscan
      obtain ⟨mid, rfl, hm, hq, hc⟩ := exists_of_scan_found hscan
      obtain rfl : before = mid := hm
      split at h
      · rename_i hcut
        rw [Except.ok.inj h] at hcut
        exact .inr ⟨before, c, after, rfl, hq, hc, hcut⟩
      · cases h

theorem exists_of_ofText (h : Split.ofText formula = .ok layer) :
    ∃ u s v, Blank u ∧ Blank v ∧
      (formula.toList = u ++ (s ++ v) ∨ formula.toList = u ++ ('(' :: s ++ [')']) ++ v) ∧
      (layer = .leaf (String.ofList s) ∨ CutsTo s layer) := by
  obtain ⟨u, v, hu, hv, ht⟩ := exists_trim formula.toList
  obtain ⟨s, hs, hlayer⟩ := cases_of_ofText h
  refine ⟨u, s, v, hu, hv, ?_, hlayer⟩
  rcases hs with hs | hs
  · rw [hs, List.append_assoc] at ht
    exact .inl ht
  · rw [hs] at ht
    exact .inr ht

theorem trimmed_trimmed (s : List Char) : trimmed (trimmed s).toList = trimmed s := by
  rw [toList_trimmed, trimmed, trim_trim, trimmed]

theorem trimmed_of_mem_operands (h : Split.ofText formula = .ok layer) :
    ∀ x ∈ layer.operands, trimmed x.toList = x := by
  intro x hx
  obtain ⟨s, -, rfl | ⟨before, c, after, -, -, hc, hcut⟩⟩ := cases_of_ofText h
  · cases hx
  · rcases cases_of_cut hc hcut with ⟨-, -, rfl⟩ | ⟨-, -, hdelta⟩ | ⟨op, rest, -, rfl⟩
    · rw [List.mem_singleton.1 hx, trimmed_trimmed]
    · obtain ⟨ds, s, -, -, -, -, -, -, rfl⟩ := cases_of_cutDelta hdelta
      rw [List.mem_singleton.1 hx, trimmed_trimmed]
    · rcases List.mem_cons.1 hx with rfl | hx
      · exact trimmed_trimmed before
      · rw [List.mem_singleton.1 hx, trimmed_trimmed]

theorem error_of_ofText {e : Error} (h : Split.ofText formula = .error e) :
    ∃ text fault, e = .invalidFormula text fault := by
  cases hs : stripEnclosing (trim formula.toList) with
  | none =>
    simp only [Split.ofText, hs] at h
    exact ⟨_, _, (Except.error.inj h).symm⟩
  | some s =>
    simp only [Split.ofText, hs] at h
    split at h
    · exact ⟨_, _, (Except.error.inj h).symm⟩
    · cases h
    · split at h
      · cases h
      · exact ⟨_, _, (Except.error.inj h).symm⟩

end Layer

end ManyValued
