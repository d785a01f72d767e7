import ManyValued.Formula.Basic
import ManyValued.Proofs.Formula.Nesting
import ManyValued.Proofs.Token

/-! The grammar of formulas, as rules that derive a tree from a text. A leaf and a text in
parentheses are closed, a connective with its operands is bare. The left operand of a binary
connective is closed and the other operands are any texts, so a bare text has a connective outside
all parentheses and a closed one has none. -/

namespace ManyValued

inductive Form where
  | closed
  | bare

/-- A text of the given form derives a tree. -/
inductive Derives : Form → List Char → Formula Unit → Prop
  | leaf {u v : List Char} {a : String} (hu : Blank u) (hv : Blank v)
      (ha : isAtom a = true ∨ isConstant a = true) :
      Derives .closed (u ++ (a.toList ++ v)) (.leaf () a)
  /-- There is no room for white space between a leaf and its parentheses. -/
  | leafParens {u v : List Char} {a : String} (hu : Blank u) (hv : Blank v)
      (ha : isAtom a = true ∨ isConstant a = true) :
      Derives .closed (u ++ ('(' :: a.toList ++ [')']) ++ v) (.leaf () a)
  | neg {f : Form} {u s : List Char} {t : Formula Unit} (hu : Blank u) (hs : Derives f s t) :
      Derives .bare (u ++ negSymbol :: s) (.unary () .neg t)
  | delta {f : Form} {u ds s : List Char} {t : Formula Unit} (hu : Blank u) (hne : ds ≠ [])
      (hd : ∀ c ∈ ds, c.isDigit = true) (hpos : 1 ≤ Nat.ofDigitChars 10 ds 0)
      (hlt : Nat.ofDigitChars 10 ds 0 < UInt32.size) (hs : Derives f s t)
      (hh : NoLeadingDigit s) :
      Derives .bare (u ++ deltaSymbol :: '_' :: (ds ++ s))
        (.unary () (.delta (UInt32.ofNat (Nat.ofDigitChars 10 ds 0))) t)
  | binary {f : Form} {p s : List Char} {l r : Formula Unit} (op : Binary)
      (hp : Derives .closed p l) (hs : Derives f s r) :
      Derives .bare (p ++ (op.symbol.toList ++ s)) (.binary () op l r)
  | parens {u v s : List Char} {t : Formula Unit} (hu : Blank u) (hv : Blank v)
      (hs : Derives .bare s t) :
      Derives .closed (u ++ ('(' :: s ++ [')']) ++ v) t

/-- A formula derives a tree, in one form or the other. -/
def DerivesTree (formula : String) (t : Formula Unit) : Prop :=
  ∃ f, Derives f formula.toList t

section Characters

variable {c : Char}

/-- A property that no parenthesis has, and no character at which a connective begins. -/
theorem plain_of {p : Char → Bool}
    (hp : ['(', ')', '¬', 'δ', '=', '!', '⊙', '⊕', '⇒'].any p = false) (h : p c = true) :
    c ≠ '(' ∧ c ≠ ')' ∧ opensConnective c = false := by
  have hc : c ∉ ['(', ')', '¬', 'δ', '=', '!', '⊙', '⊕', '⇒'] := fun hc =>
    List.any_eq_false.1 hp c hc h
  simp only [List.mem_cons, List.not_mem_nil, or_false, not_or] at hc
  obtain ⟨h1, h2, h3, h4, h5, h6, h7, h8, h9⟩ := hc
  refine ⟨h1, h2, ?_⟩
  simp [opensConnective, Binary.ofChar?, negSymbol, deltaSymbol, *]

theorem plain_of_isBlank (h : isBlank c = true) :
    c ≠ '(' ∧ c ≠ ')' ∧ opensConnective c = false := plain_of (by decide) h

theorem plain_of_isAlphanum (h : c.isAlphanum = true) :
    c ≠ '(' ∧ c ≠ ')' ∧ opensConnective c = false :=
  plain_of (p := Char.isAlphanum) (by decide) h

theorem isBlank_of_opensConnective (h : opensConnective c = true) : isBlank c = false := by
  rw [Bool.eq_false_iff]
  intro hb
  rw [(plain_of_isBlank hb).2.2] at h
  cases h

theorem isAlphanum_of_isDigit (h : c.isDigit = true) : c.isAlphanum = true := by
  rw [Char.isAlphanum, h, Bool.or_true]

theorem isAlphanum_of_mem {a : String} (ha : isAtom a = true ∨ isConstant a = true)
    (hc : c ∈ a.toList) : c.isAlphanum = true := by
  rcases ha with ha | ha
  · obtain ⟨d, ds, hl, hd, hds⟩ := isAtom_iff.1 ha
    rw [hl] at hc
    rcases List.mem_cons.1 hc with rfl | hc
    · rw [Char.isAlphanum, hd, Bool.true_or]
    · exact isAlphanum_of_isDigit (hds c hc)
  · unfold isConstant at ha
    rw [Bool.or_eq_true, beq_iff_eq, beq_iff_eq] at ha
    rcases ha with rfl | rfl
    · obtain rfl := List.mem_singleton.1 hc
      decide
    · obtain rfl := List.mem_singleton.1 hc
      decide

theorem isBlank_of_isAlphanum (h : c.isAlphanum = true) : isBlank c = false := by
  rw [Char.isAlphanum, Bool.or_eq_true, isAlpha_iff_toNat, Char.isDigit_iff_toNat] at h
  change _ ∨ (48 ≤ c.toNat ∧ c.toNat ≤ 57) at h
  simp only [isBlank, Bool.or_eq_false_iff, Bool.and_eq_false_iff, decide_eq_false_iff_not,
    beq_eq_false_iff_ne]
  omega

theorem isDigit_of_isBlank (h : isBlank c = true) : c.isDigit = false := by
  rw [Bool.eq_false_iff]
  intro hd
  rw [isBlank_of_isAlphanum (isAlphanum_of_isDigit hd)] at h
  cases h

end Characters

theorem NoLeadingDigit.append_blank {s v : List Char} (hs : NoLeadingDigit s) (hv : Blank v) :
    NoLeadingDigit (s ++ v) := by
  intro c hc
  cases s with
  | nil => exact isDigit_of_isBlank (hv c (List.mem_of_head? hc))
  | cons b s => exact hs c hc

theorem Blank.nesting {u : List Char} (hu : Blank u) (d : Nat) :
    nesting opensConnective d u = some d :=
  nesting_of_plain (fun c hc => plain_of_isBlank (hu c hc)) d

theorem Blank.quiet {u : List Char} (hu : Blank u) : Quiet u := hu.nesting 0

theorem quiet_of_isAlphanum {s : List Char} (h : ∀ c ∈ s, c.isAlphanum = true) : Quiet s :=
  nesting_of_plain (fun c hc => plain_of_isAlphanum (h c hc)) 0

theorem quiet_token {a : String} (ha : isAtom a = true ∨ isConstant a = true) :
    Quiet a.toList :=
  quiet_of_isAlphanum fun _ hc => isAlphanum_of_mem ha hc

theorem symbol_eq_cons (op : Binary) :
    ∃ c cs, op.symbol.toList = c :: cs ∧ opensConnective c = true := by
  cases op with
  | conj => exact ⟨'⊙', [], rfl, rfl⟩
  | disj => exact ⟨'⊕', [], rfl, rfl⟩
  | implies => exact ⟨'⇒', [], rfl, rfl⟩
  | equals => exact ⟨'=', ['='], rfl, rfl⟩
  | unequals => exact ⟨'!', ['='], rfl, rfl⟩

theorem balanced_symbol (op : Binary) : Balanced op.symbol.toList := by
  cases op <;> rfl

theorem balanced_cons {c : Char} {s : List Char} (h1 : c ≠ '(') (h2 : c ≠ ')')
    (hs : Balanced s) : Balanced (c :: s) := by
  rw [Balanced, nesting_other h1 h2, if_neg (by simp)]
  exact hs

namespace Derives

variable {f : Form} {s u v : List Char} {t : Formula Unit}

theorem balanced (h : Derives f s t) : Balanced s := by
  induction h with
  | leaf hu hv ha => exact (hu.quiet.append ((quiet_token ha).append hv.quiet)).balanced
  | leafParens hu hv ha =>
    exact ((hu.quiet.append (quiet_parens (quiet_token ha).balanced)).append hv.quiet).balanced
  | neg hu hs ih => exact hu.quiet.balanced.append (balanced_cons (by decide) (by decide) ih)
  | delta hu hne hd hpos hlt hs hh ih =>
    have hq := (quiet_of_isAlphanum fun c hc => isAlphanum_of_isDigit (hd c hc)).balanced
    exact hu.quiet.balanced.append (balanced_cons (by decide) (by decide)
      (balanced_cons (by decide) (by decide) (hq.append ih)))
  | binary op hp hs ihp ihs => exact ihp.append ((balanced_symbol op).append ihs)
  | parens hu hv hs ih => exact ((hu.quiet.append (quiet_parens ih)).append hv.quiet).balanced

theorem quiet (h : Derives .closed s t) : Quiet s := by
  cases h with
  | leaf hu hv ha => exact hu.quiet.append ((quiet_token ha).append hv.quiet)
  | leafParens hu hv ha =>
    exact (hu.quiet.append (quiet_parens (quiet_token ha).balanced)).append hv.quiet
  | parens hu hv hs => exact (hu.quiet.append (quiet_parens hs.balanced)).append hv.quiet

/-- A bare text has a connective outside all parentheses. -/
theorem exists_connective (h : Derives .bare s t) :
    ∃ before c after, s = before ++ c :: after ∧ Quiet before ∧ opensConnective c = true := by
  cases h with
  | neg hu hs => exact ⟨_, _, _, rfl, hu.quiet, by decide⟩
  | delta hu hne hd hpos hlt hs hh => exact ⟨_, _, _, rfl, hu.quiet, by decide⟩
  | binary op hp hs =>
    obtain ⟨c, cs, h, hc⟩ := symbol_eq_cons op
    exact ⟨_, c, _, by rw [h, List.cons_append], hp.quiet, hc⟩

theorem closed_of_quiet (h : Derives f s t) (hq : Quiet s) : Derives .closed s t := by
  cases f with
  | closed => exact h
  | bare =>
    obtain ⟨before, c, after, rfl, hb, hc⟩ := h.exists_connective
    rw [Quiet, hb.nesting_append, nesting_stopped hc] at hq
    cases hq

theorem token {a : String} (ha : isAtom a = true ∨ isConstant a = true) :
    Derives .closed a.toList (.leaf () a) := by
  have h := Derives.leaf Blank.nil Blank.nil ha
  rwa [List.append_nil] at h

theorem enclosed (h : Derives .bare s t) : Derives .closed ('(' :: s ++ [')']) t := by
  have h := Derives.parens Blank.nil Blank.nil h
  rwa [List.append_nil] at h

theorem between (h : Derives f s t) (hu : Blank u) (hv : Blank v) :
    Derives f (u ++ (s ++ v)) t := by
  induction h generalizing u v with
  | leaf hu' hv' ha =>
    have h1 := Derives.leaf (hu.append hu') (hv'.append hv) ha
    simpa only [List.append_assoc] using h1
  | leafParens hu' hv' ha =>
    have h1 := Derives.leafParens (hu.append hu') (hv'.append hv) ha
    simpa only [List.append_assoc] using h1
  | neg hu' hs ih =>
    have h1 := Derives.neg (hu.append hu') (ih Blank.nil hv)
    simpa only [List.append_assoc, List.cons_append, List.nil_append] using h1
  | delta hu' hne hd hpos hlt hs hh ih =>
    have h1 := Derives.delta (hu.append hu') hne hd hpos hlt (ih Blank.nil hv) (hh.append_blank hv)
    simpa only [List.append_assoc, List.cons_append, List.nil_append] using h1
  | binary op hp hs ihp ihs =>
    have h1 := Derives.binary op (ihp hu Blank.nil) (ihs Blank.nil hv)
    simpa only [List.append_assoc, List.nil_append, List.append_nil] using h1
  | parens hu' hv' hs ih =>
    have h1 := Derives.parens (hu.append hu') (hv'.append hv) hs
    simpa only [List.append_assoc] using h1

end Derives

end ManyValued
