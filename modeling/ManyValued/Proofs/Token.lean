import ManyValued.Formula.Token
import Std.Data.String.ToNat

/-! Names of inputs and slots are atoms, and different indices give different names. So a table
whose keys are such names is a list read by its indices, and a slot never names an input. -/

namespace ManyValued

theorem isAlpha_iff_toNat {c : Char} : c.isAlpha = true ↔
    (65 ≤ c.toNat ∧ c.toNat ≤ 90) ∨ (97 ≤ c.toNat ∧ c.toNat ≤ 122) := by
  change (decide (65 ≤ c.val ∧ c.val ≤ 90) || (decide (97 ≤ c.val) && decide (c.val ≤ 122))) =
    true ↔ _
  rw [Bool.or_eq_true, Bool.and_eq_true, decide_eq_true_eq, decide_eq_true_eq, decide_eq_true_eq]
  simp only [UInt32.le_iff_toNat_le]
  rfl

theorem isAlpha_of_isDigit {c : Char} (h : c.isDigit = true) : c.isAlpha = false := by
  have h1 : 48 ≤ c.toNat ∧ c.toNat ≤ 57 := Char.isDigit_iff_toNat.1 h
  rw [Bool.eq_false_iff]
  intro ha
  rw [isAlpha_iff_toNat] at ha
  omega

theorem isDigit_of_isAlpha {c : Char} (h : c.isAlpha = true) : c.isDigit = false := by
  rw [Bool.eq_false_iff]
  intro hd
  rw [isAlpha_of_isDigit hd] at h
  cases h

theorem isAtom_iff {token : String} :
    isAtom token = true ↔ ∃ c ds, token.toList = c :: ds ∧ c.isAlpha ∧ ∀ d ∈ ds, d.isDigit := by
  unfold isAtom
  split
  · rename_i h
    simp [h]
  · rename_i c rest h
    rw [Bool.and_eq_true, List.all_eq_true, h]
    constructor
    · intro ⟨hc, hr⟩
      exact ⟨c, rest, rfl, hc, hr⟩
    · rintro ⟨d, ds, hl, hd, hds⟩
      obtain ⟨rfl, rfl⟩ := List.cons.inj hl
      exact ⟨hd, hds⟩

/-- A constant is a digit, an atom starts with a letter. -/
theorem isConstant_of_isAtom {token : String} (h : isAtom token = true) :
    isConstant token = false := by
  obtain ⟨c, ds, hl, hc, -⟩ := isAtom_iff.1 h
  unfold isConstant
  rw [Bool.or_eq_false_iff, beq_eq_false_iff_ne, beq_eq_false_iff_ne]
  constructor
  · rintro rfl
    obtain ⟨rfl, -⟩ := List.cons.inj hl
    exact absurd hc (by decide)
  · rintro rfl
    obtain ⟨rfl, -⟩ := List.cons.inj hl
    exact absurd hc (by decide)

theorem toList_numbered (stem : String) (n : Nat) :
    (stem ++ toString n).toList = stem.toList ++ Nat.toDigits 10 n := by
  rw [String.toList_append, Nat.toString_eq_repr, Nat.toList_repr]

theorem numbered_inj (stem : String) {m n : Nat} :
    stem ++ toString m = stem ++ toString n ↔ m = n := by
  rw [String.append_right_inj, Nat.toString_eq_repr, Nat.toString_eq_repr, Nat.repr_inj]

theorem isAtom_numbered {stem : String} {c : Char} (hs : stem.toList = [c]) (hc : c.isAlpha)
    (n : Nat) : isAtom (stem ++ toString n) = true := by
  refine isAtom_iff.2 ⟨c, Nat.toDigits 10 n, ?_, hc, ?_⟩
  · rw [toList_numbered, hs]
    rfl
  · intro d hd
    exact Nat.isDigit_of_mem_toDigits (by decide) (by decide) hd

theorem isAtom_inputName (i : Nat) : isAtom (inputName i) = true :=
  isAtom_numbered (c := 'x') rfl (by decide) (i + 1)

theorem isAtom_slotName (i : Nat) : isAtom (slotName i) = true :=
  isAtom_numbered (c := 's') rfl (by decide) (i + 1)

theorem inputName_inj {i j : Nat} : inputName i = inputName j ↔ i = j := by
  rw [inputName, inputName, numbered_inj, Nat.succ_inj]

theorem slotName_inj {i j : Nat} : slotName i = slotName j ↔ i = j := by
  rw [slotName, slotName, numbered_inj, Nat.succ_inj]

theorem inputName_ne_slotName (i j : Nat) : inputName i ≠ slotName j := by
  intro h
  have h1 := congrArg String.toList h
  rw [inputName, slotName, toList_numbered, toList_numbered] at h1
  exact absurd (List.cons.inj h1).1 (by decide)

def NoLeadingDigit (s : List Char) : Prop := ∀ c ∈ s.head?, c.isDigit = false

theorem NoLeadingDigit.nil : NoLeadingDigit [] := fun _ h => nomatch h

theorem NoLeadingDigit.cons {c : Char} (h : c.isDigit = false) (s : List Char) :
    NoLeadingDigit (c :: s) := by
  intro d hd
  rw [← Option.some.inj hd]
  exact h

theorem NoLeadingDigit.append {s t : List Char} (hs : NoLeadingDigit s) (ht : NoLeadingDigit t) :
    NoLeadingDigit (s ++ t) := by
  cases s with
  | nil => exact ht
  | cons c s => exact hs

theorem noLeadingDigit_of_isAtom {token : String} (h : isAtom token = true) :
    NoLeadingDigit token.toList := by
  obtain ⟨c, ds, hl, hc, -⟩ := isAtom_iff.1 h
  rw [hl]
  exact .cons (isDigit_of_isAlpha hc) ds

theorem takeWhile_isDigit_append {ds s : List Char} (hd : ∀ c ∈ ds, c.isDigit = true)
    (hs : NoLeadingDigit s) : (ds ++ s).takeWhile Char.isDigit = ds := by
  rw [List.takeWhile_append_of_pos hd]
  cases s with
  | nil => rw [List.takeWhile_nil, List.append_nil]
  | cons c s => rw [List.takeWhile_cons_of_neg (by simp [hs c rfl]), List.append_nil]

theorem dropWhile_isDigit_append {ds s : List Char} (hd : ∀ c ∈ ds, c.isDigit = true)
    (hs : NoLeadingDigit s) : (ds ++ s).dropWhile Char.isDigit = s := by
  rw [List.dropWhile_append_of_pos hd]
  cases s with
  | nil => rfl
  | cons c s => rw [List.dropWhile_cons_of_neg (by simp [hs c rfl])]

theorem noLeadingDigit_dropWhile (s : List Char) : NoLeadingDigit (s.dropWhile Char.isDigit) := by
  intro c hc
  have h := List.head?_dropWhile_not Char.isDigit s
  rw [hc] at h
  simpa using h

theorem exists_digits (s : List Char) : ∃ ds rest, s = ds ++ rest ∧
    (∀ c ∈ ds, c.isDigit = true) ∧ NoLeadingDigit rest :=
  ⟨s.takeWhile Char.isDigit, s.dropWhile Char.isDigit, List.takeWhile_append_dropWhile.symm,
    List.all_eq_true.1 List.all_takeWhile, noLeadingDigit_dropWhile s⟩

/-- The pairs of `name k`, `name (k + 1)`, … with the members of a list. -/
def enumerated {α : Type} (name : Nat → String) (xs : List α) (k : Nat) : List (String × α) :=
  (xs.zipIdx k).map fun (x, i) => (name i, x)

section Enumerated

variable {α : Type} {name : Nat → String}

theorem enumerated_cons (name : Nat → String) (x : α) (xs : List α) (k : Nat) :
    enumerated name (x :: xs) k = (name k, x) :: enumerated name xs (k + 1) := rfl

theorem lookup_enumerated_eq_none {xs : List α} {k : Nat} {key : String}
    (h : ∀ i, k ≤ i → i < k + xs.length → key ≠ name i) :
    (enumerated name xs k).reverse.lookup key = none := by
  induction xs generalizing k with
  | nil => rfl
  | cons x xs ih =>
    have h1 : (enumerated name xs (k + 1)).reverse.lookup key = none := by
      apply ih
      intro i hi hlt
      exact h i (by omega) (by simp only [List.length_cons]; omega)
    have h2 : key ≠ name k := h k (Nat.le_refl k) (by simp only [List.length_cons]; omega)
    rw [enumerated_cons, List.reverse_cons, List.lookup_append, h1]
    simp [h2]

theorem lookup_enumerated (hn : ∀ i j, name i = name j → i = j) (xs : List α) (k i : Nat) :
    (enumerated name xs k).reverse.lookup (name (k + i)) = xs[i]? := by
  induction xs generalizing k i with
  | nil => rfl
  | cons x xs ih =>
    rw [enumerated_cons, List.reverse_cons, List.lookup_append]
    cases i with
    | zero =>
      have h1 : (enumerated name xs (k + 1)).reverse.lookup (name (k + 0)) = none := by
        apply lookup_enumerated_eq_none
        intro j hj _ he
        have := hn _ _ he
        omega
      rw [h1]
      simp
    | succ i =>
      have h1 : name (k + (i + 1)) ≠ name k := by
        intro he
        have := hn _ _ he
        omega
      have h2 := ih (k + 1) i
      rw [Nat.add_assoc, Nat.add_comm 1 i] at h2
      rw [h2, List.getElem?_cons_succ]
      cases xs[i]? with
      | none => simp [h1]
      | some y => rfl

end Enumerated

end ManyValued
