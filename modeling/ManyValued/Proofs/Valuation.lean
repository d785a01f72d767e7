import ManyValued.Proofs.Token
import ManyValued.Valuation

/-! What a valuation made of a list binds. The valuation of a list of inputs binds exactly the
names of these inputs, so it leaves the constants alone. -/

namespace ManyValued.Valuation

variable {α : Type}

theorem ofList_append (pairs : List (String × α)) (name : String) (x : α) :
    ofList (pairs ++ [(name, x)]) = (ofList pairs).insert name x := by
  simp [ofList, List.foldl_append]

theorem get?_ofList (pairs : List (String × α)) (name : String) :
    (ofList pairs).get? name = pairs.reverse.lookup name := by
  induction h : pairs.reverse generalizing pairs with
  | nil =>
    obtain rfl : pairs = [] := List.reverse_eq_nil_iff.1 h
    simp [ofList, empty, get?]
  | cons p rest ih =>
    obtain ⟨key, x⟩ := p
    obtain rfl : pairs = rest.reverse ++ [(key, x)] := by
      rw [← List.reverse_reverse pairs, h, List.reverse_cons]
    rw [ofList_append, get?_insert, ih rest.reverse (List.reverse_reverse rest), List.lookup_cons]
    by_cases hk : key = name
    · simp [hk]
    · have : (name == key) = false := by simpa using fun h => hk h.symm
      simp [hk, this]

theorem get?_ofInputs (xs : List α) (i : Nat) : (ofInputs xs).get? (inputName i) = xs[i]? := by
  have h := lookup_enumerated (fun _ _ => inputName_inj.1) xs 0 i
  rw [Nat.zero_add] at h
  exact (get?_ofList _ _).trans h

theorem get?_ofInputs_of_ne (xs : List α) {name : String} (h : ∀ i, name ≠ inputName i) :
    (ofInputs xs).get? name = none :=
  (get?_ofList _ _).trans (lookup_enumerated_eq_none fun i _ _ => h i)

variable [TruthValue α]

theorem leaf_inputName {xs : List α} {i : Nat} {x : α} (h : xs[i]? = some x) :
    (ofInputs xs).leaf (inputName i) = .ok x := by
  simp only [leaf, get?_ofInputs, h]

theorem leaf_constant (xs : List α) {name : String} (h : isConstant name = true) :
    (ofInputs xs).leaf name = .ok (if name = "0" then TruthValue.zero else TruthValue.one) := by
  have hne : ∀ i, name ≠ inputName i := by
    rintro i rfl
    rw [isConstant_of_isAtom (isAtom_inputName i)] at h
    cases h
  rw [isConstant, Bool.or_eq_true, beq_iff_eq, beq_iff_eq] at h
  rcases h with rfl | rfl
  · simp [leaf, get?_ofInputs_of_ne xs hne]
  · simp [leaf, get?_ofInputs_of_ne xs hne]

end ManyValued.Valuation
