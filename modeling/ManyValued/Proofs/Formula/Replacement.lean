import ManyValued.Composition
import ManyValued.Evaluation
import ManyValued.Proofs.Formula.Printing
import ManyValued.Proofs.Valuation

/-! Substitution in a text is replacement of leaves in the formula that the text writes. Two
substitutions with slots in between are then one replacement of the inputs, and evaluating the
result is evaluating the formula with the values of what was put in. -/

namespace ManyValued

def named {α : Type} (name : Nat → String) (xs : List α) (key : String) : Option α :=
  (enumerated name xs 0).reverse.lookup key

namespace Formula

variable {μ : Type}

def names : Formula μ → List String
  | leaf _ name => [name]
  | unary _ _ x => x.names
  | binary _ _ x y => x.names ++ y.names

/-- Puts formulas for leaves, all at once. -/
def replace (r : String → Option (Formula Unit)) : Formula Unit → Formula Unit
  | leaf _ name => (r name).getD (leaf () name)
  | unary _ op x => unary () op (x.replace r)
  | binary _ op x y => binary () op (x.replace r) (y.replace r)

def plug (below : List (Formula Unit)) (x : Formula Unit) : Formula Unit :=
  x.replace (named inputName below)

end Formula

section Named

variable {α β : Type} {name : Nat → String}

theorem named_name (hn : ∀ i j, name i = name j → i = j) (xs : List α) (i : Nat) :
    named name xs (name i) = xs[i]? := by
  have h := lookup_enumerated hn xs 0 i
  rwa [Nat.zero_add] at h

theorem named_inputName (xs : List α) (i : Nat) : named inputName xs (inputName i) = xs[i]? :=
  named_name (fun _ _ => inputName_inj.1) xs i

theorem named_slotName (xs : List α) (i : Nat) : named slotName xs (slotName i) = xs[i]? :=
  named_name (fun _ _ => slotName_inj.1) xs i

theorem named_eq_none {xs : List α} {key : String} (h : ∀ i < xs.length, key ≠ name i) :
    named name xs key = none :=
  lookup_enumerated_eq_none fun i _ hi => h i (by omega)

theorem name_or_ne (name : Nat → String) (xs : List α) (key : String) :
    (∃ i < xs.length, key = name i) ∨ ∀ i < xs.length, key ≠ name i := by
  by_cases h : ∃ i < xs.length, key = name i
  · exact .inl h
  · exact .inr fun i hi hk => h ⟨i, hi, hk⟩

theorem mem_of_named (hn : ∀ i j, name i = name j → i = j) {xs : List α} {key : String} {x : α}
    (h : named name xs key = some x) : x ∈ xs := by
  rcases name_or_ne name xs key with ⟨i, -, rfl⟩ | hk
  · rw [named_name hn] at h
    exact List.mem_of_getElem? h
  · rw [named_eq_none hk] at h
    cases h

theorem named_map (hn : ∀ i j, name i = name j → i = j) (f : α → β) (xs : List α)
    (key : String) : named name (xs.map f) key = (named name xs key).map f := by
  rcases name_or_ne name xs key with ⟨i, -, rfl⟩ | hk
  · rw [named_name hn, named_name hn, List.getElem?_map]
  · rw [named_eq_none hk, named_eq_none (by rwa [List.length_map]), Option.map_none]

theorem openSlots_eq (inputs : Nat) :
    openSlots inputs = named inputName ((List.range inputs).map slotName) := by
  have h : (List.range inputs).map (fun i => (inputName i, slotName i)) =
      enumerated inputName ((List.range inputs).map slotName) 0 := by
    apply List.ext_getElem
    · simp [enumerated]
    · intro i h1 h2
      simp [enumerated]
  funext key
  rw [openSlots, Replacements.ofList, h]
  rfl

theorem fillSlots_eq (below : List String) : fillSlots below = named slotName below := rfl

end Named

def Letterless (t : String) : Prop := t.toList.any Char.isAlpha = false

theorem Letterless.append {s t : String} (hs : Letterless s) (ht : Letterless t) :
    Letterless (s ++ t) := by
  rw [Letterless, String.toList_append, List.any_append, hs, ht, Bool.or_false]

section Substitute

variable {m : Replacements} {done : String} {s rest : List Char}

theorem substituteInto_plain {t : String} (h : Letterless t) (rest : List Char) :
    substituteInto m done (t.toList ++ rest) = substituteInto m (done ++ t) rest := by
  obtain ⟨s, rfl⟩ : ∃ s, t = String.ofList s := ⟨t.toList, String.ofList_toList.symm⟩
  rw [Letterless, String.toList_ofList] at h
  rw [String.toList_ofList]
  induction s generalizing done with
  | nil => simp
  | cons c s ih =>
    rw [List.any_cons, Bool.or_eq_false_iff] at h
    rw [List.cons_append, substituteInto, if_neg (by simp [h.1]), ih h.2]
    congr 1
    apply String.toList_inj.1
    simp

theorem substituteInto_atom {a : String} (ha : isAtom a = true) (hr : NoLeadingDigit rest) :
    substituteInto m done (a.toList ++ rest) = substituteInto m (done ++ m.apply a) rest := by
  obtain ⟨c, ds, hl, hc, hd⟩ := isAtom_iff.1 ha
  have ha' : String.ofList (c :: ds) = a := by rw [← hl, String.ofList_toList]
  rw [hl, List.cons_append, substituteInto, if_pos hc]
  simp only [takeWhile_isDigit_append hd hr, dropWhile_isDigit_append hd hr, ha']

theorem letterless_number (n : Nat) : Letterless (toString n) := by
  rw [Letterless, Nat.toString_eq_repr, Nat.toList_repr, List.any_eq_false]
  intro c hc
  rw [isAlpha_of_isDigit (Nat.isDigit_of_mem_toDigits (by decide) (by decide) hc)]
  exact Bool.false_ne_true

theorem letterless_constant {a : String} (ha : isConstant a = true) : Letterless a := by
  rw [isConstant, Bool.or_eq_true, beq_iff_eq, beq_iff_eq] at ha
  rcases ha with rfl | rfl
  · rfl
  · rfl

theorem letterless_symbol (op : Binary) : Letterless op.symbol := by
  cases op <;> rfl

theorem noLeadingDigit_symbol (op : Binary) (s : List Char) :
    NoLeadingDigit (op.symbol.toList ++ s) := by
  cases op <;> exact .cons (by decide) _

namespace Formula

/-- What stands before the operand of a unary connective has no letters. -/
theorem exists_render_unary (op : Unary) : ∃ pre : String, Letterless pre ∧
    ∀ (u : Unit) (x : Formula Unit), (unary u op x).render = pre ++ (x.render ++ ")") := by
  cases op with
  | neg =>
    refine ⟨"(" ++ Unary.neg.symbol, rfl, fun u x => ?_⟩
    simp only [render, String.append_assoc]
  | delta scale =>
    have hopen : Letterless "(" := rfl
    have hdelta : Letterless "δ_" := rfl
    have hblank : Letterless " " := rfl
    refine ⟨"(" ++ (Unary.delta scale).symbol ++ " ", ?_, fun u x => ?_⟩
    · exact (hopen.append (hdelta.append (letterless_number scale.toNat))).append hblank
    · simp only [render, String.append_assoc]

theorem render_binary (u : Unit) (op : Binary) (x y : Formula Unit) :
    (binary u op x y).render = "(" ++ (x.render ++ (op.symbol ++ (y.render ++ ")"))) := by
  simp only [render, String.append_assoc]

/-- Substituting in the text of a formula is replacing in the formula. -/
theorem substituteInto_render {r : String → Option (Formula Unit)} {x : Formula Unit}
    (hx : x.WellFormed) (hm : ∀ a, m a = (r a).map render)
    (hc : ∀ a, isConstant a = true → m a = none) (hr : NoLeadingDigit rest) :
    substituteInto m done (x.render.toList ++ rest) =
      substituteInto m (done ++ (x.replace r).render) rest := by
  have hopen : Letterless "(" := rfl
  have hclose : Letterless ")" := rfl
  induction x generalizing done rest with
  | leaf u a =>
    have hrender : ((leaf u a).replace r).render = m.apply a := by
      rw [Replacements.apply, hm, replace]
      cases r a <;> rfl
    rw [hrender]
    rcases hx with ha | ha
    · exact substituteInto_atom ha hr
    · rw [Replacements.apply, hc a ha, Option.getD_none]
      exact substituteInto_plain (letterless_constant ha) rest
  | unary u op x ih =>
    obtain ⟨pre, hpre, hrender⟩ := exists_render_unary op
    have hparen : NoLeadingDigit (")".toList ++ rest) := .cons (by decide) rest
    rw [replace, hrender, hrender, String.toList_append, String.toList_append, List.append_assoc,
      List.append_assoc, substituteInto_plain hpre, ih hx.2 hparen, substituteInto_plain hclose,
      String.append_assoc, String.append_assoc]
  | binary u op x y ihx ihy =>
    have hparen : NoLeadingDigit (")".toList ++ rest) := .cons (by decide) rest
    rw [replace, render_binary, render_binary]
    simp only [String.toList_append, List.append_assoc]
    rw [substituteInto_plain hopen, ihx hx.1 (noLeadingDigit_symbol op _),
      substituteInto_plain (letterless_symbol op), ihy hx.2 hparen,
      substituteInto_plain hclose]
    simp only [String.append_assoc]

theorem substitute_render {r : String → Option (Formula Unit)} {x : Formula Unit}
    (hx : x.WellFormed) (hm : ∀ a, m a = (r a).map render)
    (hc : ∀ a, isConstant a = true → m a = none) :
    substitute m x.render = (x.replace r).render := by
  have h : substituteInto m "" (x.render.toList ++ []) =
      substituteInto m ("" ++ (x.replace r).render) [] :=
    substituteInto_render hx hm hc .nil
  rw [List.append_nil, String.empty_append] at h
  rw [substitute, h, substituteInto]

end Formula

end Substitute

namespace Formula

section Plug

variable {x : Formula Unit} {below : List (Formula Unit)} {r : String → Option (Formula Unit)}

theorem wellFormed_replace (hx : x.WellFormed) (hr : ∀ a y, r a = some y → y.WellFormed) :
    (x.replace r).WellFormed := by
  induction x with
  | leaf u a =>
    rw [replace]
    cases hy : r a with
    | none => exact hx
    | some y => exact hr a y hy
  | unary u op x ih => exact ⟨hx.1, ih hx.2⟩
  | binary u op x y ihx ihy => exact ⟨ihx hx.1, ihy hx.2⟩

theorem wellFormed_plug (hx : x.WellFormed) (hb : ∀ y ∈ below, y.WellFormed) :
    (x.plug below).WellFormed := by
  apply wellFormed_replace hx
  intro a y hy
  exact hb y (mem_of_named (fun _ _ => inputName_inj.1) hy)

theorem constant_ne {a : String} (ha : isConstant a = true) {name : Nat → String}
    (hn : ∀ i, isAtom (name i) = true) (i : Nat) : a ≠ name i := by
  rintro rfl
  rw [isConstant_of_isAtom (hn i)] at ha
  cases ha

theorem plug_input {i : Nat} (hi : i < below.length) :
    (leaf () (inputName i)).plug below = below[i] := by
  rw [plug, replace, named_inputName, List.getElem?_eq_getElem hi, Option.getD_some]

theorem plug_other {u : Unit} {a : String} (ha : ∀ i < below.length, a ≠ inputName i) :
    (leaf u a).plug below = leaf u a := by
  rw [plug, replace, named_eq_none ha, Option.getD_none]

/-- Slots for the inputs and then formulas for the slots are formulas for the inputs, unless a slot
was there before. -/
theorem replace_slots (hs : ∀ i < below.length, slotName i ∉ x.names) :
    (x.replace
      (named inputName ((List.range below.length).map fun i => leaf () (slotName i)))).replace
        (named slotName below) = x.plug below := by
  induction x with
  | leaf u a =>
    rw [replace]
    rcases name_or_ne inputName below a with ⟨i, hi, rfl⟩ | ha
    · rw [plug_input hi, named_inputName, List.getElem?_map, List.getElem?_range hi,
        Option.map_some, Option.getD_some, replace, named_slotName, List.getElem?_eq_getElem hi,
        Option.getD_some]
    · have hslot : ∀ i < below.length, a ≠ slotName i := by
        rintro i hi rfl
        exact hs i hi (List.mem_singleton_self _)
      rw [plug_other ha, named_eq_none (by simpa using ha), Option.getD_none, replace,
        named_eq_none hslot, Option.getD_none]
  | unary u op x ih =>
    have hx := ih hs
    simp only [replace, plug] at hx ⊢
    rw [hx]
  | binary u op x y ihx ihy =>
    have hx := ihx fun i hi hmem => hs i hi (List.mem_append_left _ hmem)
    have hy := ihy fun i hi hmem => hs i hi (List.mem_append_right _ hmem)
    simp only [replace, plug] at hx hy ⊢
    rw [hx, hy]

theorem plugInto_render (hx : x.WellFormed) (hs : ∀ i < below.length, slotName i ∉ x.names) :
    plugInto below.length (below.map render) x.render = (x.plug below).render := by
  have hopen : substitute (openSlots below.length) x.render = (x.replace
      (named inputName ((List.range below.length).map fun i => leaf () (slotName i)))).render := by
    apply substitute_render hx
    · intro a
      rw [← named_map (fun _ _ => inputName_inj.1), openSlots_eq, List.map_map]
      rfl
    · intro a ha
      rw [openSlots_eq, named_eq_none fun i _ => constant_ne ha isAtom_inputName i]
  have hw : (x.replace (named inputName
      ((List.range below.length).map fun i => leaf () (slotName i)))).WellFormed := by
    apply wellFormed_replace hx
    intro a y hy
    obtain ⟨i, -, rfl⟩ := List.mem_map.1 (mem_of_named (fun _ _ => inputName_inj.1) hy)
    exact .inl (isAtom_slotName i)
  rw [plugInto, hopen, ← replace_slots hs]
  apply substitute_render hw
  · intro a
    rw [fillSlots_eq, named_map fun _ _ => slotName_inj.1]
  · intro a ha
    rw [fillSlots_eq, named_eq_none fun i _ => constant_ne ha isAtom_slotName i]

end Plug

section Evaluate

variable {α : Type} [TruthValue α] {l : Logic α} {v w : Valuation α} {x : Formula Unit}

theorem evaluate_shape {μ : Type} (l : Logic α) (v : Valuation α) (x : Formula μ) :
    x.shape.evaluate l v = x.evaluate l v := by
  induction x with
  | leaf m a => rfl
  | unary m op x ih =>
    have h : x.shape.evaluate l v = x.evaluate l v := ih
    rw [shape, map, evaluate, evaluate, ← h]
    rfl
  | binary m op x y ihx ihy =>
    have hx : x.shape.evaluate l v = x.evaluate l v := ihx
    have hy : y.shape.evaluate l v = y.evaluate l v := ihy
    rw [shape, map, evaluate, evaluate, ← hx, ← hy]
    rfl

/-- The value with formulas put for leaves is the value with their values bound to the leaves. -/
theorem evaluate_replace {r : String → Option (Formula Unit)}
    (h : ∀ a ∈ x.names, ((r a).getD (leaf () a)).evaluate l v = w.leaf a) :
    (x.replace r).evaluate l v = x.evaluate l w := by
  induction x with
  | leaf u a => exact h a (List.mem_singleton_self a)
  | unary u op x ih => rw [replace, evaluate, evaluate, ih h]
  | binary u op x y ihx ihy =>
    rw [replace, evaluate, evaluate, ihx fun a ha => h a (List.mem_append_left _ ha),
      ihy fun a ha => h a (List.mem_append_right _ ha)]

theorem evaluate_plug {below : List (Formula Unit)} {xs ys : List α}
    (hb : List.Forall₂ (fun y b => y.evaluate l (Valuation.ofInputs xs) = .ok b) below ys)
    (hx : ∀ a ∈ x.names, isConstant a = true ∨ ∃ i < below.length, a = inputName i) :
    (x.plug below).evaluate l (Valuation.ofInputs xs) = x.evaluate l (Valuation.ofInputs ys) := by
  apply evaluate_replace
  intro a ha
  rcases hx a ha with hc | ⟨i, hi, rfl⟩
  · rw [named_eq_none fun i _ => constant_ne hc isAtom_inputName i, Option.getD_none, evaluate,
      Valuation.leaf_constant xs hc, Valuation.leaf_constant ys hc]
  · have hlen := hb.length_eq
    have hi' : i < ys.length := hlen ▸ hi
    have hy := List.forall₂_iff_get.1 hb
    rw [named_inputName, List.getElem?_eq_getElem hi, Option.getD_some,
      Valuation.leaf_inputName (List.getElem?_eq_getElem hi')]
    exact hy.2 i hi hi'

end Evaluate

end Formula

end ManyValued
