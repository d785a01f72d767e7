import ManyValued.Proofs.Formula.Depth
import Mathlib.Data.List.Lex

/-! The places of a formula. A place is given by the way to it from the root: for every node on the
way the number of the operand that is entered. The same ways lead into the text, through the
operands that are cut out of it. In preorder a place comes before those below it, and those in a
left operand before those in a right one; this is the lexicographic order of the ways. -/

namespace ManyValued

/-- The operands that are cut out of a text; a text that cannot be cut has none. -/
def operandsOf (text : String) : List String :=
  match Split.ofText text with
  | .ok layer => layer.operands
  | .error _ => []

def textAt? : List Nat → String → Option String
  | [], text => some text
  | i :: path, text => (operandsOf text)[i]?.bind (textAt? path)

namespace Outline

/-- The texts of all layers with their depths, in preorder. -/
def places (depth : Depth) : Outline → List (String × Depth)
  | fault text _ | leaf text _ => [(text, depth)]
  | unary text _ operand => (text, depth) :: operand.places (depth + 1)
  | binary text _ left right =>
    (text, depth) :: (left.places (depth + 1) ++ right.places (depth + 1))

end Outline

def placesOf (f : String) (depth : Depth) : List (String × Depth) := (Outline.ofText f).places depth

def textsOf (f : String) : List String := (placesOf f 0).map Prod.fst

section Texts

variable {f x t : String} {path : List Nat}

theorem operandsOf_of_ok {layer : Split} (h : Split.ofText f = .ok layer) :
    operandsOf f = layer.operands := by
  rw [operandsOf, h]

theorem length_lt_of_mem_operandsOf (h : x ∈ operandsOf f) : x.length < f.length := by
  unfold operandsOf at h
  split at h
  · rename_i layer hs
    exact operand_length_lt hs h
  · cases h

/-- Cutting out operands comes to an end. -/
theorem wellFounded_operands : WellFounded fun x f => x ∈ operandsOf f :=
  Subrelation.wf length_lt_of_mem_operandsOf (measure String.length).wf

theorem operands_induction {P : String → Prop} (h : ∀ f, (∀ x ∈ operandsOf f, P x) → P f)
    (f : String) : P f :=
  wellFounded_operands.induction f h

theorem textAt?_cons_eq_some {i : Nat} : textAt? (i :: path) f = some t ↔
    ∃ x, (operandsOf f)[i]? = some x ∧ textAt? path x = some t :=
  Option.bind_eq_some_iff

theorem placesOf_eq (f : String) (d : Depth) :
    placesOf f d = (f, d) :: (operandsOf f).flatMap fun x => placesOf x (d + 1) := by
  rw [placesOf, Outline.ofText_eq, operandsOf]
  split
  · rename_i hs
    rw [hs]
    rfl
  · rename_i hs
    rw [hs]
    rfl
  · rename_i hs
    rw [hs]
    simp [Outline.places, Split.operands, placesOf]
  · rename_i hs
    rw [hs]
    simp [Outline.places, Split.operands, placesOf]

theorem placesOf_of_ok {layer : Split} (h : Split.ofText f = .ok layer) (d : Depth) :
    placesOf f d = (f, d) :: layer.operands.flatMap fun x => placesOf x (d + 1) := by
  rw [placesOf_eq, operandsOf_of_ok h]

theorem map_fst_placesOf (f : String) (d : Depth) : (placesOf f d).map Prod.fst = textsOf f := by
  induction f using operands_induction generalizing d with
  | h f ih =>
    rw [textsOf, placesOf_eq, placesOf_eq, List.map_cons, List.map_cons, List.map_flatMap,
      List.map_flatMap]
    congr 1
    refine List.flatMap_congr fun x hx => ?_
    rw [ih x hx, ih x hx]

theorem textsOf_eq (f : String) : textsOf f = f :: (operandsOf f).flatMap textsOf := by
  rw [textsOf, placesOf_eq, List.map_cons, List.map_flatMap]
  simp only [map_fst_placesOf]

theorem textsOf_of_ok {layer : Split} (h : Split.ofText f = .ok layer) :
    textsOf f = f :: layer.operands.flatMap textsOf := by
  rw [textsOf_eq, operandsOf_of_ok h]

theorem mem_textsOf_iff : t ∈ textsOf f ↔ ∃ path, textAt? path f = some t := by
  induction f using operands_induction with
  | h f ih =>
    rw [textsOf_eq, List.mem_cons, List.mem_flatMap]
    constructor
    · rintro (rfl | ⟨x, hx, ht⟩)
      · exact ⟨[], rfl⟩
      · obtain ⟨path, hpath⟩ := (ih x hx).1 ht
        obtain ⟨i, hi⟩ := List.mem_iff_getElem?.1 hx
        exact ⟨i :: path, textAt?_cons_eq_some.2 ⟨x, hi, hpath⟩⟩
    · rintro ⟨_ | ⟨i, path⟩, h⟩
      · exact .inl (Option.some.inj h).symm
      · obtain ⟨x, hi, hpath⟩ := textAt?_cons_eq_some.1 h
        have hx := List.mem_of_getElem? hi
        exact .inr ⟨x, hx, (ih x hx).2 ⟨path, hpath⟩⟩

theorem lookup_placesOf_eq_none_iff {d : Depth} :
    (placesOf f d).lookup t = none ↔ t ∉ textsOf f := by
  rw [← map_fst_placesOf f d, List.lookup_eq_none_iff]
  simp only [bne_iff_ne, List.mem_map, not_exists, not_and]
  exact forall₂_congr fun p _ => ne_comm

/-- The text occurs at the place, and at none that comes before it in preorder. -/
structure FirstPlace (f t : String) (path : List Nat) : Prop where
  textAt : textAt? path f = some t
  first : ∀ other, textAt? other f = some t → ¬ List.Lex (· < ·) other path

theorem FirstPlace.unique {p q : List Nat} (hp : FirstPlace f t p) (hq : FirstPlace f t q) :
    p = q :=
  Std.Trichotomous.trichotomous p q (hq.first p hp.textAt) (hp.first q hq.textAt)

theorem firstPlace_self (f : String) : FirstPlace f f [] where
  textAt := rfl
  first := fun _ _ h => nomatch h

/-- Below the root a text occurs first in the first operand in which it occurs. -/
theorem exists_firstPlace_operand {d : Depth} {xs : List String}
    (ih : ∀ x ∈ xs, ∀ path, textAt? path x = some t →
      ∃ first, FirstPlace x t first ∧ (placesOf x d).lookup t = some (d + .ofNat first.length))
    {i : Nat} (h : xs[i]?.bind (textAt? path) = some t) :
    ∃ j first, xs[j]?.bind (textAt? first) = some t ∧
      (∀ k other, xs[k]?.bind (textAt? other) = some t →
        ¬ List.Lex (· < ·) (k :: other) (j :: first)) ∧
      (xs.flatMap fun x => placesOf x d).lookup t = some (d + .ofNat first.length) := by
  induction xs generalizing i path with
  | nil => cases h
  | cons x xs ihs =>
    obtain ⟨hx, hxs⟩ := List.forall_mem_cons.1 ih
    rw [List.flatMap_cons, List.lookup_append]
    by_cases hmem : t ∈ textsOf x
    · obtain ⟨p, hp⟩ := mem_textsOf_iff.1 hmem
      obtain ⟨first, hfirst, hlookup⟩ := hx p hp
      refine ⟨0, first, hfirst.textAt, fun k other hk hlex => ?_, by rw [hlookup, Option.some_or]⟩
      cases hlex with
      | rel hlt => exact Nat.not_lt_zero k hlt
      | cons hlex => exact hfirst.first other hk hlex
    · have hnone : ∀ p, textAt? p x ≠ some t := fun p hp => hmem (mem_textsOf_iff.2 ⟨p, hp⟩)
      cases i with
      | zero => exact absurd h (hnone path)
      | succ i =>
        obtain ⟨j, first, hj, hfirst, hlookup⟩ := ihs hxs h
        refine ⟨j + 1, first, hj, fun k other hk hlex => ?_, ?_⟩
        · cases k with
          | zero => exact hnone other hk
          | succ k =>
            refine hfirst k other hk ?_
            cases hlex with
            | rel hlt => exact .rel (Nat.lt_of_succ_lt_succ hlt)
            | cons hlex => exact .cons hlex
        · rw [lookup_placesOf_eq_none_iff.2 hmem, Option.none_or, hlookup]

/-- A text that occurs has a first place, and the depth of that place is listed first. -/
theorem exists_firstPlace (h : textAt? path f = some t) (d : Depth) :
    ∃ first, FirstPlace f t first ∧ (placesOf f d).lookup t = some (d + .ofNat first.length) := by
  induction f using operands_induction generalizing path d with
  | h f ih =>
    rw [placesOf_eq, List.lookup_cons]
    by_cases ht : t = f
    · subst ht
      exact ⟨[], firstPlace_self t, by simp⟩
    · cases path with
      | nil => exact absurd (Option.some.inj h).symm ht
      | cons i path =>
        obtain ⟨j, first, hj, hfirst, hlookup⟩ :=
          exists_firstPlace_operand (fun x hx path hp => ih x hx hp (d + 1)) h
        refine ⟨j :: first, ⟨hj, fun other hother => ?_⟩, ?_⟩
        · cases other with
          | nil => exact absurd (Option.some.inj hother).symm ht
          | cons k other => exact hfirst k other hother
        · rw [beq_false_of_ne ht, List.length_cons, add_ofNat_succ]
          exact hlookup

theorem FirstPlace.lookup_placesOf (h : FirstPlace f t path) (d : Depth) :
    (placesOf f d).lookup t = some (d + .ofNat path.length) := by
  obtain ⟨first, hfirst, hlookup⟩ := exists_firstPlace h.textAt d
  rwa [h.unique hfirst]

end Texts

namespace Formula

variable {μ ν : Type}

def at? : List Nat → Formula μ → Option (Formula μ)
  | [], x => some x
  | i :: path, x => x.children[i]?.bind (at? path)

theorem children_map (f : μ → ν) (x : Formula μ) :
    (x.map f).children = x.children.map (map f) := by
  cases x <;> rfl

theorem children_atDepth (x : Formula μ) (d : Depth) :
    (x.atDepth d).children = x.children.map (atDepth (d + 1)) := by
  cases x <;> rfl

theorem mark_atDepth (x : Formula μ) (d : Depth) : (x.atDepth d).mark = d := by
  cases x <;> rfl

theorem at?_map (f : μ → ν) (x : Formula μ) (path : List Nat) :
    (x.map f).at? path = (x.at? path).map (map f) := by
  induction path generalizing x with
  | nil => rfl
  | cons i path ih =>
    rw [at?, at?, children_map, List.getElem?_map]
    cases x.children[i]? with
    | none => rfl
    | some y => exact ih y

theorem at?_shape (x : Formula μ) (path : List Nat) :
    x.shape.at? path = (x.at? path).map shape :=
  at?_map (fun _ => ()) x path

/-- Formulas of one shape have the same places. -/
theorem SameShape.exists_at {x : Formula μ} {y z : Formula ν} (h : x.SameShape y)
    {path : List Nat} (hz : y.at? path = some z) : ∃ w, x.at? path = some w ∧ w.SameShape z := by
  have hx : (x.at? path).map shape = (y.at? path).map shape := by
    rw [← at?_shape, ← at?_shape, h]
  rw [hz, Option.map_some, Option.map_eq_some_iff] at hx
  exact hx

theorem height_lt_iff {x : Formula μ} {n : Nat} :
    x.height < n + 1 ↔ ∀ y ∈ x.children, y.height < n := by
  cases x with
  | leaf m name => simp [height, children]
  | unary m op x =>
    rw [height, children, List.forall_mem_singleton, Nat.add_lt_add_iff_right]
  | binary m op x y =>
    rw [height, children, List.forall_mem_cons, List.forall_mem_singleton,
      Nat.add_lt_add_iff_right, Nat.max_lt]

theorem length_le_height {x y : Formula μ} {path : List Nat} (h : x.at? path = some y) :
    path.length ≤ x.height := by
  induction path generalizing x with
  | nil => exact Nat.zero_le _
  | cons i path ih =>
    obtain ⟨z, hz, h⟩ := Option.bind_eq_some_iff.1 h
    have hlt := height_lt_iff.1 (Nat.lt_succ_self x.height) z (List.mem_of_getElem? hz)
    exact Nat.succ_le_of_lt (Nat.lt_of_le_of_lt (ih h) hlt)

theorem toNat_depth_of_at? {x y : Formula μ} {path : List Nat} {d : Depth}
    (h : x.at? path = some y) (hfit : d.toNat + x.height < UInt64.size) :
    (d + .ofNat path.length).toNat = d.toNat + path.length :=
  toNat_add_ofNat (Nat.lt_of_le_of_lt (Nat.add_le_add_left (length_le_height h) _) hfit)

theorem at?_atDepth (x : Formula μ) (d : Depth) (path : List Nat) :
    (x.atDepth d).at? path = (x.at? path).map (atDepth (d + .ofNat path.length)) := by
  induction path generalizing x d with
  | nil => rw [at?, at?, Option.map_some, List.length_nil, add_ofNat_zero]
  | cons i path ih =>
    rw [at?, at?, children_atDepth, List.getElem?_map, List.length_cons, add_ofNat_succ]
    cases x.children[i]? with
    | none => rfl
    | some y => exact ih y (d + 1)

end Formula

end ManyValued
