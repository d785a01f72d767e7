import ManyValued.Proofs.Formula.Replacement
import ManyValued.Proofs.Formula.RoundTrip

/-! Substitution in the text of a formula, for all replacements. Every token that is looked up is an
atom, so what stands under another key, a number say, is never used. Where the replacements are the
texts of formulas, the result is the text of the formula with its leaves replaced, and its value is
the value under the valuation that binds what was replaced to the values of what was put there. -/

namespace ManyValued

/-- What is put for atoms; nothing is put for other names. -/
def atAtoms {β : Type} (r : String → Option β) (a : String) : Option β :=
  if isAtom a then r a else none

section Lookup

variable {β γ : Type} {r : String → Option β} {a : String} {m m' : Replacements}

theorem atAtoms_of_isAtom (ha : isAtom a = true) : atAtoms r a = r a := if_pos ha

theorem atAtoms_of_isConstant (ha : isConstant a = true) : atAtoms r a = none := by
  refine if_neg fun h => ?_
  rw [isConstant_of_isAtom h] at ha
  cases ha

theorem atAtoms_map (r : String → Option β) (f : β → γ) (a : String) :
    atAtoms (fun b => (r b).map f) a = (atAtoms r a).map f := by
  unfold atAtoms
  split_ifs <;> rfl

theorem isAtom_token {c : Char} (hc : c.isAlpha = true) (rest : List Char) :
    isAtom (String.ofList (c :: rest.takeWhile Char.isDigit)) = true :=
  isAtom_iff.2 ⟨c, _, String.toList_ofList, hc, List.all_eq_true.1 List.all_takeWhile⟩

/-- The atom is a token of the text. A letter opens a token wherever it stands, and the digits after
it belong to this token. -/
def HasToken (text : List Char) (a : String) : Prop :=
  isAtom a = true ∧ ∃ before after, text = before ++ (a.toList ++ after) ∧ NoLeadingDigit after

theorem hasToken_head {c : Char} (hc : c.isAlpha = true) (rest : List Char) :
    HasToken (c :: rest) (String.ofList (c :: rest.takeWhile Char.isDigit)) := by
  refine ⟨isAtom_token hc rest, [], rest.dropWhile Char.isDigit, ?_, noLeadingDigit_dropWhile rest⟩
  rw [String.toList_ofList, List.nil_append, List.cons_append, List.takeWhile_append_dropWhile]

theorem HasToken.append_left {s : List Char} (h : HasToken s a) (front : List Char) :
    HasToken (front ++ s) a := by
  obtain ⟨ha, before, after, rfl, hr⟩ := h
  exact ⟨ha, front ++ before, after, by rw [List.append_assoc], hr⟩

theorem HasToken.of_dropWhile {c : Char} {rest : List Char}
    (h : HasToken (rest.dropWhile Char.isDigit) a) : HasToken (c :: rest) a := by
  have h := h.append_left (c :: rest.takeWhile Char.isDigit)
  rwa [List.cons_append, List.takeWhile_append_dropWhile] at h

/-- A text is read token by token, and character by character between the tokens. -/
theorem tokens_induction {P : List Char → Prop} (nil : P [])
    (token : ∀ c rest, c.isAlpha = true → P (rest.dropWhile Char.isDigit) → P (c :: rest))
    (other : ∀ c rest, ¬ c.isAlpha = true → P rest → P (c :: rest)) (text : List Char) :
    P text := by
  induction hn : text.length using Nat.strongRecOn generalizing text with
  | ind n ih =>
    cases text with
    | nil => exact nil
    | cons c rest =>
      rw [List.length_cons] at hn
      by_cases hc : c.isAlpha = true
      · have hle := (List.dropWhile_sublist Char.isDigit (l := rest)).length_le
        exact token c rest hc (ih _ (by omega) _ rfl)
      · exact other c rest hc (ih _ (by omega) _ rfl)

theorem substituteInto_token {c : Char} (hc : c.isAlpha = true) (m : Replacements) (done : String)
    (rest : List Char) : substituteInto m done (c :: rest) =
      substituteInto m (done ++ m.apply (String.ofList (c :: rest.takeWhile Char.isDigit)))
        (rest.dropWhile Char.isDigit) := by
  rw [substituteInto, if_pos hc]

theorem substituteInto_other {c : Char} (hc : ¬ c.isAlpha = true) (m : Replacements)
    (done : String) (rest : List Char) :
    substituteInto m done (c :: rest) = substituteInto m (done.push c) rest := by
  rw [substituteInto, if_neg hc]

/-- Only what is put for the tokens of a text matters. -/
theorem substituteInto_congr {text : List Char} (h : ∀ a, HasToken text a → m a = m' a)
    (done : String) : substituteInto m done text = substituteInto m' done text := by
  induction text using tokens_induction generalizing done with
  | nil => rw [substituteInto, substituteInto]
  | token c rest hc ih =>
    have htoken := h _ (hasToken_head hc rest)
    rw [substituteInto_token hc, substituteInto_token hc, Replacements.apply, Replacements.apply,
      htoken]
    exact ih (fun a ha => h a ha.of_dropWhile) _
  | other c rest hc ih =>
    rw [substituteInto_other hc, substituteInto_other hc]
    exact ih (fun a ha => h a (ha.append_left [c])) _

theorem substitute_congr (h : ∀ a, isAtom a = true → m a = m' a) (text : String) :
    substitute m text = substitute m' text :=
  substituteInto_congr (fun a ha => h a ha.1) ""

end Lookup

namespace Valuation

variable {α : Type}

def updated (v : Valuation α) (names : List String) (value : String → α) : Valuation α :=
  names.foldl (fun w a => w.insert a (value a)) v

theorem get?_updated (v : Valuation α) (names : List String) (value : String → α) (a : String) :
    (v.updated names value).get? a = if a ∈ names then some (value a) else v.get? a := by
  induction names generalizing v with
  | nil => rfl
  | cons b names ih =>
    have h := ih (v.insert b (value b))
    rw [get?_insert] at h
    rw [updated, List.foldl_cons, ← updated, h]
    by_cases hb : b = a
    · subst hb
      simp
    · simp [hb, Ne.symm hb]

theorem leaf_updated_of_mem [TruthValue α] {v : Valuation α} {names : List String}
    {value : String → α} {a : String} (ha : a ∈ names) :
    (v.updated names value).leaf a = .ok (value a) := by
  rw [leaf, get?_updated, if_pos ha]

theorem leaf_updated_of_notMem [TruthValue α] {v : Valuation α} {names : List String}
    {value : String → α} {a : String} (ha : a ∉ names) :
    (v.updated names value).leaf a = v.leaf a := by
  rw [leaf, get?_updated, if_neg ha, leaf]

end Valuation

namespace Formula

variable {μ ν : Type} {x : Formula μ} {r : String → Option (Formula ν)} {m : Replacements}

/-- Puts formulas for the atoms among the leaves. The marks are left out. -/
def graft (x : Formula μ) (r : String → Option (Formula ν)) : Formula Unit :=
  x.shape.replace (atAtoms fun a => (r a).map shape)

theorem wellFormed_graft (hx : x.WellFormed) (hr : ∀ a y, r a = some y → y.WellFormed) :
    (x.graft r).WellFormed := by
  apply wellFormed_replace ((wellFormed_shape x).2 hx)
  intro a z hz
  rw [atAtoms_map, Option.map_eq_some_iff] at hz
  obtain ⟨y, hy, rfl⟩ := hz
  rw [atAtoms] at hy
  split at hy
  · exact (wellFormed_shape y).2 (hr a y hy)
  · cases hy

theorem substitute_render_graft (hx : x.WellFormed) (hm : ∀ a, m a = (r a).map render) :
    substitute m x.render = (x.graft r).render := by
  have hatoms : ∀ a, isAtom a = true → m a = atAtoms m a := fun a ha => (atAtoms_of_isAtom ha).symm
  rw [substitute_congr hatoms, ← render_shape]
  apply substitute_render ((wellFormed_shape x).2 hx)
  · intro a
    rw [atAtoms_map, Option.map_map, show render ∘ shape = render (μ := ν) from funext render_shape,
      ← atAtoms_map, funext hm]
  · exact fun a ha => atAtoms_of_isConstant ha

section Evaluate

variable {α : Type} [TruthValue α] {l : Logic α} {v : Valuation α} {names : List String}
  {value : String → α}

theorem evaluate_graft (hnames : ∀ a, a ∈ names ↔ isAtom a = true ∧ (r a).isSome = true)
    (hvalue : ∀ a y, isAtom a = true → r a = some y → y.evaluate l v = .ok (value a)) :
    (x.graft r).evaluate l v = x.evaluate l (v.updated names value) := by
  rw [graft, ← evaluate_shape l (v.updated names value) x]
  apply evaluate_replace
  intro a _
  by_cases ha : a ∈ names
  · obtain ⟨hatom, hsome⟩ := (hnames a).1 ha
    obtain ⟨y, hy⟩ := Option.isSome_iff_exists.1 hsome
    rw [atAtoms_of_isAtom hatom, hy, Option.map_some, Option.getD_some, evaluate_shape,
      hvalue a y hatom hy, Valuation.leaf_updated_of_mem ha]
  · have hnone : atAtoms (fun b => (r b).map shape) a = none := by
      unfold atAtoms
      split
      · rename_i hatom
        rw [Option.map_eq_none_iff, ← Option.not_isSome_iff_eq_none]
        exact fun hsome => ha ((hnames a).2 ⟨hatom, hsome⟩)
      · rfl
    rw [hnone, Option.getD_none, evaluate, Valuation.leaf_updated_of_notMem ha]

/-- Putting the texts of formulas for atoms in the text of a formula gives the text of the formula
with these put for its leaves; it is read as such, and its value is the value of the formula under
the valuation that binds the atoms to the values of what was put for them. Nothing but atoms is ever
looked up. -/
theorem substitute_is_homomorphism {x : Formula Depth} {r : String → Option (Formula Depth)}
    (hx : x.WellFormed) (hm : ∀ a, m a = (r a).map render)
    (hr : ∀ a y, r a = some y → y.WellFormed) :
    substitute m x.render = (x.graft r).render ∧
    (∀ m' text, (∀ a, isAtom a = true → m' a = m a) → substitute m' text = substitute m text) ∧
    ∃ y, (parse (substitute m x.render)).outcome = .ok y ∧ y.SameShape (x.graft r) ∧
      ∀ (l : Logic α) v names value,
        (∀ a, a ∈ names ↔ isAtom a = true ∧ (m a).isSome = true) →
        (∀ a z, isAtom a = true → r a = some z → z.evaluate l v = .ok (value a)) →
        y.evaluate l v = x.evaluate l (v.updated names value) := by
  have htext := substitute_render_graft hx hm
  refine ⟨htext, fun m' text h => substitute_congr h text, (x.graft r).atDepth 0, ?_, ?_, ?_⟩
  · rw [htext, outcome_parse, treeOf_render (wellFormed_graft hx hr), ok_bind, shape_of_unit]
  · rw [SameShape, shape_atDepth]
  · intro l v names value hnames hvalue
    rw [← evaluate_shape, shape_atDepth, shape_of_unit]
    refine evaluate_graft (fun a => ?_) hvalue
    rw [hnames, hm, Option.isSome_map]

end Evaluate

def target : Formula Depth :=
  binary 0 .disj (unary 1 (.delta 12) (leaf 2 "x1")) (binary 1 .conj (leaf 2 "x10") (leaf 2 "1"))

def parts (a : String) : Option (Formula Depth) :=
  if a = "x1" then some (binary 3 .conj (leaf 4 "B") (leaf 4 "x10"))
  else if a = "12" then some (leaf 0 "A")
  else none

theorem substitute_is_homomorphism_parts :
    substitute (fun a => (parts a).map render) target.render = "((δ_12 (B⊙x10))⊕(x10⊙1))" ∧
      ∃ y, (parse "((δ_12 (B⊙x10))⊕(x10⊙1))").outcome = .ok y ∧
        y.evaluate Logic.lukasiewicz (Valuation.ofList [("B", 1 / 2), ("x10", (3 / 4 : Rat))]) =
          .ok (37 / 48) := by
  have hx : target.WellFormed := by decide
  have hr : ∀ a y, parts a = some y → y.WellFormed := by
    intro a y hy
    rw [parts] at hy
    split_ifs at hy
    · obtain rfl := Option.some.inj hy
      decide
    · obtain rfl := Option.some.inj hy
      decide
  obtain ⟨htext, -, y, hy, -, hvalue⟩ :=
    substitute_is_homomorphism (α := Rat) (m := fun a => (parts a).map render) hx (fun _ => rfl) hr
  have hgraft : (target.graft parts).render = "((δ_12 (B⊙x10))⊕(x10⊙1))" := by decide
  rw [hgraft] at htext
  rw [htext] at hy
  refine ⟨htext, y, hy, ?_⟩
  have hnames : ∀ a, a ∈ ["x1"] ↔ isAtom a = true ∧ ((parts a).map render).isSome = true := by
    intro a
    rw [List.mem_singleton, parts]
    split_ifs with h1 h2
    · subst h1
      decide
    · subst h2
      decide
    · simp [h1]
  rw [hvalue Logic.lukasiewicz _ ["x1"] (fun _ => 1 / 4) hnames]
  · simp only [target, evaluate, Valuation.leaf, Valuation.get?_updated, Valuation.get?_ofList]
    decide +kernel
  · intro a z ha hz
    rw [parts] at hz
    split_ifs at hz with h1 h2
    · obtain rfl := Option.some.inj hz
      simp only [evaluate, Valuation.leaf, Valuation.get?_ofList]
      decide +kernel
    · subst h2
      exact absurd ha (by decide)

end Formula

end ManyValued
