import ManyValued.Proofs.Substitution

/-! Substituting twice, in any text. The second substitution scans what the first has written, so
the two are one only if it finds the pieces that the first has put together. A letter always opens a
token; only digits could be drawn into the token before them, and in what is written a digit follows
a token only where it begins a replacement. Where no replacement begins with a digit, the second
substitution works on the pieces one by one. -/

namespace ManyValued

/-- Two substitutions as one: the second works on what the first puts for a token, and on the tokens
that the first leaves. -/
def Replacements.andThen (m₁ m₂ : Replacements) : Replacements := fun token =>
  match m₁ token with
  | some text => some (substitute m₂ text)
  | none => m₂ token

section Pieces

variable {c : Char}

theorem substituteInto_eq (m : Replacements) (done : String) (text : List Char) :
    substituteInto m done text = done ++ substituteInto m "" text := by
  induction text using tokens_induction generalizing done with
  | nil => rw [substituteInto, substituteInto, String.append_empty]
  | token c rest hc ih =>
    rw [substituteInto_token hc, substituteInto_token hc, ih, ih ("" ++ _), String.empty_append,
      String.append_assoc]
  | other c rest hc ih =>
    rw [substituteInto_other hc, substituteInto_other hc, ih, ih ("".push c),
      String.push_eq_append, String.push_eq_append, String.empty_append, String.append_assoc]

theorem substituteInto_empty_token (hc : c.isAlpha = true) (m : Replacements) (rest : List Char) :
    substituteInto m "" (c :: rest) =
      m.apply (String.ofList (c :: rest.takeWhile Char.isDigit)) ++
        substituteInto m "" (rest.dropWhile Char.isDigit) := by
  rw [substituteInto_token hc, substituteInto_eq, String.empty_append]

theorem substituteInto_empty_other (hc : ¬ c.isAlpha = true) (m : Replacements)
    (rest : List Char) :
    substituteInto m "" (c :: rest) = String.singleton c ++ substituteInto m "" rest := by
  rw [substituteInto_other hc, substituteInto_eq, String.push_eq_append, String.empty_append]

/-- Nothing runs over the place where two texts meet, if the second does not begin with a digit. -/
theorem substituteInto_append {s t : List Char} (ht : NoLeadingDigit t) (m : Replacements) :
    substituteInto m "" (s ++ t) = substituteInto m "" s ++ substituteInto m "" t := by
  induction s using tokens_induction with
  | nil => rw [substituteInto, List.nil_append, String.empty_append]
  | token c rest hc ih =>
    have hd : ∀ c ∈ rest.takeWhile Char.isDigit, c.isDigit = true :=
      List.all_eq_true.1 List.all_takeWhile
    have hr : NoLeadingDigit (rest.dropWhile Char.isDigit ++ t) :=
      (noLeadingDigit_dropWhile rest).append ht
    have hsplit : rest ++ t =
        rest.takeWhile Char.isDigit ++ (rest.dropWhile Char.isDigit ++ t) := by
      rw [← List.append_assoc, List.takeWhile_append_dropWhile]
    rw [List.cons_append, substituteInto_empty_token hc, substituteInto_empty_token hc, hsplit,
      takeWhile_isDigit_append hd hr, dropWhile_isDigit_append hd hr, ih, String.append_assoc]
  | other c rest hc ih =>
    rw [List.cons_append, substituteInto_empty_other hc, substituteInto_empty_other hc, ih,
      String.append_assoc]

theorem substitute_atom {a : String} (ha : isAtom a = true) (m : Replacements) :
    substitute m a = m.apply a := by
  have h : substituteInto m "" (a.toList ++ []) = substituteInto m ("" ++ m.apply a) [] :=
    substituteInto_atom ha .nil
  rw [List.append_nil, String.empty_append] at h
  rw [substitute, h, substituteInto]

end Pieces

section Twice

variable {m₁ m₂ : Replacements} {a : String}

theorem noLeadingDigit_apply (hm : ∀ a text, m₁ a = some text → NoLeadingDigit text.toList)
    (ha : isAtom a = true) : NoLeadingDigit (m₁.apply a).toList := by
  rw [Replacements.apply]
  cases h : m₁ a with
  | some text => exact hm a text h
  | none => exact noLeadingDigit_of_isAtom ha

theorem noLeadingDigit_substituteInto
    (hm : ∀ a text, m₁ a = some text → NoLeadingDigit text.toList) {text : List Char}
    (h : NoLeadingDigit text) : NoLeadingDigit (substituteInto m₁ "" text).toList := by
  induction text using tokens_induction with
  | nil => rwa [substituteInto]
  | token c rest hc ih =>
    rw [substituteInto_empty_token hc, String.toList_append]
    exact (noLeadingDigit_apply hm (isAtom_token hc rest)).append
      (ih (noLeadingDigit_dropWhile rest))
  | other c rest hc ih =>
    rw [substituteInto_empty_other hc, String.toList_append, String.toList_singleton]
    exact .cons (h c rfl) _

theorem substitute_apply (ha : isAtom a = true) :
    substitute m₂ (m₁.apply a) = (m₁.andThen m₂).apply a := by
  cases h : m₁ a with
  | some text => simp only [Replacements.apply, Replacements.andThen, h, Option.getD_some]
  | none =>
    simp only [Replacements.apply, Replacements.andThen, h, Option.getD_none, substitute_atom ha]

theorem substitute_substitute (hm : ∀ a text, m₁ a = some text → NoLeadingDigit text.toList)
    (text : String) : substitute m₂ (substitute m₁ text) = substitute (m₁.andThen m₂) text := by
  suffices h : ∀ s, substituteInto m₂ "" (substituteInto m₁ "" s).toList =
      substituteInto (m₁.andThen m₂) "" s from h text.toList
  intro s
  induction s using tokens_induction with
  | nil => rw [substituteInto, substituteInto, String.toList_empty, substituteInto]
  | token c rest hc ih =>
    -- What comes after the token has no digit in front, so the second scan stops there too.
    have hrest := noLeadingDigit_substituteInto hm (noLeadingDigit_dropWhile rest)
    rw [substituteInto_empty_token hc, substituteInto_empty_token hc, String.toList_append,
      substituteInto_append hrest, ih, ← substitute, substitute_apply (isAtom_token hc rest)]
  | other c rest hc ih =>
    rw [substituteInto_empty_other hc, substituteInto_empty_other hc, String.toList_append,
      String.toList_singleton, List.singleton_append, substituteInto_empty_other hc, ih]

end Twice

section Slots

variable {below : List String} {a : String}

theorem andThen_openSlots_fillSlots (ha : ∀ i < below.length, a ≠ slotName i) :
    ((openSlots below.length).andThen (fillSlots below)) a = named inputName below a := by
  rw [Replacements.andThen, openSlots_eq, fillSlots_eq]
  rcases name_or_ne inputName below a with ⟨i, hi, rfl⟩ | hne
  · have hslot : named slotName below (slotName i) = some below[i] := by
      rw [named_slotName, List.getElem?_eq_getElem hi]
    rw [named_inputName, named_inputName, List.getElem?_map, List.getElem?_range hi,
      List.getElem?_eq_getElem hi, Option.map_some]
    dsimp only
    rw [substitute_atom (isAtom_slotName i), Replacements.apply, hslot, Option.getD_some]
  · have hopen : named inputName ((List.range below.length).map slotName) a = none :=
      named_eq_none (by simpa using hne)
    rw [hopen, named_eq_none ha, named_eq_none hne]

theorem plugInto_eq {text : String} (h : ∀ i < below.length, ¬ HasToken text.toList (slotName i)) :
    plugInto below.length below text = substitute (named inputName below) text := by
  have hslots : ∀ a t, openSlots below.length a = some t → NoLeadingDigit t.toList := by
    intro a t ht
    rw [openSlots_eq] at ht
    obtain ⟨i, -, rfl⟩ := List.mem_map.1 (mem_of_named (fun _ _ => inputName_inj.1) ht)
    exact noLeadingDigit_of_isAtom (isAtom_slotName i)
  rw [plugInto, substitute_substitute hslots]
  refine substituteInto_congr (fun a ha => andThen_openSlots_fillSlots ?_) ""
  rintro i hi rfl
  exact h i hi ha

end Slots

/-- Where no replacement of the first begins with a digit, two substitutions are one, in every text.
So the slots that keep an inserted term from being changed again can be left out: where they are not
tokens of the text, the inputs are replaced all at once. -/
theorem substitutions_compose :
    (∀ m₁ m₂ : Replacements, (∀ a text, m₁ a = some text → NoLeadingDigit text.toList) →
      ∀ text, substitute m₂ (substitute m₁ text) = substitute (m₁.andThen m₂) text) ∧
    ∀ (below : List String) (text : String),
      (∀ i < below.length, ¬ HasToken text.toList (slotName i)) →
      plugInto below.length below text = substitute (named inputName below) text :=
  ⟨fun _ _ hm text => substitute_substitute hm text, fun _ _ h => plugInto_eq h⟩

def touching : Replacements := .ofList [("x1", "Bx2"), ("x2", "")]

theorem substitutions_compose_touching :
    (∀ a text, touching a = some text → NoLeadingDigit text.toList) ∧
    substitute (.ofList [("x2", "7"), ("A", "x1")]) (substitute touching "3x1x2A(x10") =
      "3B7x1(x10" ∧
    (∀ i < 2, ¬ HasToken "x2x10(7x1".toList (slotName i)) ∧
      plugInto 2 ["s2", "4x2"] "x2x10(7x1" = "4x2x10(7s2" := by
  have hm : ∀ a text, touching a = some text → NoLeadingDigit text.toList := by
    intro a text h
    obtain ⟨before, after, hpairs, -⟩ := List.lookup_eq_some_iff.1 h
    have hmem : (a, text) ∈ [("x2", ""), ("x1", "Bx2")] := by
      rw [show [("x2", ""), ("x1", "Bx2")] = _ from hpairs]
      exact List.mem_append_right _ (List.mem_cons_self ..)
    simp only [List.mem_cons, List.not_mem_nil, or_false, Prod.mk.injEq] at hmem
    rcases hmem with ⟨-, rfl⟩ | ⟨-, rfl⟩
    · exact .nil
    · exact .cons (by decide) _
  have hslots : ∀ i < 2, ¬ HasToken "x2x10(7x1".toList (slotName i) := by
    rintro i - ⟨-, before, after, htext, -⟩
    have hs : 's' ∈ "x2x10(7x1".toList := by
      rw [htext, slotName, toList_numbered]
      simp
    exact absurd hs (by decide)
  obtain ⟨hcompose, hplug⟩ := substitutions_compose
  refine ⟨hm, ?_, hslots, ?_⟩
  · rw [hcompose _ _ hm]
    decide +kernel
  · rw [show 2 = ["s2", "4x2"].length from rfl, hplug ["s2", "4x2"] _ hslots]
    decide +kernel

end ManyValued
