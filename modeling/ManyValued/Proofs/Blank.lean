import ManyValued.Formula.Split

/-! What trimming takes away: a run of blanks at each end, and nothing else. Around a character that
is not blank, the two ends are trimmed independently. -/

namespace ManyValued

/-- A run of white space. -/
def Blank (u : List Char) : Prop := ∀ c ∈ u, isBlank c = true

variable {u v s : List Char} {c : Char}

theorem Blank.nil : Blank [] := fun _ h => nomatch h

theorem Blank.append (hu : Blank u) (hv : Blank v) : Blank (u ++ v) := by
  intro c hc
  rcases List.mem_append.1 hc with hc | hc
  · exact hu c hc
  · exact hv c hc

theorem Blank.reverse (hu : Blank u) : Blank u.reverse := fun c hc => hu c (List.mem_reverse.1 hc)

theorem trimStart_append (hu : Blank u) (s : List Char) : trimStart (u ++ s) = trimStart s :=
  List.dropWhile_append_of_pos hu

theorem trimEnd_append (hv : Blank v) (s : List Char) : trimEnd (s ++ v) = trimEnd s := by
  rw [trimEnd, trimEnd, List.reverse_append, List.dropWhile_append_of_pos hv.reverse]

theorem dropWhile_around (hc : isBlank c = false) (b a : List Char) :
    (b ++ c :: a).dropWhile isBlank = b.dropWhile isBlank ++ c :: a := by
  rw [List.dropWhile_append]
  split
  · rename_i h
    rw [List.isEmpty_iff.1 h, List.dropWhile_cons_of_neg (by simp [hc]), List.nil_append]
  · rfl

theorem exists_trimStart (s : List Char) : ∃ u, Blank u ∧ s = u ++ trimStart s :=
  ⟨s.takeWhile isBlank, List.all_eq_true.1 List.all_takeWhile,
    List.takeWhile_append_dropWhile.symm⟩

theorem exists_trimEnd (s : List Char) : ∃ v, Blank v ∧ s = trimEnd s ++ v := by
  obtain ⟨u, hu, h⟩ := exists_trimStart s.reverse
  refine ⟨u.reverse, hu.reverse, ?_⟩
  have h1 := congrArg List.reverse h
  rwa [List.reverse_reverse, List.reverse_append] at h1

theorem exists_trim (s : List Char) : ∃ u v, Blank u ∧ Blank v ∧ s = u ++ trim s ++ v := by
  obtain ⟨u, hu, h1⟩ := exists_trimStart s
  obtain ⟨v, hv, h2⟩ := exists_trimEnd (trimStart s)
  refine ⟨u, v, hu, hv, ?_⟩
  rw [List.append_assoc, trim, ← h2, ← h1]

/-- On both sides of a character that stays, trimming does its work separately. -/
theorem trim_around (hc : isBlank c = false) (b a : List Char) :
    trim (b ++ c :: a) = trimStart b ++ c :: trimEnd a := by
  rw [trim, trimStart, dropWhile_around hc, trimEnd, List.reverse_append, List.reverse_cons,
    List.append_assoc, List.singleton_append, dropWhile_around hc, List.reverse_append,
    List.reverse_cons, List.reverse_reverse, List.append_assoc, List.singleton_append]
  rfl

theorem trim_append_left (hu : Blank u) (s : List Char) : trim (u ++ s) = trim s := by
  rw [trim, trimStart_append hu, trim]

theorem blank_or_around (s : List Char) :
    Blank s ∨ ∃ b c a, s = b ++ c :: a ∧ isBlank c = false := by
  by_cases h : Blank s
  · exact .inl h
  · right
    simp only [Blank, Classical.not_forall] at h
    obtain ⟨c, hc, hb⟩ := h
    obtain ⟨b, a, rfl⟩ := List.append_of_mem hc
    exact ⟨b, c, a, rfl, by simpa using hb⟩

theorem trim_of_blank (hu : Blank u) : trim u = [] := by
  have h := trim_append_left hu []
  rwa [List.append_nil] at h

theorem trim_append_right (hv : Blank v) (s : List Char) : trim (s ++ v) = trim s := by
  rcases blank_or_around s with hs | ⟨b, c, a, rfl, hc⟩
  · rw [trim_of_blank hs, trim_of_blank (hs.append hv)]
  · rw [List.append_assoc, List.cons_append, trim_around hc, trim_around hc, trimEnd_append hv]

theorem trim_trim (s : List Char) : trim (trim s) = trim s := by
  obtain ⟨u, v, hu, hv, h⟩ := exists_trim s
  rw [← trim_append_left hu, ← trim_append_right hv, ← h]

theorem trimEnd_concat (hc : isBlank c = false) (s : List Char) :
    trimEnd (s ++ [c]) = s ++ [c] := by
  rw [trimEnd, List.reverse_append, List.reverse_singleton, List.singleton_append,
    List.dropWhile_cons_of_neg (by simp [hc]), List.reverse_cons, List.reverse_reverse]

theorem trim_eq_self (h : ∀ c ∈ s, isBlank c = false) : trim s = s := by
  obtain ⟨u, v, hu, hv, hs⟩ := exists_trim s
  have hnil : ∀ w : List Char, Blank w → (∀ c ∈ w, c ∈ s) → w = [] := by
    intro w hw hsub
    cases w with
    | nil => rfl
    | cons c w =>
      have h1 := hw c (List.mem_cons_self ..)
      rw [h c (hsub c (List.mem_cons_self ..))] at h1
      cases h1
  have hu' : u = [] := hnil u hu fun c hc => by rw [hs]; simp [hc]
  have hv' : v = [] := hnil v hv fun c hc => by rw [hs]; simp [hc]
  rw [hu', hv', List.nil_append, List.append_nil] at hs
  exact hs.symm

theorem blank_iff_trim_eq_nil : Blank s ↔ trim s = [] := by
  constructor
  · exact trim_of_blank
  · intro h
    obtain ⟨u, v, hu, hv, hs⟩ := exists_trim s
    rw [hs, h, List.append_nil]
    exact hu.append hv

theorem toList_trimmed (s : List Char) : (trimmed s).toList = trim s := String.toList_ofList

end ManyValued
