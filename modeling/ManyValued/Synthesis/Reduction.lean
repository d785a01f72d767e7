import ManyValued.Journal
import ManyValued.Term

/-! The two identities behind every synthesis. Write `σ x` for `min (max x 0) 1`. For every real `g`
and every `y` in `[0, 1]`,

  `σ (g + y) = (σ g ⊕ y) ⊙ σ (g + 1)` and `σ g = ¬ σ (1 - g)`.

The first takes one unit off a positive weight, the second turns negative weights into positive
ones. This module has what integer and rational weights share: the choice of the weight, and the
right-hand side of the first identity. -/

namespace ManyValued

/-- `(left ⊕ y) ⊙ right` for `left = σ g` and `right = σ (g + 1)`, without the constants among
`left` and `right`. -/
def combine (left y right : Term) : Term :=
  if right.isFalsum then .falsum
  else if left.isVerum then right
  else if right.isVerum then if left.isFalsum then y else .disj left y
  else if left.isFalsum then .conj y right
  else .conj (.disj left y) right

section Pivot

variable {α : Type} [OfNat α 0] [LT α] [DecidableLT α]

/-- The place of the first positive weight. -/
def firstPositive? (weights : List α) : Option Nat := weights.findIdx? (0 < ·)

theorem firstPositive?_eq_none_iff {weights : List α} :
    firstPositive? weights = none ↔ ∀ w ∈ weights, ¬ 0 < w := by
  simp [firstPositive?, List.findIdx?_eq_none_iff]

theorem exists_of_firstPositive? {weights : List α} {i : Nat}
    (h : firstPositive? weights = some i) :
    ∃ before w after, weights = before ++ w :: after ∧ before.length = i ∧ 0 < w ∧
      ∀ v ∈ before, ¬ 0 < v := by
  induction weights generalizing i with
  | nil => simp [firstPositive?] at h
  | cons w ws ih =>
    simp only [firstPositive?, List.findIdx?_cons] at h
    split at h
    · rename_i hw
      simp only [Option.some.injEq] at h
      exact ⟨[], w, ws, rfl, h, by simpa using hw, by simp⟩
    · rename_i hw
      obtain ⟨j, hj, rfl⟩ := Option.map_eq_some_iff.1 h
      obtain ⟨before, v, after, rfl, rfl, hv, hb⟩ := ih hj
      refine ⟨w :: before, v, after, rfl, rfl, hv, ?_⟩
      intro u hu
      rcases List.mem_cons.1 hu with rfl | hu
      · simpa using hw
      · exact hb u hu

theorem lt_length_of_firstPositive? {weights : List α} {i : Nat}
    (h : firstPositive? weights = some i) : i < weights.length := by
  obtain ⟨before, w, after, rfl, rfl, -, -⟩ := exists_of_firstPositive? h
  simp

end Pivot

def total {α : Type} (f : α → Nat) : List α → Nat
  | [] => 0
  | w :: ws => f w + total f ws

theorem total_append {α : Type} (f : α → Nat) (xs ys : List α) :
    total f (xs ++ ys) = total f xs + total f ys := by
  induction xs with
  | nil => simp [total]
  | cons x xs ih => simp [total, ih, Nat.add_assoc]

theorem total_map {α β : Type} (f : β → Nat) (g : α → β) (xs : List α) :
    total f (xs.map g) = total (fun x => f (g x)) xs := by
  induction xs with
  | nil => rfl
  | cons x xs ih => simp [total, ih]

theorem modify_length_append {α : Type} (f : α → α) (before : List α) (w : α) (after : List α) :
    (before ++ w :: after).modify before.length f = before ++ f w :: after := by
  induction before with
  | nil => rfl
  | cons b bs ih => simpa using ih

end ManyValued
