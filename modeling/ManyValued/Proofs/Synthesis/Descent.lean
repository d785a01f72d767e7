import ManyValued.Proofs.Synthesis.Integer

/-! Ways down a recursion. A step of a synthesis reduces a problem to one or two others, so a run of
it is a tree, and what happens on one branch is a list of steps. A reflection turns weights that are
not positive around, and taking units off them can only make few of them negative again: how many
reflections are still to come is a budget that each reflection uses and no other step enlarges. The
`¬` of a term stand where the recursion reflected, so the budget bounds them too. -/

namespace ManyValued

section Descent

variable {σ : Type}

/-- The steps that lead down from one problem to another, where `Calls p step q` says that `step`
reduces the problem `p` to `q` and perhaps another. -/
inductive Descent (Calls : σ → Reduction → σ → Prop) : σ → List Reduction → σ → Prop
  | refl (p : σ) : Descent Calls p [] p
  | cons {p q r : σ} {step : Reduction} {steps : List Reduction} (h : Calls p step q)
      (hq : Descent Calls q steps r) : Descent Calls p (step :: steps) r

/-- The event notes a step on a way down from the problem `p`. -/
def Noted (Calls : σ → Reduction → σ → Prop) (note : σ → Reduction → Event) (p : σ) (e : Event) :
    Prop :=
  ∃ steps q step r, Descent Calls p steps q ∧ Calls q step r ∧ e = note q step

/-- Some way down from the problem `p` reflects `n` times or more. -/
def Reflects (Calls : σ → Reduction → σ → Prop) (p : σ) (n : Nat) : Prop :=
  ∃ steps q, Descent Calls p steps q ∧ n ≤ steps.count .reflect

/-- A problem that allows `n` reflections allows one less after a reflection, and as many after any
other step. -/
structure Budget (Calls : σ → Reduction → σ → Prop) (Allows : Nat → σ → Prop) : Prop where
  reflect : ∀ {p q n}, Calls p .reflect q → Allows n p → ∃ m, n = m + 1 ∧ Allows m q
  other : ∀ {p step q n}, Calls p step q → step ≠ .reflect → Allows n p → Allows n q

variable {Calls : σ → Reduction → σ → Prop} {note : σ → Reduction → Event}
  {Allows : Nat → σ → Prop} {p q : σ} {step : Reduction} {steps : List Reduction} {e : Event}
  {n : Nat}

theorem Noted.here (h : Calls p step q) : Noted Calls note p (note p step) :=
  ⟨[], p, step, q, .refl p, h, rfl⟩

theorem Noted.below (h : Calls p step q) (he : Noted Calls note q e) : Noted Calls note p e := by
  obtain ⟨steps, q', step', r, hd, hc, rfl⟩ := he
  exact ⟨step :: steps, q', step', r, .cons h hd, hc, rfl⟩

theorem Reflects.zero (Calls : σ → Reduction → σ → Prop) (p : σ) : Reflects Calls p 0 :=
  ⟨[], p, .refl p, Nat.zero_le _⟩

theorem Reflects.reflect (h : Calls p .reflect q) (hq : Reflects Calls q n) :
    Reflects Calls p (n + 1) := by
  obtain ⟨steps, r, hd, hle⟩ := hq
  refine ⟨.reflect :: steps, r, .cons h hd, ?_⟩
  rw [List.count_cons_self]
  exact Nat.succ_le_succ hle

theorem Reflects.below (h : Calls p step q) (hq : Reflects Calls q n) : Reflects Calls p n := by
  obtain ⟨steps, r, hd, hle⟩ := hq
  exact ⟨step :: steps, r, .cons h hd, hle.trans (List.count_le_count_cons ..)⟩

theorem Reflects.mono {m : Nat} (hq : Reflects Calls p n) (h : m ≤ n) : Reflects Calls p m := by
  obtain ⟨steps, r, hd, hle⟩ := hq
  exact ⟨steps, r, hd, h.trans hle⟩

theorem Descent.count_reflect_le (hb : Budget Calls Allows) (h : Descent Calls p steps q)
    (ha : Allows n p) : steps.count .reflect ≤ n := by
  induction h generalizing n with
  | refl p => exact Nat.zero_le n
  | @cons p q r step steps h hq ih =>
    by_cases hs : step = .reflect
    · subst hs
      obtain ⟨m, rfl, hm⟩ := hb.reflect h ha
      rw [List.count_cons_self]
      exact Nat.succ_le_succ (ih hm)
    · rw [List.count_cons_of_ne hs]
      exact ih (hb.other h hs ha)

theorem Reflects.le (hb : Budget Calls Allows) {m : Nat} (h : Reflects Calls p m)
    (ha : Allows n p) : m ≤ n := by
  obtain ⟨steps, q, hd, hle⟩ := h
  exact hle.trans (hd.count_reflect_le hb ha)

end Descent

namespace Term

def negDepth : Term → Nat
  | falsum | verum | input _ => 0
  | neg t => t.negDepth + 1
  | delta _ t => t.negDepth
  | conj s t | disj s t => max s.negDepth t.negDepth

theorem negDepth_constant (b : Bool) : (constant b).negDepth = 0 := by
  cases b <;> rfl

/-- A way down what a step puts together leads through one of the two terms below it. -/
theorem negDepth_combine {left y right : Term} (hy : y.negDepth = 0) :
    (combine left y right).negDepth ≤ left.negDepth ∨
      (combine left y right).negDepth ≤ right.negDepth := by
  unfold combine
  split_ifs
  · exact .inl (Nat.zero_le _)
  · exact .inr le_rfl
  · exact .inl (hy ▸ Nat.zero_le _)
  · exact .inl (max_le le_rfl (hy ▸ Nat.zero_le _))
  · exact .inr (max_le (hy ▸ Nat.zero_le _) le_rfl)
  · simp only [negDepth, hy, Nat.max_zero]
    exact (le_total right.negDepth left.negDepth).imp (max_le le_rfl) (max_le · le_rfl)

/-- So it reflects no more often than the recursion did on a way down to one of them. -/
theorem reflects_combine {σ : Type} {Calls : σ → Reduction → σ → Prop} {p q r : σ}
    {step : Reduction} {left y right : Term} (hy : y.negDepth = 0) (hl : Calls p step q)
    (hr : Calls p step r) (ihl : Reflects Calls q left.negDepth)
    (ihr : Reflects Calls r right.negDepth) : Reflects Calls p (combine left y right).negDepth := by
  rcases negDepth_combine hy with h | h
  · exact (ihl.mono h).below hl
  · exact (ihr.mono h).below hr

end Term

namespace Integer

inductive Calls : List Int × Int → Reduction → List Int × Int → Prop
  | reflect {weights : List Int} {bias : Int} (hz : ¬ weights.all (· = 0))
      (hp : firstPositive? weights = none) :
      Calls (weights, bias) .reflect (opposite weights, 1 - bias)
  | decrement {weights : List Int} {bias bias' : Int} {i : Nat}
      (hp : firstPositive? weights = some i) (hb : bias' = bias ∨ bias' = bias + 1) :
      Calls (weights, bias) (.decrement (i + 1)) (decrement weights i, bias')

/-- Without negative weights there is nothing to reflect, and after a reflection there are none. -/
def Allows : Nat → List Int × Int → Prop
  | 0, p => ∀ w ∈ p.1, 0 ≤ w
  | _ + 1, _ => True

theorem allows_opposite {weights : List Int} (hp : firstPositive? weights = none) (bias : Int) :
    Allows 0 (opposite weights, bias) := by
  intro v hv
  obtain ⟨w, hw, rfl⟩ := List.mem_map.1 hv
  have := firstPositive?_eq_none_iff.1 hp w hw
  omega

theorem budget : Budget Calls Allows where
  reflect := by
    intro p q n h ha
    cases h with
    | @reflect weights bias hz hp =>
      match n with
      | 0 =>
        refine absurd ?_ hz
        rw [List.all_eq_true]
        intro w hw
        have h0 : 0 ≤ w := ha w hw
        have h1 := firstPositive?_eq_none_iff.1 hp w hw
        exact decide_eq_true (by omega)
      | 1 => exact ⟨0, rfl, allows_opposite hp _⟩
      | n + 2 => exact ⟨n + 1, rfl, trivial⟩
  other := by
    intro p step q n h hne ha
    cases h with
    | reflect => exact absurd rfl hne
    | decrement hp hb =>
      match n with
      | 0 => exact forall_mem_modify hp ha fun w hw => by omega
      | n + 1 => trivial

variable {weights : List Int} {bias : Int} {t : Term}

theorem noted_of_mem_journal {e : Event} (h : e ∈ (synthesize weights bias).journal) :
    Noted Calls (fun p step => .integerStep p.1 p.2 step) (weights, bias) e := by
  induction weights, bias using synthesize.induct with
  | case1 weights bias hz =>
    rw [synthesize_of_zeros hz] at h
    cases h
  | case2 weights bias hz hp hlt ih =>
    rw [synthesize_reflect hz hp] at h
    simp only [Logged.journal_bind, Logged.journal_pure, List.append_nil, List.mem_append] at h
    rcases h with h | h
    · obtain rfl := List.mem_singleton.1 h
      exact .here (.reflect hz hp)
    · exact .below (.reflect hz hp) (ih h)
  | case3 weights bias hz i hp hlt ihl ihr =>
    rw [synthesize_decrement hz hp] at h
    simp only [Logged.journal_bind, Logged.journal_pure, List.append_nil, List.mem_append] at h
    rcases h with h | h | h
    · obtain rfl := List.mem_singleton.1 h
      exact .here (.decrement hp (.inl rfl))
    · exact .below (.decrement hp (.inl rfl)) (ihl h)
    · exact .below (.decrement hp (.inr rfl)) (ihr h)

theorem Calls.journal {p q : List Int × Int} {step : Reduction} (h : Calls p step q) :
    .integerStep p.1 p.2 step ∈ (synthesize p.1 p.2).journal ∧
      (synthesize q.1 q.2).journal ⊆ (synthesize p.1 p.2).journal := by
  cases h with
  | reflect hz hp =>
    rw [synthesize_reflect hz hp]
    simp only [Logged.journal_bind, Logged.journal_pure, List.append_nil]
    exact ⟨List.mem_append_left _ (List.mem_singleton_self _), List.subset_append_right ..⟩
  | decrement hp hb =>
    have hz := not_all_zero_of_firstPositive? (lt_irrefl 0) hp
    rw [synthesize_decrement hz hp]
    simp only [Logged.journal_bind, Logged.journal_pure, List.append_nil]
    refine ⟨List.mem_append_left _ (List.mem_singleton_self _), ?_⟩
    rcases hb with rfl | rfl
    · exact List.subset_append_of_subset_right _ (List.subset_append_left ..)
    · exact List.subset_append_of_subset_right _ (List.subset_append_right ..)

/-- A run notes exactly the steps on ways down from its problem. -/
theorem mem_journal_iff {p : List Int × Int} {e : Event} :
    e ∈ (synthesize p.1 p.2).journal ↔
      Noted Calls (fun p step => .integerStep p.1 p.2 step) p e := by
  refine ⟨noted_of_mem_journal, ?_⟩
  rintro ⟨steps, q, step, r, hd, hc, rfl⟩
  induction hd with
  | refl p => exact hc.journal.1
  | cons h hq ih => exact h.journal.2 (ih hc)

/-- Every `¬` of a term stands where the recursion reflected. -/
theorem Builds.reflects (h : Builds weights bias t) :
    Reflects Calls (weights, bias) t.negDepth := by
  induction h with
  | constant hz =>
    rw [Term.negDepth_constant]
    exact .zero _ _
  | reflect hz hp ht ih => exact .reflect (.reflect hz hp) ih
  | decrement hp hl hr ihl ihr =>
    exact Term.reflects_combine rfl (.decrement hp (.inl rfl)) (.decrement hp (.inr rfl)) ihl ihr

end Integer

end ManyValued
