import ManyValued.Proofs.Synthesis.Descent
import ManyValued.Proofs.Synthesis.Fractional

/-! The fractional recursion ends. No single count of the weights falls at every step: a step that
takes a unit off a weight below 1 leaves it negative, and perhaps greater in size than before. What
falls is `rank`, in which the whole units come first, then the weights that are not 0, and last the
positive ones. A weight that a step leaves negative is above -1, so when the next reflection turns
it around it is below 1, and such weights are taken out whole: there is no third reflection. -/

namespace ManyValued

namespace Fractional

/-- The order of the ranks: the first number that differs decides. -/
def Smaller : Nat × Nat × Nat → Nat × Nat × Nat → Prop :=
  Prod.Lex (· < ·) (Prod.Lex (· < ·) (· < ·))

theorem wellFounded_smaller : WellFounded Smaller :=
  (inferInstance : WellFoundedRelation (Nat × Nat × Nat)).wf

inductive Calls : List Rat × Rat → Reduction → List Rat × Rat → Prop
  | reflect {weights : List Rat} {bias : Rat} (hz : ¬ weights.all (· = 0))
      (hp : firstPositive? weights = none) :
      Calls (weights, bias) .reflect (opposite weights, 1 - bias)
  | consume {weights : List Rat} {bias bias' : Rat} {i : Nat}
      (hp : firstPositive? weights = some i) (hs : weights.all (· < 1))
      (hb : bias' = bias ∨ bias' = bias + 1) :
      Calls (weights, bias) (.consume (i + 1)) (consume weights i, bias')
  | decrement {weights : List Rat} {bias bias' : Rat} {i : Nat}
      (hp : firstPositive? weights = some i) (hs : ¬ weights.all (· < 1))
      (hb : bias' = bias ∨ bias' = bias + 1) :
      Calls (weights, bias) (.decrement (i + 1)) (decrement weights i, bias')

theorem Calls.smaller {p q : List Rat × Rat} {step : Reduction} (h : Calls p step q) :
    Smaller (rank q.1) (rank p.1) := by
  cases h with
  | reflect hz hp => exact rank_opposite hz hp
  | consume hp hs hb => exact rank_consume hp hs
  | decrement hp hs hb => exact rank_decrement hp hs

theorem wellFounded_calls : WellFounded fun q p => ∃ step, Calls p step q :=
  Subrelation.wf (fun ⟨_, h⟩ => h.smaller)
    (InvImage.wf (fun p : List Rat × Rat => rank p.1) wellFounded_smaller)

/-- Weights above -1 are turned into weights below 1, which are never turned into negative ones. -/
def Allows : Nat → List Rat × Rat → Prop
  | 0, p => ∀ w ∈ p.1, 0 ≤ w ∧ w < 1
  | 1, p => ∀ w ∈ p.1, -1 < w
  | _ + 2, _ => True

theorem budget : Budget Calls Allows where
  reflect := by
    intro p q n h ha
    cases h with
    | @reflect weights bias hz hp =>
      have hle : ∀ w ∈ weights, w ≤ 0 := fun w hw => not_lt.1 (firstPositive?_eq_none_iff.1 hp w hw)
      match n with
      | 0 =>
        refine absurd ?_ hz
        rw [List.all_eq_true]
        intro w hw
        exact decide_eq_true (le_antisymm (hle w hw) (ha w hw).1)
      | 1 =>
        refine ⟨0, rfl, ?_⟩
        intro v hv
        obtain ⟨w, hw, rfl⟩ := List.mem_map.1 hv
        have h0 := hle w hw
        have h1 : -1 < w := ha w hw
        exact ⟨by linarith, by linarith⟩
      | 2 =>
        refine ⟨1, rfl, ?_⟩
        intro v hv
        obtain ⟨w, hw, rfl⟩ := List.mem_map.1 hv
        have h0 := hle w hw
        linarith
      | n + 3 => exact ⟨n + 2, rfl, trivial⟩
  other := by
    intro p step q n h hne ha
    cases h with
    | reflect => exact absurd rfl hne
    | consume hp hs hb =>
      match n with
      | 0 => exact forall_mem_modify hp ha fun _ _ => ⟨le_rfl, zero_lt_one⟩
      | 1 => exact forall_mem_modify hp ha fun _ _ => neg_one_lt_zero
      | n + 2 => trivial
    | decrement hp hs hb =>
      match n with
      | 0 =>
        refine absurd ?_ hs
        rw [List.all_eq_true]
        exact fun w hw => decide_eq_true (ha w hw).2
      | 1 =>
        -- The pivot was positive, so it stays above -1.
        exact forall_mem_modify hp ha fun w hw => by linarith
      | n + 2 => trivial

variable {scale : UInt32} {weights : List Rat} {bias : Rat} {t : Term}

theorem noted_of_mem_journal {e : Event} (h : e ∈ (synthesize scale weights bias).journal) :
    Noted Calls (fun p step => .fractionalStep p.1 p.2 step) (weights, bias) e := by
  induction weights, bias using synthesize.induct with
  | case1 weights bias hz hb =>
    rw [synthesize, dif_pos hz, if_pos hb] at h
    cases h
  | case2 weights bias hz hb =>
    rw [synthesize, dif_pos hz, if_neg hb] at h
    cases h
  | case3 weights bias hz hp hlt ih =>
    rw [synthesize_reflect hz hp, journal_note] at h
    rcases List.mem_cons.1 h with rfl | h
    · exact .here (.reflect hz hp)
    · obtain h | ⟨t, h⟩ := Attempt.mem_journal_bind h
      · exact .below (.reflect hz hp) (ih h)
      · cases h
  | case4 weights bias hz i hp hs hlt ihl ihr =>
    rw [synthesize_consume hz hp hs, journal_note] at h
    rcases List.mem_cons.1 h with rfl | h
    · exact .here (.consume hp hs (.inl rfl))
    · obtain h | ⟨copies, h⟩ := Attempt.mem_journal_bind h
      · cases h
      · obtain h | ⟨left, h⟩ := Attempt.mem_journal_bind h
        · exact .below (.consume hp hs (.inl rfl)) (ihl h)
        · obtain h | ⟨right, h⟩ := Attempt.mem_journal_bind h
          · exact .below (.consume hp hs (.inr rfl)) (ihr h)
          · obtain h | ⟨y, h⟩ := Attempt.mem_journal_bind h
            · cases h
            · cases h
  | case5 weights bias hz i hp hs hlt ihl ihr =>
    rw [synthesize_decrement hz hp hs, journal_note] at h
    rcases List.mem_cons.1 h with rfl | h
    · exact .here (.decrement hp hs (.inl rfl))
    · obtain h | ⟨left, h⟩ := Attempt.mem_journal_bind h
      · exact .below (.decrement hp hs (.inl rfl)) (ihl h)
      · obtain h | ⟨right, h⟩ := Attempt.mem_journal_bind h
        · exact .below (.decrement hp hs (.inr rfl)) (ihr h)
        · cases h

theorem exists_calls (hz : ¬ weights.all (· = 0)) (bias : Rat) :
    ∃ step q, Calls (weights, bias) step q := by
  cases hp : firstPositive? weights with
  | none => exact ⟨_, _, .reflect hz hp⟩
  | some i =>
    by_cases hs : weights.all (· < 1)
    · exact ⟨_, _, .consume hp hs (.inl rfl)⟩
    · exact ⟨_, _, .decrement hp hs (.inl rfl)⟩

/-- A run notes its own step before anything can fail. -/
theorem Calls.mem_journal {p q : List Rat × Rat} {step : Reduction} (h : Calls p step q)
    (scale : UInt32) : .fractionalStep p.1 p.2 step ∈ (synthesize scale p.1 p.2).journal := by
  cases h with
  | reflect hz hp =>
    rw [synthesize_reflect hz hp, journal_note]
    exact List.mem_cons_self ..
  | consume hp hs hb =>
    have hz := not_all_zero_of_firstPositive? (lt_irrefl 0) hp
    rw [synthesize_consume hz hp hs, journal_note]
    exact List.mem_cons_self ..
  | decrement hp hs hb =>
    have hz := not_all_zero_of_firstPositive? (lt_irrefl 0) hp
    rw [synthesize_decrement hz hp hs, journal_note]
    exact List.mem_cons_self ..

/-- A run that succeeds has carried out every call, and all these have succeeded. -/
theorem Calls.succeeds {p q : List Rat × Rat} {step : Reduction} (h : Calls p step q)
    (ht : (synthesize scale p.1 p.2).outcome = .ok t) :
    (∃ u, (synthesize scale q.1 q.2).outcome = .ok u) ∧
      (synthesize scale q.1 q.2).journal ⊆ (synthesize scale p.1 p.2).journal := by
  cases h with
  | reflect hz hp =>
    rw [outcome_reflect hz hp] at ht
    obtain ⟨u, hu, -⟩ := bind_eq_ok_iff.1 ht
    rw [synthesize_reflect hz hp, journal_note]
    exact ⟨⟨u, hu⟩, fun e he => List.mem_cons_of_mem _ (Attempt.mem_journal_bind_left he _)⟩
  | consume hp hs hb =>
    have hz := not_all_zero_of_firstPositive? (lt_irrefl 0) hp
    rw [outcome_consume hz hp hs] at ht
    obtain ⟨copies, hc, ht⟩ := bind_eq_ok_iff.1 ht
    obtain ⟨left, hl, ht⟩ := bind_eq_ok_iff.1 ht
    obtain ⟨right, hr, -⟩ := bind_eq_ok_iff.1 ht
    rw [synthesize_consume hz hp hs, journal_note]
    rcases hb with rfl | rfl
    · exact ⟨⟨left, hl⟩, fun e he => List.mem_cons_of_mem _ <|
        Attempt.mem_journal_bind_right hc (Attempt.mem_journal_bind_left he _)⟩
    · exact ⟨⟨right, hr⟩, fun e he => List.mem_cons_of_mem _ <| Attempt.mem_journal_bind_right hc <|
        Attempt.mem_journal_bind_right hl (Attempt.mem_journal_bind_left he _)⟩
  | decrement hp hs hb =>
    have hz := not_all_zero_of_firstPositive? (lt_irrefl 0) hp
    rw [outcome_decrement hz hp hs] at ht
    obtain ⟨left, hl, ht⟩ := bind_eq_ok_iff.1 ht
    obtain ⟨right, hr, -⟩ := bind_eq_ok_iff.1 ht
    rw [synthesize_decrement hz hp hs, journal_note]
    rcases hb with rfl | rfl
    · exact ⟨⟨left, hl⟩, fun e he =>
        List.mem_cons_of_mem _ (Attempt.mem_journal_bind_left he _)⟩
    · exact ⟨⟨right, hr⟩, fun e he => List.mem_cons_of_mem _ <|
        Attempt.mem_journal_bind_right hl (Attempt.mem_journal_bind_left he _)⟩

/-- A run that succeeds notes all steps on ways down from its problem. -/
theorem mem_journal_of_noted {p : List Rat × Rat} {e : Event}
    (ht : (synthesize scale p.1 p.2).outcome = .ok t)
    (h : Noted Calls (fun p step => .fractionalStep p.1 p.2 step) p e) :
    e ∈ (synthesize scale p.1 p.2).journal := by
  obtain ⟨steps, q, step, r, hd, hc, rfl⟩ := h
  induction hd generalizing t with
  | refl p => exact hc.mem_journal scale
  | cons h hq ih =>
    obtain ⟨⟨u, hu⟩, hsub⟩ := h.succeeds ht
    exact hsub (ih hu hc)

theorem negDepth_chain (summand : Term) (n : Nat) :
    (chain summand n).negDepth = summand.negDepth := by
  induction n with
  | zero => rfl
  | succ n ih => rw [chain, Term.negDepth, ih, max_self]

theorem negDepth_multiple {q : Rat} {t y : Term} (h : multiple scale q t = .ok y) :
    y.negDepth = t.negDepth := by
  obtain ⟨index, copies, -, -, rfl⟩ := multiple_eq_ok h
  rw [negDepth_chain, Term.negDepth]

theorem Builds.reflects (h : Builds scale weights bias t) :
    Reflects Calls (weights, bias) t.negDepth := by
  induction h with
  | constant hz hb =>
    rw [Term.negDepth_constant]
    exact .zero _ _
  | share hz hb ht =>
    rw [negDepth_multiple ht]
    exact .zero _ _
  | reflect hz hp ht ih => exact .reflect (.reflect hz hp) ih
  | consume hp hs hy hl hr ihl ihr =>
    exact Term.reflects_combine (negDepth_multiple hy) (.consume hp hs (.inl rfl))
      (.consume hp hs (.inr rfl)) ihl ihr
  | decrement hp hs hl hr ihl ihr =>
    exact Term.reflects_combine rfl (.decrement hp hs (.inl rfl)) (.decrement hp hs (.inr rfl))
      ihl ihr

/-- The recursion ends, since every call has a smaller rank. No way down it reflects more than
twice, and one of integers no more than once. A run takes only steps of such ways, its first one
whenever a weight is not 0 and, if it succeeds, all of them; so this also bounds the `¬` between the
root of its term and a leaf. -/
theorem recursion_ends_after_few_reflections :
    WellFounded Smaller ∧ (∀ p step q, Calls p step q → Smaller (rank q.1) (rank p.1)) ∧
    (WellFounded fun q p => ∃ step, Calls p step q) ∧
    (∀ p steps q, Descent Calls p steps q → steps.count .reflect ≤ 2) ∧
    (∀ scale weights bias,
      (∀ e ∈ (synthesize scale weights bias).journal,
        Noted Calls (fun p step => .fractionalStep p.1 p.2 step) (weights, bias) e) ∧
      (¬ weights.all (· = 0) → ∃ step q, Calls (weights, bias) step q ∧
        .fractionalStep weights bias step ∈ (synthesize scale weights bias).journal) ∧
      ∀ t, (synthesize scale weights bias).outcome = .ok t → t.negDepth ≤ 2 ∧
        ∀ e, Noted Calls (fun p step => .fractionalStep p.1 p.2 step) (weights, bias) e →
          e ∈ (synthesize scale weights bias).journal) ∧
    (∀ p steps q, Descent Integer.Calls p steps q → steps.count .reflect ≤ 1) ∧
    ∀ weights bias,
      (∀ e, e ∈ (Integer.synthesize weights bias).journal ↔
        Noted Integer.Calls (fun p step => .integerStep p.1 p.2 step) (weights, bias) e) ∧
      (Integer.synthesize weights bias).value.negDepth ≤ 1 := by
  refine ⟨wellFounded_smaller, fun _ _ _ => Calls.smaller, wellFounded_calls, ?_, ?_, ?_, ?_⟩
  · intro p steps q h
    exact h.count_reflect_le budget trivial
  · intro scale weights bias
    refine ⟨fun _ => noted_of_mem_journal, fun hz => ?_, fun t ht => ⟨?_, ?_⟩⟩
    · obtain ⟨step, q, h⟩ := exists_calls hz bias
      exact ⟨step, q, h, h.mem_journal scale⟩
    · exact (builds_of_ok ht).reflects.le budget trivial
    · exact fun e he => mem_journal_of_noted ht he
  · intro p steps q h
    exact h.count_reflect_le Integer.budget trivial
  · intro weights bias
    refine ⟨fun _ => Integer.mem_journal_iff (p := (weights, bias)), ?_⟩
    exact (Integer.builds_synthesize weights bias).reflects.le Integer.budget trivial

/-- The weight -1/4 is reflected, becomes -3/4 when the other weight is 1, and is reflected
again. -/
theorem recursion_ends_after_few_reflections_quarter :
    Smaller (rank [-3 / 4, 1]) (rank [1 / 4, 1]) ∧
    (∃ steps q, Descent Calls ([-1 / 4, -1], 1 / 2) steps q ∧
      steps = [.reflect, .decrement 1, .decrement 2, .reflect] ∧ steps.count .reflect ≤ 2) ∧
    ∃ t, (synthesize 4 [-1 / 4, -1] (1 / 2)).outcome = .ok t ∧ t.negDepth ≤ 2 := by
  obtain ⟨-, hsmaller, -, hcount, hrun, -⟩ := recursion_ends_after_few_reflections
  have hdecrement : Calls ([1 / 4, 1], 1 / 2) (.decrement 1) ([-3 / 4, 1], 1 / 2) := by
    rw [show ([-3 / 4, 1] : List Rat) = decrement [1 / 4, 1] 0 by decide +kernel]
    exact .decrement (by decide +kernel) (by decide +kernel) (.inl rfl)
  have hdescent : ∃ q, Descent Calls ([-1 / 4, -1], 1 / 2)
      [.reflect, .decrement 1, .decrement 2, .reflect] q :=
    ⟨_, .cons (.reflect (by decide +kernel) (by decide +kernel)) <|
      .cons (.decrement (by decide +kernel) (by decide +kernel) (.inl rfl)) <|
      .cons (.decrement (by decide +kernel) (by decide +kernel) (.inl rfl)) <|
      .cons (.reflect (by decide +kernel) (by decide +kernel)) (.refl _)⟩
  obtain ⟨q, hq⟩ := hdescent
  obtain ⟨t, ht⟩ : ∃ t, (synthesize 4 [-1 / 4, -1] (1 / 2)).outcome = .ok t :=
    exists_of_clears (by decide) (by unfold Clears; decide +kernel)
  exact ⟨hsmaller _ _ _ hdecrement, ⟨_, q, hq, rfl, hcount _ _ _ hq⟩, t, ht,
    ((hrun 4 _ _).2.2 t ht).1⟩

end Fractional

end ManyValued
