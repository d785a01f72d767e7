import ManyValued.Journal
import Mathlib.Data.List.Forall2

/-! Outcomes of computations that are made of several. A sequence succeeds when each part does, and
what is noted in the journal on the way does not change it. -/

namespace ManyValued

variable {ε α β : Type}

theorem bind_eq_ok_iff {x : Except ε α} {f : α → Except ε β} {b : β} :
    x >>= f = .ok b ↔ ∃ a, x = .ok a ∧ f a = .ok b := by
  cases x with
  | error e => simp [bind, Except.bind]
  | ok a => simp [bind, Except.bind]

@[simp] theorem ok_bind (a : α) (f : α → Except ε β) : (Except.ok a >>= f) = f a := rfl

@[simp] theorem error_bind (e : ε) (f : α → Except ε β) :
    (Except.error e >>= f) = .error e := rfl

@[simp] theorem outcome_note (e : Event) (f : Unit → Attempt α) :
    Attempt.outcome (liftM (Logged.note e) >>= f) = (f ()).outcome := by
  rw [Attempt.outcome_bind, Attempt.outcome_lift]
  rfl

/-- What a computation notes is noted by its first part, or by what follows when that succeeds. -/
theorem Attempt.mem_journal_bind {x : Attempt α} {f : α → Attempt β} {e : Event}
    (h : e ∈ (x >>= f).journal) : e ∈ x.journal ∨ ∃ a, e ∈ (f a).journal := by
  rw [Attempt.journal, ExceptT.run_bind, Logged.journal_bind, List.mem_append] at h
  refine h.imp_right fun h => ?_
  cases hx : (ExceptT.run x).value with
  | error e =>
    rw [hx] at h
    cases h
  | ok a =>
    rw [hx] at h
    exact ⟨a, h⟩

theorem Attempt.mem_journal_bind_left {x : Attempt α} {e : Event} (h : e ∈ x.journal)
    (f : α → Attempt β) : e ∈ (x >>= f).journal := by
  rw [Attempt.journal, ExceptT.run_bind, Logged.journal_bind]
  exact List.mem_append_left _ h

theorem Attempt.mem_journal_bind_right {x : Attempt α} {f : α → Attempt β} {e : Event} {a : α}
    (hx : x.outcome = .ok a) (h : e ∈ (f a).journal) : e ∈ (x >>= f).journal := by
  have hvalue : (ExceptT.run x).value = .ok a := hx
  rw [Attempt.journal, ExceptT.run_bind, Logged.journal_bind, hvalue]
  exact List.mem_append_right _ h

@[simp] theorem journal_note (e : Event) (f : Unit → Attempt α) :
    Attempt.journal (liftM (Logged.note e) >>= f) = e :: (f ()).journal := rfl

theorem mapM_eq_ok_iff {f : α → Except ε β} {xs : List α} {ys : List β} :
    xs.mapM f = .ok ys ↔ List.Forall₂ (fun x y => f x = .ok y) xs ys := by
  induction xs generalizing ys with
  | nil => cases ys <;> simp [pure, Except.pure]
  | cons x xs ih =>
    rw [List.mapM_cons, bind_eq_ok_iff]
    constructor
    · rintro ⟨y, hy, h⟩
      obtain ⟨zs, hzs, h⟩ := bind_eq_ok_iff.1 h
      obtain rfl : y :: zs = ys := Except.ok.inj h
      exact .cons hy (ih.1 hzs)
    · intro h
      cases h with
      | cons hy hys => exact ⟨_, hy, bind_eq_ok_iff.2 ⟨_, ih.2 hys, rfl⟩⟩

theorem mapM_congr {f g : α → Except ε β} {xs : List α} (h : ∀ x ∈ xs, f x = g x) :
    xs.mapM f = xs.mapM g := by
  induction xs with
  | nil => rfl
  | cons x xs ih =>
    obtain ⟨hx, hxs⟩ := List.forall_mem_cons.1 h
    rw [List.mapM_cons, List.mapM_cons, hx, ih hxs]

theorem exists_of_forall₂ {R : α → β → Prop} {xs : List α} {ys : List β}
    (h : List.Forall₂ R xs ys) : ∀ y ∈ ys, ∃ x ∈ xs, R x y := by
  induction h with
  | nil => exact fun _ hy => nomatch hy
  | @cons a b xs ys hR _ ih =>
    intro y hy
    rcases List.mem_cons.1 hy with rfl | hy
    · exact ⟨a, List.mem_cons_self .., hR⟩
    · obtain ⟨x, hx, hxy⟩ := ih y hy
      exact ⟨x, List.mem_cons_of_mem _ hx, hxy⟩

theorem mapM_cons_bind {γ : Type} (f : α → Except ε β) (x : α) (xs : List α)
    (k : List β → Except ε γ) :
    (x :: xs).mapM f >>= k = f x >>= fun y => xs.mapM f >>= fun ys => k (y :: ys) := by
  rw [List.mapM_cons]
  simp only [bind_assoc, pure_bind]

/-- Parts that also know their place, where only what is noted in the journal depends on it. -/
theorem mapM_zipIdx {γ : Type} {f : α × Nat → Except ε β} {g : α → Except ε γ} {r : γ → β}
    (h : ∀ x i, f (x, i) = g x >>= fun y => .ok (r y)) (xs : List α) :
    xs.zipIdx.mapM f = xs.mapM g >>= fun ys => .ok (ys.map r) := by
  suffices hk : ∀ k, (xs.zipIdx k).mapM f = xs.mapM g >>= fun ys => .ok (ys.map r) from hk 0
  induction xs with
  | nil => exact fun _ => rfl
  | cons x xs ih =>
    intro k
    rw [List.zipIdx_cons, List.mapM_cons, h, ih, mapM_cons_bind]
    simp only [bind_assoc, ok_bind]
    rfl

theorem mapM_set {f : α → Except ε β} {r : β → β} {x x' : α} {i : Nat} {xs : List α}
    (hx : xs[i]? = some x) (h : f x' = f x >>= fun y => .ok (r y)) :
    (xs.set i x').mapM f = xs.mapM f >>= fun ys => .ok (ys.modify i r) := by
  induction xs generalizing i with
  | nil => cases hx
  | cons a as ih =>
    cases i with
    | zero =>
      obtain rfl : a = x := Option.some.inj hx
      rw [List.set_cons_zero, List.mapM_cons, h, mapM_cons_bind]
      simp only [bind_assoc, ok_bind]
      rfl
    | succ i =>
      rw [List.set_cons_succ, List.mapM_cons, ih hx, mapM_cons_bind]
      simp only [bind_assoc, ok_bind]
      rfl

theorem mapM_insertIdx {f : α → Except ε β} {x : α} {y : β} (h : f x = .ok y) (xs : List α)
    (i : Nat) : (xs.insertIdx i x).mapM f = xs.mapM f >>= fun ys => .ok (ys.insertIdx i y) := by
  induction i generalizing xs with
  | zero =>
    rw [List.insertIdx_zero, List.mapM_cons, h, ok_bind]
    rfl
  | succ i ih =>
    cases xs with
    | nil => rfl
    | cons a as =>
      rw [List.insertIdx_succ_cons, List.mapM_cons, ih, mapM_cons_bind]
      simp only [bind_assoc, ok_bind]
      rfl

def failure? : Except ε α → Option ε
  | .error e => some e
  | .ok _ => none

theorem failure?_eq_some_iff {x : Except ε α} {e : ε} : failure? x = some e ↔ x = .error e := by
  cases x <;> simp [failure?]

theorem failure?_eq_none_iff {x : Except ε α} : failure? x = none ↔ ∃ a, x = .ok a := by
  cases x <;> simp [failure?]

/-- Where the second part fails alike whatever the first part gives, the error is that of the first
part or, if this succeeds, of the second. -/
theorem failure?_bind {x : Except ε α} {f : α → Except ε β} {e : Option ε}
    (h : ∀ a, failure? (f a) = e) : failure? (x >>= f) = (failure? x).or e := by
  cases x with
  | error e => rfl
  | ok a => exact h a

theorem failure?_mapM (f : α → Except ε β) (xs : List α) :
    failure? (xs.mapM f) = xs.findSome? fun x => failure? (f x) := by
  induction xs with
  | nil => rfl
  | cons x xs ih =>
    rw [List.mapM_cons, List.findSome?_cons, ← ih]
    cases f x with
    | error e => rfl
    | ok y => cases xs.mapM f <;> rfl

end ManyValued
