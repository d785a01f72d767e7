import ManyValued.Proofs.Blank

/-! How deep a text is nested in parentheses. `nesting` reads a text, counts the parentheses that
are open, and gives up at one that was never opened or, outside all of them, at a character that
stops it. Matching a parenthesis and finding the first bare connective are both questions about it:
what `closing` and `scan` pass over is exactly what `nesting` reads through. -/

namespace ManyValued

/-- The parentheses left open after a text, with `depth` open before it. -/
def nesting (stop : Char → Bool) (depth : Nat) : List Char → Option Nat
  | [] => some depth
  | c :: rest =>
    if c = '(' then nesting stop (depth + 1) rest
    else if c = ')' then
      match depth with
      | 0 => none
      | d + 1 => nesting stop d rest
    else if depth = 0 ∧ stop c then none
    else nesting stop depth rest

def Balanced (s : List Char) : Prop := nesting (fun _ => false) 0 s = some 0

/-- The parentheses match, and every connective is inside one. -/
def Quiet (s : List Char) : Prop := nesting opensConnective 0 s = some 0

theorem paren_cases (c : Char) : c = '(' ∨ c = ')' ∨ c ≠ '(' ∧ c ≠ ')' := by
  by_cases h1 : c = '('
  · exact .inl h1
  · by_cases h2 : c = ')'
    · exact .inr (.inl h2)
    · exact .inr (.inr ⟨h1, h2⟩)

section Nesting

variable {stop : Char → Bool} {s : List Char} {c : Char} {d e : Nat}

theorem nesting_open (stop : Char → Bool) (d : Nat) (s : List Char) :
    nesting stop d ('(' :: s) = nesting stop (d + 1) s := rfl

theorem nesting_other (h1 : c ≠ '(') (h2 : c ≠ ')') (d : Nat) (s : List Char) :
    nesting stop d (c :: s) = if d = 0 ∧ stop c then none else nesting stop d s := by
  simp only [nesting, if_neg h1, if_neg h2]

theorem nesting_append (stop : Char → Bool) (d : Nat) (a b : List Char) :
    nesting stop d (a ++ b) = (nesting stop d a).bind fun e => nesting stop e b := by
  induction a generalizing d with
  | nil => rfl
  | cons c a ih =>
    rw [List.cons_append]
    rcases paren_cases c with rfl | rfl | ⟨h1, h2⟩
    · exact ih (d + 1)
    · cases d with
      | zero => rfl
      | succ d => exact ih d
    · rw [nesting_other h1 h2, nesting_other h1 h2]
      split
      · rfl
      · exact ih d

theorem nesting_of_plain (h : ∀ c ∈ s, c ≠ '(' ∧ c ≠ ')' ∧ stop c = false) (d : Nat) :
    nesting stop d s = some d := by
  induction s with
  | nil => rfl
  | cons c s ih =>
    obtain ⟨h1, h2, h3⟩ := h c (List.mem_cons_self ..)
    rw [nesting_other h1 h2, if_neg (by simp [h3])]
    exact ih fun c hc => h c (List.mem_cons_of_mem _ hc)

theorem nesting_of_nesting (h : nesting stop d s = some e) :
    nesting (fun _ => false) d s = some e := by
  induction s generalizing d with
  | nil => exact h
  | cons c s ih =>
    rcases paren_cases c with rfl | rfl | ⟨h1, h2⟩
    · exact ih h
    · cases d with
      | zero => cases h
      | succ d => exact ih h
    · rw [nesting_other h1 h2] at h ⊢
      split at h
      · cases h
      · rw [if_neg (by simp)]
        exact ih h

/-- Inside one more parenthesis nothing stops. -/
theorem nesting_succ (stop : Char → Bool) (h : nesting (fun _ => false) d s = some e) :
    nesting stop (d + 1) s = some (e + 1) := by
  induction s generalizing d with
  | nil =>
    rw [← Option.some.inj h]
    rfl
  | cons c s ih =>
    rcases paren_cases c with rfl | rfl | ⟨h1, h2⟩
    · exact ih h
    · cases d with
      | zero => cases h
      | succ d => exact ih h
    · rw [nesting_other h1 h2] at h ⊢
      rw [if_neg (by simp)] at h
      rw [if_neg (by omega)]
      exact ih h

end Nesting

theorem quiet_parens {s : List Char} (h : Balanced s) : Quiet ('(' :: s ++ [')']) := by
  rw [Quiet, List.cons_append, nesting_open, nesting_append, nesting_succ _ h]
  rfl

theorem Quiet.balanced {s : List Char} (h : Quiet s) : Balanced s := nesting_of_nesting h

theorem Quiet.append {a b : List Char} (ha : Quiet a) (hb : Quiet b) : Quiet (a ++ b) := by
  rw [Quiet, nesting_append, ha]
  exact hb

theorem Balanced.append {a b : List Char} (ha : Balanced a) (hb : Balanced b) :
    Balanced (a ++ b) := by
  rw [Balanced, nesting_append, ha]
  exact hb

/-- Reading to the end of a quiet text and on from there. -/
theorem Quiet.nesting_append {a : List Char} (ha : Quiet a) (b : List Char) :
    nesting opensConnective 0 (a ++ b) = nesting opensConnective 0 b := by
  rw [ManyValued.nesting_append, ha, Option.bind_some]

theorem Quiet.exists_nesting {a b : List Char} (h : Quiet (a ++ b)) :
    ∃ e, nesting opensConnective 0 a = some e ∧ nesting opensConnective e b = some 0 := by
  rw [Quiet, ManyValued.nesting_append] at h
  exact Option.bind_eq_some_iff.1 h

theorem opensConnective_ne {c : Char} (h : opensConnective c = true) : c ≠ '(' ∧ c ≠ ')' := by
  constructor
  · rintro rfl
    exact absurd h (by decide)
  · rintro rfl
    exact absurd h (by decide)

theorem nesting_stopped {c : Char} (h : opensConnective c = true) (rest : List Char) :
    nesting opensConnective 0 (c :: rest) = none := by
  obtain ⟨h1, h2⟩ := opensConnective_ne h
  rw [nesting_other h1 h2, if_pos ⟨rfl, h⟩]

section Closing

variable {d e : Nat} {seen mid text inside after : List Char}

theorem closing_open (d : Nat) (seen rest : List Char) :
    closing d seen ('(' :: rest) = closing (d + 1) ('(' :: seen) rest := rfl

theorem closing_close_succ (d : Nat) (seen rest : List Char) :
    closing (d + 1) seen (')' :: rest) = closing d (')' :: seen) rest := rfl

theorem closing_other {c : Char} (h1 : c ≠ '(') (h2 : c ≠ ')') (d : Nat)
    (seen rest : List Char) : closing d seen (c :: rest) = closing d (c :: seen) rest := by
  simp only [closing, if_neg h1, if_neg h2]

theorem closing_append (h : nesting (fun _ => false) d mid = some e) (rest : List Char) :
    closing d seen (mid ++ rest) = closing e (mid.reverse ++ seen) rest := by
  induction mid generalizing d seen with
  | nil => rw [Option.some.inj h, List.nil_append, List.reverse_nil, List.nil_append]
  | cons c mid ih =>
    rw [List.cons_append, List.reverse_cons, List.append_assoc, List.singleton_append]
    rcases paren_cases c with rfl | rfl | ⟨h1, h2⟩
    · rw [closing_open]
      exact ih h
    · cases d with
      | zero => cases h
      | succ d =>
        rw [closing_close_succ]
        exact ih h
    · rw [nesting_other h1 h2, if_neg (by simp)] at h
      rw [closing_other h1 h2]
      exact ih h

theorem exists_of_closing (h : closing d seen text = some (inside, after)) :
    ∃ mid, text = mid ++ ')' :: after ∧ inside = seen.reverse ++ mid ∧
      nesting (fun _ => false) d mid = some 0 := by
  induction text generalizing d seen with
  | nil => cases h
  | cons c text ih =>
    rcases paren_cases c with rfl | rfl | ⟨h1, h2⟩
    · obtain ⟨mid, rfl, rfl, hm⟩ := ih h
      exact ⟨'(' :: mid, rfl, by simp, hm⟩
    · cases d with
      | zero =>
        obtain ⟨rfl, rfl⟩ := Prod.mk.inj (Option.some.inj h)
        exact ⟨[], rfl, by simp, rfl⟩
      | succ d =>
        obtain ⟨mid, rfl, rfl, hm⟩ := ih h
        exact ⟨')' :: mid, rfl, by simp, hm⟩
    · rw [closing_other h1 h2] at h
      obtain ⟨mid, rfl, rfl, hm⟩ := ih h
      refine ⟨c :: mid, rfl, by simp, ?_⟩
      rw [nesting_other h1 h2, if_neg (by simp)]
      exact hm

/-- A parenthesis that a text leaves closed was closed somewhere in it. -/
theorem exists_close (h : nesting (fun _ => false) (d + 1) text = some 0) :
    ∃ mid after, text = mid ++ ')' :: after ∧ nesting (fun _ => false) d mid = some 0 := by
  induction text generalizing d with
  | nil => cases h
  | cons c text ih =>
    rcases paren_cases c with rfl | rfl | ⟨h1, h2⟩
    · obtain ⟨mid, after, rfl, hm⟩ := ih h
      exact ⟨'(' :: mid, after, rfl, hm⟩
    · cases d with
      | zero => exact ⟨[], text, rfl, rfl⟩
      | succ d =>
        obtain ⟨mid, after, rfl, hm⟩ := ih h
        exact ⟨')' :: mid, after, rfl, hm⟩
    · rw [nesting_other h1 h2, if_neg (by omega)] at h
      obtain ⟨mid, after, rfl, hm⟩ := ih h
      refine ⟨c :: mid, after, rfl, ?_⟩
      rw [nesting_other h1 h2, if_neg (by simp)]
      exact hm

end Closing

section Strip

variable {s text inner : List Char}

theorem stripEnclosing_parens (h : Balanced s) : stripEnclosing ('(' :: s ++ [')']) = some s := by
  have hc : closing 0 [] (s ++ [')']) = some (s, []) := by
    rw [closing_append h, List.append_nil]
    simp [closing]
  rw [List.cons_append, stripEnclosing, hc]

/-- Parentheses that end before the text does are left alone. -/
theorem stripEnclosing_prefix {q rest : List Char} {c : Char} (hq : Balanced q) (hc : c ≠ '(') :
    stripEnclosing (q ++ c :: rest) = some (q ++ c :: rest) := by
  cases q with
  | nil =>
    rw [List.nil_append, stripEnclosing]
    rintro rest' h
    exact hc (List.cons.inj h).1
  | cons b q =>
    by_cases hb : b = '('
    · subst hb
      obtain ⟨mid, after, rfl, hm⟩ := exists_close hq
      have hcl : closing 0 [] (mid ++ ')' :: (after ++ c :: rest)) =
          some (mid, after ++ c :: rest) := by
        rw [closing_append hm, List.append_nil]
        simp [closing]
      rw [List.cons_append, List.append_assoc, List.cons_append, stripEnclosing, hcl]
      cases after <;> rfl
    · rw [List.cons_append, stripEnclosing]
      rintro rest' h
      exact hb (List.cons.inj h).1

theorem cases_of_stripEnclosing (h : stripEnclosing text = some inner) :
    text = inner ∨ text = '(' :: inner ++ [')'] ∧ Balanced inner := by
  unfold stripEnclosing at h
  split at h
  · split at h
    · cases h
    · rename_i hc
      obtain rfl := Option.some.inj h
      obtain ⟨mid, rfl, rfl, hm⟩ := exists_of_closing hc
      exact .inr ⟨rfl, hm⟩
    · exact .inl (Option.some.inj h)
  · exact .inl (Option.some.inj h)

end Strip

section Scan

variable {d e : Nat} {seen mid text before after : List Char} {c : Char}

theorem scan_open (d : Nat) (seen rest : List Char) :
    scan d seen ('(' :: rest) = scan (d + 1) ('(' :: seen) rest := rfl

theorem scan_close_succ (d : Nat) (seen rest : List Char) :
    scan (d + 1) seen (')' :: rest) = scan d (')' :: seen) rest := rfl

theorem scan_other (h1 : c ≠ '(') (h2 : c ≠ ')') (d : Nat) (seen rest : List Char) :
    scan d seen (c :: rest) =
      if d = 0 ∧ opensConnective c then .found seen.reverse c rest
      else scan d (c :: seen) rest := by
  simp only [scan, if_neg h1, if_neg h2]

theorem scan_append (h : nesting opensConnective d mid = some e) (rest : List Char) :
    scan d seen (mid ++ rest) = scan e (mid.reverse ++ seen) rest := by
  induction mid generalizing d seen with
  | nil => rw [Option.some.inj h, List.nil_append, List.reverse_nil, List.nil_append]
  | cons c mid ih =>
    rw [List.cons_append, List.reverse_cons, List.append_assoc, List.singleton_append]
    rcases paren_cases c with rfl | rfl | ⟨h1, h2⟩
    · rw [scan_open]
      exact ih h
    · cases d with
      | zero => cases h
      | succ d =>
        rw [scan_close_succ]
        exact ih h
    · rw [nesting_other h1 h2] at h
      rw [scan_other h1 h2]
      split at h
      · cases h
      · rename_i h3
        rw [if_neg h3]
        exact ih h

theorem scan_found (hq : Quiet before) (hc : opensConnective c = true) (after : List Char) :
    scan 0 [] (before ++ c :: after) = .found before c after := by
  obtain ⟨h1, h2⟩ := opensConnective_ne hc
  rw [scan_append hq, scan_other h1 h2, if_pos ⟨rfl, hc⟩, List.append_nil, List.reverse_reverse]

theorem scan_plain (hq : Quiet text) : scan 0 [] text = .plain := by
  have h : scan 0 [] (text ++ []) = scan 0 (text.reverse ++ []) [] := scan_append hq []
  rw [List.append_nil] at h
  rw [h]
  rfl

/-- What a scan has passed over before it stops. -/
theorem exists_of_scan_found (h : scan d seen text = .found before c after) :
    ∃ mid, text = mid ++ c :: after ∧ before = seen.reverse ++ mid ∧
      nesting opensConnective d mid = some 0 ∧ opensConnective c = true := by
  induction text generalizing d seen with
  | nil =>
    cases d with
    | zero => cases h
    | succ d => cases h
  | cons b text ih =>
    rcases paren_cases b with rfl | rfl | ⟨h1, h2⟩
    · obtain ⟨mid, rfl, rfl, hm⟩ := ih h
      exact ⟨'(' :: mid, rfl, by simp, hm⟩
    · cases d with
      | zero => cases h
      | succ d =>
        obtain ⟨mid, rfl, rfl, hm⟩ := ih h
        exact ⟨')' :: mid, rfl, by simp, hm⟩
    · rw [scan_other h1 h2] at h
      split at h
      · rename_i h3
        obtain ⟨rfl, hb⟩ := h3
        obtain ⟨rfl, rfl, rfl⟩ := Scan.found.inj h
        exact ⟨[], rfl, by simp, rfl, hb⟩
      · rename_i h3
        obtain ⟨mid, rfl, rfl, hm⟩ := ih h
        refine ⟨b :: mid, rfl, by simp, ?_⟩
        rw [nesting_other h1 h2, if_neg h3]
        exact hm

end Scan

end ManyValued
