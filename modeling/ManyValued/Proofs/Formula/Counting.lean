import ManyValued.Proofs.Formula.Nesting
import Mathlib.Data.List.Infix

/-! Parentheses by counting. Where a text has been read without giving up, the parentheses that are
open are those that were opened less those that were closed; so a quiet text is one in which no
prefix closes more than it opens and every connective comes after more openings than closings. The
search for the parenthesis that closes the first one can be done with a counter that starts at zero
and is never tested before it is lowered: it stands at one or more from the first parenthesis on. -/

namespace ManyValued

structure Sheltered (s : List Char) : Prop where
  prefixes : ∀ p, p <+: s → p.count ')' ≤ p.count '('
  total : s.count ')' = s.count '('
  connectives : ∀ before c after, s = before ++ c :: after →
    c ∈ ['¬', 'δ', '⊙', '⊕', '⇒', '=', '!'] → before.count ')' < before.count '('

section Count

variable {stop : Char → Bool} {s : List Char} {d e : Nat}

theorem count_of_nesting (h : nesting stop d s = some e) :
    e + s.count ')' = d + s.count '(' := by
  induction s generalizing d with
  | nil =>
    rw [Option.some.inj h]
    rfl
  | cons c s ih =>
    rcases paren_cases c with rfl | rfl | ⟨h1, h2⟩
    · have := ih h
      rw [List.count_cons_self, List.count_cons_of_ne (by decide)]
      omega
    · cases d with
      | zero => cases h
      | succ d =>
        have := ih h
        rw [List.count_cons_self, List.count_cons_of_ne (by decide)]
        omega
    · rw [nesting_other h1 h2] at h
      split at h
      · cases h
      · rw [List.count_cons_of_ne h1, List.count_cons_of_ne h2]
        exact ih h

theorem opensConnective_of_mem {c : Char} (hc : c ∈ ['¬', 'δ', '⊙', '⊕', '⇒', '=', '!']) :
    opensConnective c = true := by
  have hall : ['¬', 'δ', '⊙', '⊕', '⇒', '=', '!'].all opensConnective = true := by decide
  exact List.all_eq_true.1 hall c hc

theorem Quiet.sheltered (h : Quiet s) : Sheltered s where
  prefixes := by
    rintro p ⟨q, rfl⟩
    obtain ⟨e, he, -⟩ := h.exists_nesting
    have := count_of_nesting he
    omega
  total := by
    have := count_of_nesting h
    omega
  connectives := by
    rintro before c after rfl hc
    have hopens := opensConnective_of_mem hc
    obtain ⟨e, he, hrest⟩ := h.exists_nesting
    have hcount := count_of_nesting he
    cases e with
    | zero =>
      rw [nesting_stopped hopens] at hrest
      cases hrest
    | succ e => omega

end Count

/-- Looks for the parenthesis at which a counter of the open ones comes down to zero. The answer is
what stands before this parenthesis and after it, if there is one. There is no answer where the
counter would have to be lowered below zero. -/
def countdown (depth : Nat) (seen : List Char) : List Char → Option (Option (List Char × List Char))
  | [] => some none
  | c :: rest =>
    if c = '(' then countdown (depth + 1) (c :: seen) rest
    else if c = ')' then
      match depth with
      | 0 => none
      | 1 => some (some (seen.reverse, rest))
      | d + 2 => countdown (d + 1) (c :: seen) rest
    else countdown depth (c :: seen) rest

def stripCounting (text : List Char) : Option (Option (List Char)) :=
  match text with
  | '(' :: _ => (countdown 0 [] text).map fun
    | none => none
    | some (upTo, []) => some upTo.tail
    | some (_, _ :: _) => some text
  | _ => some (some text)

section Countdown

variable {d : Nat} {seen : List Char}

/-- From the first parenthesis on, the counter is one more than the parentheses opened since. -/
theorem countdown_eq (d : Nat) (seen text : List Char) :
    countdown (d + 1) (seen ++ ['(']) text =
      some ((closing d seen text).map fun parts => ('(' :: parts.1, parts.2)) := by
  induction text generalizing d seen with
  | nil => rfl
  | cons c text ih =>
    rcases paren_cases c with rfl | rfl | ⟨h1, h2⟩
    · exact ih (d + 1) ('(' :: seen)
    · cases d with
      | zero => simp [countdown, closing]
      | succ d => exact ih d (')' :: seen)
    · rw [closing_other h1 h2, ← ih d (c :: seen)]
      simp only [countdown, if_neg h1, if_neg h2, List.cons_append]

/-- The counter is never lowered below zero, and what it finds is what is dropped. -/
theorem stripCounting_eq (text : List Char) : stripCounting text = some (stripEnclosing text) := by
  unfold stripCounting
  split
  · rename_i rest
    have h : countdown 0 [] ('(' :: rest) = countdown 1 ([] ++ ['(']) rest := rfl
    rw [h, countdown_eq, stripEnclosing]
    cases closing 0 [] rest with
    | none => rfl
    | some parts =>
      obtain ⟨inside, after⟩ := parts
      cases after with
      | nil => rfl
      | cons c after => rfl
  · rename_i hopen
    rw [stripEnclosing]
    exact hopen

end Countdown

end ManyValued
