import ManyValued.Connective
import ManyValued.Error
import ManyValued.Formula.Token
import ManyValued.Text.Blank

/-! One layer of a formula's text. `Split.ofText` drops the parentheses around a text, finds the
first connective outside all others, and cuts there; a text without one is a leaf, whose token is
judged later. The operands are trimmed and strictly shorter than the text. -/

namespace ManyValued

inductive Split where
  | leaf (token : String)
  | unary (op : Unary) (operand : String)
  | binary (op : Binary) (left right : String)
  deriving DecidableEq, Repr

/-- What stands before the `)` that closes a parenthesis already open, and what follows it.
`depth` counts the parentheses opened since; `seen` is the text read, backwards. -/
def closing (depth : Nat) (seen : List Char) : List Char → Option (List Char × List Char)
  | [] => none
  | c :: rest =>
    if c = '(' then closing (depth + 1) (c :: seen) rest
    else if c = ')' then
      match depth with
      | 0 => some (seen.reverse, rest)
      | d + 1 => closing d (c :: seen) rest
    else closing depth (c :: seen) rest

/-- Drops one pair of parentheses that encloses the whole text; `none` if the first is never
closed. -/
def stripEnclosing (text : List Char) : Option (List Char) :=
  match text with
  | '(' :: rest =>
    match closing 0 [] rest with
    | none => none
    | some (inside, []) => some inside
    | some (_, _ :: _) => some text
  | _ => some text

def opensConnective (c : Char) : Bool :=
  c == negSymbol || c == deltaSymbol || c == '=' || c == '!' || (Binary.ofChar? c).isSome

inductive Scan where
  | unbalanced
  | plain
  | found (before : List Char) (symbol : Char) (after : List Char)

/-- Reads on to the first character outside all parentheses at which a connective begins. -/
def scan (depth : Nat) (seen : List Char) : List Char → Scan
  | [] => if depth = 0 then .plain else .unbalanced
  | c :: rest =>
    if c = '(' then scan (depth + 1) (c :: seen) rest
    else if c = ')' then
      match depth with
      | 0 => .unbalanced
      | d + 1 => scan d (c :: seen) rest
    else if depth = 0 ∧ opensConnective c then .found seen.reverse c rest
    else scan depth (c :: seen) rest

def trimmed (text : List Char) : String := String.ofList (trim text)

def cutDelta : List Char → Except FormulaFault Split
  | '_' :: rest =>
    let digits := rest.takeWhile Char.isDigit
    let scale := Nat.ofDigitChars 10 digits 0
    if digits.isEmpty then .error .emptyScale
    else if scale ≥ UInt32.size then .error .scaleTooLarge
    else if scale = 0 then .error .zeroScale
    else .ok (.unary (.delta (UInt32.ofNat scale)) (trimmed (rest.dropWhile Char.isDigit)))
  | _ => .error .missingScale

def cut (before : List Char) (symbol : Char) (after : List Char) :
    Except FormulaFault Split :=
  if symbol = negSymbol ∨ symbol = deltaSymbol then
    if (trim before).isEmpty then
      if symbol = negSymbol then .ok (.unary .neg (trimmed after)) else cutDelta after
    else .error (.misplaced symbol)
  else
    match Binary.ofChar? symbol with
    | some op => .ok (.binary op (trimmed before) (trimmed after))
    | none =>
      match after with
      | '=' :: rest =>
        .ok (.binary (if symbol = '=' then .equals else .unequals) (trimmed before)
          (trimmed rest))
      | _ => .error (.missingEquals symbol)

/-- The outermost layer of a formula. A parenthesis that is never closed is reported with the
trimmed text, every other fault with the text as it stands. -/
def Split.ofText (formula : String) : Except Error Split :=
  let text := trim formula.toList
  match stripEnclosing text with
  | none => .error (.invalidFormula (String.ofList text) .unbalanced)
  | some inner =>
    match scan 0 [] inner with
    | .unbalanced => .error (.invalidFormula formula .unbalanced)
    | .plain => .ok (.leaf (String.ofList inner))
    | .found before symbol after =>
      match cut before symbol after with
      | .ok s => .ok s
      | .error fault => .error (.invalidFormula formula fault)

theorem length_closing {depth : Nat} {seen text inside after : List Char}
    (h : closing depth seen text = some (inside, after)) :
    inside.length + 1 + after.length = seen.length + text.length := by
  induction text generalizing depth seen with
  | nil => simp [closing] at h
  | cons c rest ih =>
    simp only [closing] at h
    split at h
    · have := ih h
      simp only [List.length_cons] at this ⊢
      omega
    · split at h
      · cases depth with
        | zero =>
          simp only [Option.some.injEq, Prod.mk.injEq] at h
          obtain ⟨rfl, rfl⟩ := h
          simp only [List.length_reverse, List.length_cons]
          omega
        | succ d =>
          have := ih h
          simp only [List.length_cons] at this ⊢
          omega
      · have := ih h
        simp only [List.length_cons] at this ⊢
        omega

theorem length_stripEnclosing_le {text inner : List Char}
    (h : stripEnclosing text = some inner) : inner.length ≤ text.length := by
  unfold stripEnclosing at h
  split at h
  · split at h
    · simp at h
    · rename_i inside hc
      simp only [Option.some.injEq] at h
      subst h
      have := length_closing hc
      simp only [List.length_cons, List.length_nil] at this ⊢
      omega
    · simp only [Option.some.injEq] at h
      subst h
      exact Nat.le_refl _
  · simp only [Option.some.injEq] at h
    subst h
    exact Nat.le_refl _

theorem length_scan {depth : Nat} {seen text before after : List Char} {c : Char}
    (h : scan depth seen text = .found before c after) :
    before.length + 1 + after.length = seen.length + text.length := by
  induction text generalizing depth seen with
  | nil =>
    simp only [scan] at h
    split at h <;> simp at h
  | cons d rest ih =>
    simp only [scan] at h
    split at h
    · have := ih h
      simp only [List.length_cons] at this ⊢
      omega
    · split at h
      · cases depth with
        | zero => simp at h
        | succ k =>
          have := ih h
          simp only [List.length_cons] at this ⊢
          omega
      · split at h
        · simp only [Scan.found.injEq] at h
          obtain ⟨rfl, rfl, rfl⟩ := h
          simp only [List.length_reverse, List.length_cons]
          omega
        · have := ih h
          simp only [List.length_cons] at this ⊢
          omega

theorem length_trimmed_le (text : List Char) : (trimmed text).length ≤ text.length := by
  simpa [trimmed] using length_trim_le text

def Split.operands : Split → List String
  | .leaf _ => []
  | .unary _ operand => [operand]
  | .binary _ left right => [left, right]

theorem length_cutDelta {after : List Char} {s : Split} (h : cutDelta after = .ok s) :
    ∀ x ∈ s.operands, x.length ≤ after.length := by
  unfold cutDelta at h
  split at h
  · rename_i rest
    simp only at h
    split at h
    · simp at h
    · split at h
      · simp at h
      · split at h
        · simp at h
        · simp only [Except.ok.injEq] at h
          subst h
          intro x hx
          simp only [Split.operands, List.mem_singleton] at hx
          subst hx
          have h1 := length_trimmed_le (rest.dropWhile Char.isDigit)
          have h2 := (List.dropWhile_sublist Char.isDigit (l := rest)).length_le
          simp only [List.length_cons]
          omega
  · simp at h

theorem length_cut {before after : List Char} {c : Char} {s : Split}
    (h : cut before c after = .ok s) :
    ∀ x ∈ s.operands, x.length ≤ before.length + after.length := by
  have hb := length_trimmed_le before
  have ha := length_trimmed_le after
  unfold cut at h
  split at h
  · split at h
    · split at h
      · simp only [Except.ok.injEq] at h
        subst h
        intro x hx
        simp only [Split.operands, List.mem_singleton] at hx
        subst hx
        omega
      · intro x hx
        have := length_cutDelta h x hx
        omega
    · simp at h
  · split at h
    · simp only [Except.ok.injEq] at h
      subst h
      intro x hx
      simp only [Split.operands, List.mem_cons, List.not_mem_nil, or_false] at hx
      rcases hx with rfl | rfl <;> omega
    · split at h
      · rename_i rest
        have hr := length_trimmed_le rest
        simp only [Except.ok.injEq] at h
        subst h
        intro x hx
        simp only [Split.operands, List.mem_cons, List.not_mem_nil, or_false] at hx
        simp only [List.length_cons]
        rcases hx with rfl | rfl <;> omega
      · simp at h

/-- What `Split.ofText` cuts out is shorter than the trimmed text, so peeling layers ends. -/
theorem length_operand_lt {formula : String} {s : Split} (h : Split.ofText formula = .ok s) :
    ∀ x ∈ s.operands, x.length < (trim formula.toList).length := by
  unfold Split.ofText at h
  simp only at h
  split at h
  · simp at h
  · rename_i inner hi
    have h1 := length_stripEnclosing_le hi
    split at h
    · simp at h
    · simp only [Except.ok.injEq] at h
      subst h
      simp [Split.operands]
    · rename_i before c after hs
      have h2 := length_scan hs
      split at h
      · rename_i t h3
        simp only [Except.ok.injEq] at h
        subst h
        intro x hx
        have h4 := length_cut h3 x hx
        simp only [List.length_nil] at h2
        omega
      · simp at h

theorem operand_length_lt {formula x : String} {s : Split} (h : Split.ofText formula = .ok s)
    (hx : x ∈ s.operands) : x.length < formula.length := by
  rw [← String.length_toList (s := formula)]
  exact Nat.lt_of_lt_of_le (length_operand_lt h x hx) (length_trim_le _)

end ManyValued
