import ManyValued.Proofs.Formula.Reading

/-! Printing gives formulas that can be read. A formula is well formed when its leaves are atoms and
constants and no `δ` has scale 0; its text then derives its shape, so reading the text gives back
the formula up to the marks. -/

namespace ManyValued

/-- The scale of a `δ` is positive. -/
def Unary.Admissible : Unary → Prop
  | .neg => True
  | .delta scale => 1 ≤ scale.toNat

instance : (op : Unary) → Decidable op.Admissible
  | .neg => inferInstanceAs (Decidable True)
  | .delta scale => inferInstanceAs (Decidable (1 ≤ scale.toNat))

namespace Formula

variable {μ : Type}

def WellFormed : Formula μ → Prop
  | leaf _ name => isAtom name = true ∨ isConstant name = true
  | unary _ op x => op.Admissible ∧ x.WellFormed
  | binary _ _ x y => x.WellFormed ∧ y.WellFormed

instance decidableWellFormed : (x : Formula μ) → Decidable x.WellFormed
  | leaf _ name => inferInstanceAs (Decidable (isAtom name = true ∨ isConstant name = true))
  | unary _ op x =>
    have := decidableWellFormed x
    inferInstanceAs (Decidable (op.Admissible ∧ x.WellFormed))
  | binary _ _ x y =>
    have := decidableWellFormed x
    have := decidableWellFormed y
    inferInstanceAs (Decidable (x.WellFormed ∧ y.WellFormed))

theorem toList_render_neg (m : μ) (x : Formula μ) :
    (unary m .neg x).render.toList = '(' :: (negSymbol :: x.render.toList) ++ [')'] := by
  simp only [render, String.toList_append]
  rfl

theorem toList_render_delta (m : μ) (scale : UInt32) (x : Formula μ) :
    (unary m (.delta scale) x).render.toList =
      '(' :: (deltaSymbol :: '_' :: (Nat.toDigits 10 scale.toNat ++ ' ' :: x.render.toList)) ++
        [')'] := by
  simp only [render, Unary.symbol, String.toList_append]
  simp [deltaSymbol]

theorem toList_render_binary (m : μ) (op : Binary) (x y : Formula μ) :
    (binary m op x y).render.toList =
      '(' :: (x.render.toList ++ (op.symbol.toList ++ y.render.toList)) ++ [')'] := by
  simp only [render, String.toList_append]
  simp

theorem derives_render {x : Formula μ} (h : x.WellFormed) :
    Derives .closed x.render.toList x.shape := by
  induction x with
  | leaf m name =>
    exact .token h
  | unary m op x ih =>
    cases op with
    | neg =>
      rw [toList_render_neg]
      exact .enclosed (.neg Blank.nil (ih h.2))
    | delta scale =>
      have hblank : Blank [' '] := fun c hc => by rw [List.mem_singleton.1 hc]; decide
      have hx : Derives .closed (' ' :: x.render.toList) x.shape := by
        have h1 := (ih h.2).between hblank Blank.nil
        rwa [List.append_nil] at h1
      have hn : Nat.ofDigitChars 10 (Nat.toDigits 10 scale.toNat) 0 = scale.toNat :=
        Nat.ofDigitChars_ten_toDigits
      have hd : ∀ c ∈ Nat.toDigits 10 scale.toNat, c.isDigit = true := fun c hc =>
        Nat.isDigit_of_mem_toDigits (by decide) (by decide) hc
      have h1 := Derives.delta Blank.nil Nat.toDigits_ne_nil hd (by rw [hn]; exact h.1)
        (by rw [hn]; exact scale.toNat_lt) hx (.cons (by decide) _)
      rw [hn, UInt32.ofNat_toNat] at h1
      rw [toList_render_delta]
      exact .enclosed h1
  | binary m op x y ihx ihy =>
    rw [toList_render_binary]
    exact .enclosed (.binary op (ihx h.1) (ihy h.2))

/-- The text of a well formed formula is read as its shape. -/
theorem reads_render {x : Formula μ} (h : x.WellFormed) : Reads x.render x.shape :=
  DerivesTree.reads ⟨.closed, derives_render h⟩

end Formula

end ManyValued
