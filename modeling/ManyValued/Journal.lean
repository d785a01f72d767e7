import ManyValued.Formula.Basic
import ManyValued.Formula.Split
import ManyValued.Text.Quoted

/-! The journal of a computation: what it did, step by step, kept beside its value. A journal is a
list of events; their wording is here too. The value of a computation never depends on its journal,
and the lemmas on `value` and `outcome` say so. -/

namespace ManyValued

/-- How one step of a synthesis makes its problem smaller; variables are counted from 1. -/
inductive Reduction where
  | reflect
  | decrement (variableIndex : Nat)
  | consume (variableIndex : Nat)
  deriving DecidableEq, Repr

inductive Event where
  | split (depth : Depth) (layer : Split)
  | integerStep (weights : List Int) (bias : Int) (step : Reduction)
  | fractionalStep (weights : List Rat) (bias : Rat) (step : Reduction)
  | scaledSum (weights : List Rat) (bias : Rat) (scale : UInt32)
  | neuron (layer number size : Nat)
  | composed (layer : Nat) (lengths : List Nat)
  | networkTerm (length : Nat)
  deriving DecidableEq, Repr

inductive Level where
  | trace
  | debug
  | info

def Level.name : Level → String
  | .trace => "TRACE"
  | .debug => "DEBUG"
  | .info => "INFO"

def Event.level : Event → Level
  | .split .. => .trace
  | .networkTerm .. => .info
  | _ => .debug

def Split.describe : Split → String
  | .leaf token => "Leaf(" ++ quoted token ++ ")"
  | .unary op operand => "Unary(" ++ op.name ++ ", " ++ quoted operand ++ ")"
  | .binary op left right =>
    "Binary(" ++ op.name ++ ", " ++ quoted left ++ ", " ++ quoted right ++ ")"

def Reduction.describe : Reduction → String
  | .reflect => "reflect"
  | .decrement i => "decrement x" ++ toString i
  | .consume i => "fractional x" ++ toString i

def bracketed (items : List String) : String := "[" ++ ", ".intercalate items ++ "]"

def describeRow (weights : List String) (bias : String) : String :=
  "w = " ++ bracketed weights ++ ", b = " ++ bias

def Event.text : Event → String
  | .split depth layer => "build_ast(depth = " ++ toString depth ++ "): " ++ layer.describe
  | .integerStep weights bias step =>
    "sigma_construct(" ++ describeRow (weights.map toString) (toString bias) ++ "): " ++
      step.describe
  | .fractionalStep weights bias step =>
    "from_paper(" ++ describeRow (weights.map rationalText) (rationalText bias) ++ "): " ++
      step.describe
  | .scaledSum weights bias scale =>
    "sigma_construct_rational(" ++ describeRow (weights.map rationalText) (rationalText bias) ++
      ", lcm = " ++ toString scale.toNat ++ ")"
  | .neuron layer number size =>
    "layer " ++ toString layer ++ " neuron " ++ toString number ++ ": term of size " ++
      toString size
  | .composed layer lengths =>
    "composed layer " ++ toString layer ++ ": term lengths " ++
      bracketed (lengths.map toString)
  | .networkTerm length => "network term has " ++ toString length ++ " characters"

def Event.line (e : Event) : String := e.level.name ++ " " ++ e.text

/-- A value and the events on the way to it, oldest first. -/
structure Logged (α : Type) where
  value : α
  journal : List Event

namespace Logged

instance : Monad Logged where
  pure a := ⟨a, []⟩
  bind x f :=
    let y := f x.value
    ⟨y.value, x.journal ++ y.journal⟩

instance : LawfulMonad Logged := LawfulMonad.mk' Logged
  (by intro α x; cases x; simp [Functor.map])
  (by intro α β a f; simp [bind, pure])
  (by intro α β γ x f g; simp [bind, List.append_assoc])

def note (e : Event) : Logged Unit := ⟨(), [e]⟩

variable {α β : Type}

@[simp] theorem value_pure (a : α) : (pure a : Logged α).value = a := rfl

@[simp] theorem value_bind (x : Logged α) (f : α → Logged β) :
    (x >>= f).value = (f x.value).value := rfl

@[simp] theorem value_map (f : α → β) (x : Logged α) : (f <$> x).value = f x.value := rfl

@[simp] theorem journal_pure (a : α) : (pure a : Logged α).journal = [] := rfl

@[simp] theorem journal_bind (x : Logged α) (f : α → Logged β) :
    (x >>= f).journal = x.journal ++ (f x.value).journal := rfl

end Logged

/-- A computation that may fail, and keeps its journal up to the failure. -/
abbrev Attempt (α : Type) := ExceptT Error Logged α

namespace Attempt

def outcome {α : Type} (x : Attempt α) : Except Error α := (ExceptT.run x).value

def journal {α : Type} (x : Attempt α) : List Event := (ExceptT.run x).journal

def ofExcept {α : Type} (x : Except Error α) : Attempt α := ExceptT.mk (pure x)

variable {α β : Type}

@[simp] theorem outcome_pure (a : α) : outcome (pure a) = .ok a := rfl

@[simp] theorem outcome_throw (e : Error) : outcome (throw e : Attempt α) = .error e := rfl

@[simp] theorem outcome_ofExcept (x : Except Error α) : outcome (ofExcept x) = x := rfl

@[simp] theorem outcome_lift (x : Logged α) :
    outcome (liftM x : Attempt α) = .ok x.value := rfl

@[simp] theorem outcome_bind (x : Attempt α) (f : α → Attempt β) :
    outcome (x >>= f) = outcome x >>= fun a => outcome (f a) := by
  simp only [outcome, ExceptT.run_bind, Logged.value_bind]
  cases (ExceptT.run x).value <;> rfl

@[simp] theorem outcome_map (f : α → β) (x : Attempt α) :
    outcome (f <$> x) = f <$> outcome x := by
  rw [map_eq_pure_bind, outcome_bind]
  cases outcome x <;> rfl

@[simp] theorem outcome_mapM (f : α → Attempt β) (xs : List α) :
    outcome (xs.mapM f) = xs.mapM fun x => outcome (f x) := by
  induction xs with
  | nil => rfl
  | cons x xs ih => simp [List.mapM_cons, ih]

end Attempt

end ManyValued
