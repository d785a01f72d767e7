/-! Reading command lines. Options have a long name with two dashes and may have a letter with one;
a value follows its option or is attached to it. What a value means is judged after it was read, and
that is when the next argument has been recognised: an argument that is not hides the value before
it. -/

namespace ManyValued.Program

structure OptionRule where
  long : String
  short : Option Char
  takesValue : Bool

inductive Given where
  | flag (name : String)
  | value (name text : String)
  | positional (text : String)
  deriving DecidableEq, Repr

def commonRules : List OptionRule := [⟨"help", some 'h', false⟩, ⟨"version", some 'V', false⟩]

def isValue (text : String) : Bool := text = "-" ∨ ¬ text.toList.head? = some '-'

/-- An argument taken apart: the option it names, unless that is unknown, and an attached value. -/
inductive Shaped where
  | option (rule : Option OptionRule) (attached : Option String)
  | plain

/-- The value attached to an option's letter, with or without `=`. The flags that have letters are
those of `commonRules`; they end the program, so what stands after their letters is never read. -/
def attachedToLetter? (rule : OptionRule) (rest : List Char) : Option String :=
  if rule.takesValue then
    match rest with
    | [] => none
    | '=' :: value => some (String.ofList value)
    | value => some (String.ofList value)
  else none

def shapeOf (rules : List OptionRule) (arg : String) : Shaped :=
  match arg.toList with
  | '-' :: '-' :: name =>
    let attached := match name.dropWhile (· ≠ '=') with
      | [] => none
      | _ :: value => some (String.ofList value)
    .option (rules.find? (·.long = String.ofList (name.takeWhile (· ≠ '=')))) attached
  | '-' :: c :: rest =>
    let rule := rules.find? (·.short = some c)
    .option rule (rule.bind (attachedToLetter? · rest))
  | _ => .plain

/-- What was recognised before the first mistake, and whether there was none. `slots` counts the
positional arguments still admitted, `held` is the value not yet judged, and after `--` everything
is positional. -/
def readArguments (rules : List OptionRule) (slots : Nat) (positionalOnly : Bool)
    (held : List Given) : List String → List Given × Bool
  | [] => (held, true)
  | arg :: rest =>
    if ¬ positionalOnly ∧ arg = "--" then readArguments rules slots true held rest
    else
      match if positionalOnly then .plain else shapeOf rules arg with
      | .plain =>
        match slots with
        | 0 => ([], false)
        | slots + 1 =>
          let (given, complete) :=
            readArguments rules slots positionalOnly [.positional arg] rest
          (held ++ given, complete)
      | .option none _ => ([], false)
      | .option (some rule) attached =>
        if rule.takesValue then
          match attached, rest with
          | some value, rest =>
            let (given, complete) := readArguments rules slots positionalOnly [] rest
            (held ++ .value rule.long value :: given, complete)
          | none, value :: rest =>
            if isValue value then
              let (given, complete) :=
                readArguments rules slots positionalOnly [.value rule.long value] rest
              (held ++ given, complete)
            else (held, false)
          | none, [] => (held, false)
        else if attached.isSome then ([], false)
        else
          let (given, complete) := readArguments rules slots positionalOnly [] rest
          (held ++ .flag rule.long :: given, complete)

inductive Refusal where
  | usage
  | help
  | because (message : String)
  deriving DecidableEq, Repr

/-- Judges what was recognised, in order, and then the mistake if there was one. -/
def interpret {ρ : Type} (rules : List OptionRule) (slots : Nat)
    (judge : ρ → Given → Except Refusal ρ) (start : ρ) (args : List String) :
    Except Refusal ρ := do
  let (given, complete) := readArguments (rules ++ commonRules) slots false [] args
  let request ← given.foldlM judge start
  if complete then return request else throw .usage

end ManyValued.Program
