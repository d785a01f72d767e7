/-! Substitution in texts. An atom token is an ASCII letter with all the digits after it; a token
with a replacement gives way to it, and everything else is copied. -/

namespace ManyValued

/-- What is put for a token; none leaves it as it is. -/
abbrev Replacements := String → Option String

/-- Later pairs win. -/
def Replacements.ofList (pairs : List (String × String)) : Replacements :=
  fun token => pairs.reverse.lookup token

def Replacements.apply (m : Replacements) (token : String) : String := (m token).getD token

/-- Adds the text with its tokens replaced to `done`. -/
def substituteInto (m : Replacements) (done : String) : List Char → String
  | [] => done
  | c :: rest =>
    if c.isAlpha then
      let token := String.ofList (c :: rest.takeWhile Char.isDigit)
      have := (List.dropWhile_sublist Char.isDigit (l := rest)).length_le
      substituteInto m (done ++ m.apply token) (rest.dropWhile Char.isDigit)
    else substituteInto m (done.push c) rest
termination_by text => text.length

def substitute (m : Replacements) (text : String) : String := substituteInto m "" text.toList

end ManyValued
