import ManyValued.Text.Unprintable

/-! Texts in quotation marks, as the log shows them. A quotation mark and a backslash get a
backslash, the common controls their letter, and any other character that shows nothing of its own
is written by its code point in braces. -/

namespace ManyValued

def codePoint (c : Char) : String :=
  "\\u\x7b" ++ String.ofList (Nat.toDigits 16 c.toNat) ++ "\x7d"

def escape (c : Char) : String :=
  if c = '"' then "\\\""
  else if c = '\\' then "\\\\"
  else if c = '\n' then "\\n"
  else if c = '\t' then "\\t"
  else if c = '\r' then "\\r"
  else if c.toNat = 0 then "\\0"
  else if isUnprintable c then codePoint c
  else c.toString

def quoted (text : String) : String :=
  "\"" ++ String.join (text.toList.map escape) ++ "\""

end ManyValued
