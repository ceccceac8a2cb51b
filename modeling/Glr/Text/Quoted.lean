import Glr.Unicode.Addition

/-!
# Glr.Text.Quoted

Names as they are quoted in reports: in double quotes, with what does not print
by itself escaped.
-/

namespace Glr.Text

/-- The digits of a number in base sixteen. -/
def hexText (n : Nat) : String := String.ofList (Nat.toDigits 16 n)

/-- A character inside quotes. -/
def quoteChar (c : Char) : String :=
  if c = '"' then "\\\""
  else if c = '\\' then "\\\\"
  else if c = '\t' then "\\t"
  else if c = '\n' then "\\n"
  else if c = '\r' then "\\r"
  else if c.toNat = 0 then "\\0"
  else if Unicode.invisible.contains c.toNat then "\\u\x7b" ++ hexText c.toNat ++ "\x7d"
  else c.toString

/-- A text in quotes. -/
def quote (s : String) : String := "\"" ++ String.join (s.toList.map quoteChar) ++ "\""

/-- A list of texts in quotes. -/
def quoteList (names : List String) : String :=
  "[" ++ String.intercalate ", " (names.map quote) ++ "]"

end Glr.Text
