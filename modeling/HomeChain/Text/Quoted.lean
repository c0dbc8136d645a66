import HomeChain.Text.Hidden

/-!
# Quoted text

Characters and strings between quotes. The quote itself and the backslash are written behind a
backslash, four controls have a letter, and whatever else is not shown is written as its code
point in hexadecimal, between braces behind a backslash and a `u`.
-/

namespace HomeChain.Text

/-- The hexadecimal digits of a number. -/
def hex (n : Nat) : String := String.ofList (Nat.toDigits 16 n)

/-- A character as it stands between quotes of the given kind. -/
def escapeChar (quote c : Char) : String :=
  if c = '\x00' then "\\0"
  else if c = '\t' then "\\t"
  else if c = '\r' then "\\r"
  else if c = '\n' then "\\n"
  else if c = '\\' then "\\\\"
  else if c = quote then "\\" ++ c.toString
  else if isHidden c then "\\u\x7b" ++ hex c.toNat ++ "\x7d"
  else c.toString

/-- A string between double quotes. -/
def quoteString (s : String) : String :=
  "\"" ++ s.foldl (fun text c => text ++ escapeChar '"' c) "" ++ "\""

/-- A character between single quotes. -/
def quoteChar (c : Char) : String :=
  "'" ++ escapeChar '\'' c ++ "'"

end HomeChain.Text
