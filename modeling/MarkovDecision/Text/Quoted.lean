import MarkovDecision.Text.Hidden

/-!
# Quoted text

How a label or a character is shown in a message: between quotes, with the quote
itself, the backslash and the common controls escaped, every other character that
does not show written by its number in braces, and the rest as it is. Texts stand
between double quotes and escape these only; single characters stand between
single quotes and escape those only.
-/

namespace MarkovDecision.Text

/-- The hexadecimal digits of a number. -/
def hex (n : Nat) : String := String.ofList (Nat.toDigits 16 n)

/-- A character as it stands between quotes of the given kind. -/
def escaped (quote c : Char) : String :=
  if c = quote || c = '\\' then String.ofList ['\\', c]
  else if c = '\n' then "\\n"
  else if c = '\r' then "\\r"
  else if c = '\t' then "\\t"
  else if c = '\x00' then "\\0"
  else if hidden.has c then "\\u\x7b" ++ hex c.toNat ++ "\x7d"
  else c.toString

/-- A text between double quotes. -/
def quoted (text : String) : String :=
  "\"" ++ String.join (text.toList.map (escaped '"')) ++ "\""

/-- A character between single quotes. -/
def quotedChar (c : Char) : String := "'" ++ escaped '\'' c ++ "'"

end MarkovDecision.Text
