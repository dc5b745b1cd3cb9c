import QueryGraph.Text.Printable

namespace QueryGraph.Text

/-!
# Escaped texts in messages

* `escaped s`: a text between double quotes with quotes, backslashes and characters that do not
  print written as escapes.
-/

/-- A natural number in lower case hexadecimal digits. -/
def hexChars (n : Nat) : List Char := Nat.toDigits 16 n

/-- One character of an escaped text. -/
def escapedChar (c : Char) : List Char :=
  if c = '"' then ['\\', '"']
  else if c = '\\' then ['\\', '\\']
  else if c = '\n' then ['\\', 'n']
  else if c = '\r' then ['\\', 'r']
  else if c = '\t' then ['\\', 't']
  else if c.toNat = 0 then ['\\', '0']
  else if isPrintable c then [c]
  else ['\\', 'u', '\x7b'] ++ hexChars c.toNat ++ ['\x7d']

/-- A text between double quotes, escaped. -/
def escaped (s : String) : String :=
  String.ofList ('"' :: (s.toList.flatMap escapedChar ++ ['"']))

end QueryGraph.Text
