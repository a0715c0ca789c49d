import Observatory.Text.Unprintable

/-!
# Quoted text

Text in a message for people stands in double quotes.  The quote and the backslash have a
backslash before them; what cannot be told apart in print is written as an escape.

* `Quoted.character`: one character inside of quotes.
* `Quoted.quote`: a whole text.
-/

namespace Observatory

namespace Quoted

/-- The hexadecimal digits of a number, in lower case and without leading zeros. -/
def hex (n : Nat) : List Char := Nat.toDigits 16 n

/-- A character inside of quotes. -/
def character (c : Char) : List Char :=
  if c = '\x00' then ['\\', '0']
  else if c = '\t' then ['\\', 't']
  else if c = '\n' then ['\\', 'n']
  else if c = '\r' then ['\\', 'r']
  else if c = '"' then ['\\', '"']
  else if c = '\\' then ['\\', '\\']
  else if Unprintable.holds c then ['\\', 'u', '\x7b'] ++ hex c.toNat ++ ['\x7d']
  else [c]

/-- A text in quotes. -/
def quote (text : String) : String :=
  String.ofList ('"' :: (text.toList.flatMap character ++ ['"']))

end Quoted

end Observatory
