/-!
# Array positions written as text

A position in an array is written in decimal digits, with a plus sign in front or none.
Leading zeros do not count, so one position has several spellings; a number of more than
64 bits is no position.

* `ArrayIndex.parse?`: the position that a text spells.
* `ArrayIndex.text`: the shortest spelling.
-/

namespace Observatory

namespace ArrayIndex

/-- The value of a decimal digit. -/
def digit? (c : Char) : Option Nat :=
  if '0' ≤ c ∧ c ≤ '9' then some (c.toNat - 48) else none

/-- The number that `cs` spells after digits worth `n`. -/
def parseDigits? : Nat → List Char → Option Nat
  | n, [] => some n
  | n, c :: rest =>
    match digit? c with
    | some d => parseDigits? (n * 10 + d) rest
    | none => none

/-- The first number that is no position. -/
def limit : Nat := 0x10000000000000000

/-- The number that at least one digit spells, if it is a position. -/
def parseUnsigned? : List Char → Option Nat
  | [] => none
  | cs =>
    match parseDigits? 0 cs with
    | some n => if n < limit then some n else none
    | none => none

/-- The position that `text` spells. -/
def parse? (text : String) : Option Nat :=
  match text.toList with
  | '+' :: rest => parseUnsigned? rest
  | cs => parseUnsigned? cs

/-- The decimal digits of a position. -/
def text (n : Nat) : String := toString n

end ArrayIndex

end Observatory
