/-!
# Spans of time in words

A span is written in the largest unit that it fills, seconds or milliseconds, with as many
places after the point as it needs.

* `Duration.text`: the words for a number of milliseconds.
-/

namespace Observatory

namespace Duration

/-- The places after the point for some thousandths, without zeros at the end. -/
def places (thousandths : Nat) : List Char :=
  ((Nat.toDigits 10 (1000 + thousandths)).tail.reverse.dropWhile (· = '0')).reverse

/-- The words for a number of milliseconds. -/
def text (milliseconds : Nat) : String :=
  if milliseconds = 0 then "0ns"
  else if milliseconds < 1000 then toString milliseconds ++ "ms"
  else
    match places (milliseconds % 1000) with
    | [] => toString (milliseconds / 1000) ++ "s"
    | digits => toString (milliseconds / 1000) ++ "." ++ String.ofList digits ++ "s"

end Duration

end Observatory
