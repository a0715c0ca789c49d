import Observatory.Binary64.Basic

/-!
# Shortest decimal digits

The decimal of a positive double is the one with the fewest digits among those that round to
it.  For `n = 1, 2, …, 17` digits only the two neighbours of the number on the grid of `n`
digit decimals can round to it when any point of that grid does.

* `Binary64.shortest`: digits and power of ten.
* `Binary64.DecimalForm`: where positional notation ends.
* `Binary64.render`: the text.
-/

namespace Observatory

namespace Binary64

/-- A decimal: `digits * 10 ^ exponent`. -/
structure Decimal where
  digits : Nat
  exponent : Int
  deriving DecidableEq, Repr

/-- The numbers that round to a code lie between two halfway points, in units of
    `2 ^ (-1075)`; the halfway points themselves round to it when the code is even. -/
structure Basin where
  low : Nat
  high : Nat
  closed : Bool

/-- The numbers that round to `code`. -/
def basin (code : Nat) : Basin where
  low := units (code - 1) + units code
  high := units code + units (code + 1)
  closed := code % 2 = 0

/-- Whether `num / den`, in units of `2 ^ (-1075)`, lies in the basin. -/
def Basin.contains (b : Basin) (num den : Nat) : Bool :=
  if b.closed then b.low * den ≤ num && num ≤ b.high * den
  else b.low * den < num && num < b.high * den

/-- `digits * 10 ^ exponent` as a quotient, in units of `2 ^ (-1075)`. -/
def Decimal.quotient (d : Decimal) : Nat × Nat :=
  if d.exponent < 0 then (d.digits * Nat.pow 2 1075, Nat.pow 10 d.exponent.natAbs)
  else (d.digits * Nat.pow 10 d.exponent.natAbs * Nat.pow 2 1075, 1)

/-- The exponent `x` with `10 ^ x ≤ value < 10 ^ (x + 1)`. -/
def decimalExponent (code : Nat) : Int :=
  let u := units code
  let whole := u / Nat.pow 2 1074
  if 0 < whole then ((Nat.toDigits 10 whole).length : Int) - 1
  else -((List.range 330).find? fun j => Nat.pow 2 1074 ≤ u * Nat.pow 10 j).getD 0

/-- The best decimal with a grid step of `10 ^ step` that rounds to `code`, if any does: the
    nearer of the two neighbours, the even one of two that are equally near. -/
def onGrid (code : Nat) (step : Int) : Option Decimal :=
  let value := 2 * units code
  -- one grid step as a quotient of units
  let (num, den) := Decimal.quotient ⟨1, step⟩
  let k := value * den / num
  let hits := [k, k + 1].filter fun k => 0 < k && (basin code).contains (k * num) den
  match hits with
  | [] => none
  | [k] => some ⟨k, step⟩
  | k :: _ =>
    -- distances to the lower and the upper neighbour
    let below := value * den - k * num
    let above := (k + 1) * num - value * den
    if below < above then some ⟨k, step⟩
    else if above < below then some ⟨k + 1, step⟩
    else some ⟨if k % 2 = 0 then k else k + 1, step⟩

/-- A single digit that was rounded up to ten is one digit of the next power of ten. -/
def Decimal.carry (d : Decimal) : Decimal :=
  if d.digits = 10 then ⟨1, d.exponent + 1⟩ else d

/-- The decimal with the fewest digits that rounds to the positive number `code`. -/
def shortest (code : Nat) : Decimal :=
  let x := decimalExponent code
  (((List.range 17).findSome? fun n : Nat => onGrid code (x - n)).getD ⟨0, 0⟩).carry

/-! ### Text -/

/-- How a decimal is written: positionally when the exponent of its first digit lies in a
    range, with one digit after the point at least, and with `e`, a sign and the exponent
    otherwise. -/
structure DecimalForm where
  leastPositional : Int
  greatestPositional : Int

/-- The exponent mark with its sign. -/
def exponentText (x : Int) : String :=
  (if x < 0 then "e-" else "e+") ++ toString x.natAbs

/-- The text of a positive decimal. -/
def Decimal.text (form : DecimalForm) (d : Decimal) : String :=
  let digits := Nat.toDigits 10 d.digits
  let lead := d.exponent + digits.length - 1
  if form.leastPositional ≤ lead ∧ lead ≤ form.greatestPositional then
    if 0 ≤ d.exponent then
      String.ofList (digits ++ List.replicate d.exponent.natAbs '0') ++ ".0"
    else if 0 ≤ lead then
      String.ofList (digits.take (lead.natAbs + 1)) ++ "." ++
        String.ofList (digits.drop (lead.natAbs + 1))
    else "0." ++ String.ofList (List.replicate (lead.natAbs - 1) '0' ++ digits)
  else
    let mantissa := match digits with
      | [] => ""
      | [c] => String.ofList [c]
      | c :: rest => String.ofList (c :: '.' :: rest)
    mantissa ++ exponentText lead

/-- The text of a double in a form; both zeros keep their sign. -/
def render (form : DecimalForm) (x : Binary64) : String :=
  (if x.negative then "-" else "") ++
    (if x.code = 0 then "0.0" else (shortest x.code).text form)

end Binary64

end Observatory
