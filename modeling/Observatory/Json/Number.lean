import Observatory.Json.Basic

/-!
# JSON numbers

A number literal without fraction and exponent is a whole number when it fits into 64 bits,
signed or unsigned; every other literal is a double.

* `Json.NumberLiteral`: the parts of a literal.
* `Json.NumberLiteral.scan?`: a literal at the head of a text.
* `Json.NumberLiteral.value?`: the number that it stands for, if it is finite.
-/

namespace Observatory

namespace Json

/-- The parts of a number literal: sign, digits before and after the point, exponent. -/
structure NumberLiteral where
  negative : Bool
  whole : List Nat
  fraction : Option (List Nat)
  exponent : Option (Bool × List Nat)
  deriving Repr

/-- The value of a decimal digit. -/
def digit? (c : Char) : Option Nat :=
  if '0' ≤ c ∧ c ≤ '9' then some (c.toNat - 48) else none

/-- The digits at the head of a text, and what follows them. -/
def takeDigits : List Char → List Nat × List Char
  | [] => ([], [])
  | c :: rest =>
    match digit? c with
    | some d => let (ds, after) := takeDigits rest; (d :: ds, after)
    | none => ([], c :: rest)

namespace NumberLiteral

/-- The part after the point, when there is a point: at least one digit. -/
def scanFraction? : List Char → Option (Option (List Nat) × List Char)
  | '.' :: rest =>
    match takeDigits rest with
    | ([], _) => none
    | (ds, after) => some (some ds, after)
  | rest => some (none, rest)

/-- The exponent, when there is one: a sign or none, then at least one digit. -/
def scanExponent? : List Char → Option (Option (Bool × List Nat) × List Char)
  | c :: rest =>
    if c = 'e' ∨ c = 'E' then
      let (negative, rest) := match rest with
        | '+' :: rest => (false, rest)
        | '-' :: rest => (true, rest)
        | rest => (false, rest)
      match takeDigits rest with
      | ([], _) => none
      | (ds, after) => some (some (negative, ds), after)
    else some (none, c :: rest)
  | [] => some (none, [])

/-- The literal at the head of a text: a minus sign or none, digits of which only a single one
    may begin with zero, a fraction, an exponent. -/
def scan? (cs : List Char) : Option (NumberLiteral × List Char) := do
  let (negative, cs) := match cs with
    | '-' :: rest => (true, rest)
    | rest => (false, rest)
  let (whole, cs) := takeDigits cs
  if whole = [] ∨ (whole.head? = some 0 ∧ whole.length ≠ 1) then none
  let (fraction, cs) ← scanFraction? cs
  let (exponent, cs) ← scanExponent? cs
  some (⟨negative, whole, fraction, exponent⟩, cs)

/-! ### The number of a literal -/

/-- The largest significand that is kept. -/
def significandLimit : Nat := 0x10000000000000000

/-- Digits appended to a significand, as long as it stays in 64 bits; the digits after that. -/
def accumulate : Nat → List Nat → Nat × List Nat
  | n, [] => (n, [])
  | n, d :: ds => if n * 10 + d < significandLimit then accumulate (n * 10 + d) ds else (n, d :: ds)

/-- The number that some digits stand for. -/
def naturalOf (ds : List Nat) : Nat := ds.foldl (fun n d => n * 10 + d) 0

/-- The largest exponent that is computed with. -/
def exponentLimit : Nat := 0x7FFFFFFF

/-- `starting` moved by the written exponent, within 32 bits. -/
def shiftedExponent (starting : Int) (negative : Bool) (written : Nat) : Int :=
  let sum := if negative then starting - written else starting + written
  max (-0x80000000) (min sum exponentLimit)

/-- The double of a literal: at most 64 bits of significand, whose further digits before the
    point only count as powers of ten and after it not at all, and a power of ten. -/
def float? (l : NumberLiteral) : Option Binary64 :=
  let (significand, dropped) := accumulate 0 l.whole
  let fraction := l.fraction.getD []
  let (significand, ignored) := accumulate significand fraction
  let starting : Int := (dropped.length : Int) - ((fraction.length : Int) - ignored.length)
  match l.exponent with
  | none => Binary64.ofScaled l.negative significand starting
  | some (negative, ds) =>
    if naturalOf ds ≤ exponentLimit then
      Binary64.ofScaled l.negative significand (shiftedExponent starting negative (naturalOf ds))
    else if significand ≠ 0 ∧ !negative then none
    else some ⟨l.negative, 0⟩

/-- The number that a literal stands for; `none` when it is too large for a double. -/
def value? (l : NumberLiteral) : Option Scalar :=
  let n := naturalOf l.whole
  if l.fraction.isNone && l.exponent.isNone then
    if !l.negative && n < 0x10000000000000000 then some (.int n)
    else if l.negative && 0 < n && n ≤ 0x8000000000000000 then some (.int (-n))
    else l.float?.map .float
  else l.float?.map .float

end NumberLiteral

end Json

end Observatory
