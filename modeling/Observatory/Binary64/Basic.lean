/-!
# Finite binary64 numbers

A finite double is a sign and a magnitude.  The magnitude is the number in its 63 low bits,
so larger codes are larger numbers, and every double is a whole number of the smallest
positive one, `2 ^ (-1074)`.  Arithmetic is exact on those whole numbers and rounded once, to
the nearest code, a tie going to the even code.

* `Binary64.units`: the magnitude as a whole number of `2 ^ (-1074)`.
* `Binary64.nearest`: the code nearest to a quotient of natural numbers.
* `Binary64.same`: equality of numbers, for which the two zeros are one number.
* `Binary64.ofScaled`: a decimal significand with a power of ten.
-/

namespace Observatory

/-- A finite double: its sign bit and its other 63 bits. -/
structure Binary64 where
  negative : Bool
  code : Nat
  deriving DecidableEq, Repr, Inhabited

namespace Binary64

/-- The number of magnitudes with one exponent. -/
def binade : Nat := 0x10000000000000

/-- The first code that is no finite number. -/
def overflowCode : Nat := 2047 * binade

/-- The magnitude with this code, as a whole number of `2 ^ (-1074)`. -/
def units (code : Nat) : Nat :=
  let shift := code / binade - 1
  (code - shift * binade) * Nat.pow 2 shift

/-- The whole number nearest to `num / den`, a tie going to the even one. -/
def roundHalfEven (num den : Nat) : Nat :=
  let q := num / den
  let r := num % den
  if 2 * r < den then q
  else if den < 2 * r then q + 1
  else if q % 2 = 0 then q else q + 1

/-- The code whose magnitude is nearest to `num / den`.  With 53 significant bits kept, a
    rounding up into the next binade carries into the exponent by itself. -/
def nearest (num den : Nat) : Nat :=
  let scaled := num * Nat.pow 2 1074
  let shift := Nat.log2 (scaled / den) - 52
  shift * binade + roundHalfEven scaled (den * Nat.pow 2 shift)

/-- The rounded product of two magnitudes. -/
def mulCode (a b : Nat) : Nat := nearest (units a * units b) (Nat.pow 2 2148)

/-- The rounded quotient of two magnitudes. -/
def divCode (a b : Nat) : Nat := nearest (units a) (units b)

/-- Equality of numbers: the sign of zero does not count. -/
def same (a b : Binary64) : Bool := a = b || (a.code = 0 && b.code = 0)

theorem same_iff {a b : Binary64} : same a b = true ↔ a = b ∨ (a.code = 0 ∧ b.code = 0) := by
  simp [same]

@[simp] theorem same_refl (a : Binary64) : same a a = true := by simp [same]

theorem same_symm {a b : Binary64} (h : same a b = true) : same b a = true := by
  rw [same_iff] at h ⊢
  exact h.imp Eq.symm And.symm

theorem same_trans {a b c : Binary64} (h : same a b = true) (g : same b c = true) :
    same a c = true := by
  rw [same_iff] at h g ⊢
  rcases h with rfl | ⟨ha, hb⟩
  · exact g
  · rcases g with rfl | ⟨_, hc⟩
    · exact .inr ⟨ha, hb⟩
    · exact .inr ⟨ha, hc⟩

/-! ### Decimal input -/

/-- The largest power of ten that is multiplied or divided by at once. -/
def stepExponent : Nat := 308

/-- The rounded power of ten. -/
def tenPower (n : Nat) : Nat := nearest (Nat.pow 10 n) 1

/-- `code` divided by `10 ^ exponent`, in steps of at most `10 ^ 308`. -/
def divPower (code exponent : Nat) : Nat :=
  if exponent ≤ stepExponent then divCode code (tenPower exponent)
  else if code = 0 then 0
  else divPower (divCode code (tenPower stepExponent)) (exponent - stepExponent)
termination_by exponent
decreasing_by simp only [stepExponent] at *; omega

/-- `significand * 10 ^ exponent` as a double: the significand is rounded, then multiplied or
    divided by a rounded power of ten.  `none` when the product is not finite. -/
def ofScaled (negative : Bool) (significand : Nat) (exponent : Int) : Option Binary64 :=
  let start := nearest significand 1
  if exponent < 0 then some ⟨negative, divPower start exponent.natAbs⟩
  else if exponent.natAbs ≤ stepExponent then
    let code := mulCode start (tenPower exponent.natAbs)
    if code < overflowCode then some ⟨negative, code⟩ else none
  else if start = 0 then some ⟨negative, 0⟩
  else none

end Binary64

end Observatory
