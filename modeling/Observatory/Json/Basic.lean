import Observatory.Dict
import Observatory.Binary64.Basic

/-!
# JSON values

A value is a scalar, an array or an object.  Whole numbers and doubles are different scalars,
and never equal: `1` is not `1.0`.  Objects hold their fields in key order.

* `Scalar`, `Json`: the values.
* `Json.same`: equality of values, which identifies the two zeros.
* `Json.Sorted`: every object in a value is a dictionary.
* `Json.asText`, `Json.asInteger`, `Json.asNatural`: what a scalar holds.
-/

namespace Observatory

/-- A value without parts. -/
inductive Scalar where
  | null
  | bool (b : Bool)
  | int (n : Int)
  | float (x : Binary64)
  | str (s : String)
  deriving DecidableEq, Repr, Inhabited

/-- A JSON value. -/
inductive Json where
  | scalar (s : Scalar)
  | arr (items : List Json)
  | obj (fields : List (String × Json))
  deriving Repr, Inhabited

/-- Equality of scalars: doubles as numbers, everything else exactly. -/
def Scalar.same : Scalar → Scalar → Bool
  | .float x, .float y => x.same y
  | a, b => a = b

namespace Json

/-- JSON null. -/
abbrev null : Json := .scalar .null

/-- A truth value. -/
abbrev bool (b : Bool) : Json := .scalar (.bool b)

/-- A whole number. -/
abbrev int (n : Int) : Json := .scalar (.int n)

/-- A natural number. -/
abbrev nat (n : Nat) : Json := .scalar (.int n)

/-- A text. -/
abbrev str (s : String) : Json := .scalar (.str s)

/-- The object without fields. -/
abbrev emptyObject : Json := .obj []

/-! ### Equality -/

mutual

/-- Equality of values. -/
def same : Json → Json → Bool
  | .scalar a, .scalar b => a.same b
  | .arr xs, .arr ys => sameItems xs ys
  | .obj fs, .obj gs => sameFields fs gs
  | _, _ => false

/-- Equality of arrays, item by item. -/
def sameItems : List Json → List Json → Bool
  | [], [] => true
  | x :: xs, y :: ys => same x y && sameItems xs ys
  | _, _ => false

/-- Equality of objects, field by field. -/
def sameFields : List (String × Json) → List (String × Json) → Bool
  | [], [] => true
  | (k, x) :: fs, (l, y) :: gs => k = l && same x y && sameFields fs gs
  | _, _ => false

end

/-! ### Order of fields -/

mutual

/-- Every object in the value has its keys in ascending order, each once. -/
def Sorted : Json → Prop
  | .scalar _ => True
  | .arr items => SortedItems items
  | .obj fields => Dict.Sorted fields ∧ SortedFields fields

/-- Every value in the list is sorted. -/
def SortedItems : List Json → Prop
  | [] => True
  | v :: rest => Sorted v ∧ SortedItems rest

/-- Every value in the fields is sorted. -/
def SortedFields : List (String × Json) → Prop
  | [] => True
  | (_, v) :: rest => Sorted v ∧ SortedFields rest

end

/-! ### Parts -/

/-- The text of a text. -/
def asText? : Json → Option String
  | .scalar (.str s) => some s
  | _ => none

/-- The number of a whole number that fits into 64 bits with a sign. -/
def asInteger? : Json → Option Int
  | .scalar (.int n) => if -0x8000000000000000 ≤ n ∧ n < 0x8000000000000000 then some n else none
  | _ => none

/-- The number of a whole number that is not negative. -/
def asNatural? : Json → Option Nat
  | .scalar (.int n) => if 0 ≤ n then some n.toNat else none
  | _ => none

/-- The value of one field of an object. -/
def field? : Json → String → Option Json
  | .obj fields, key => Dict.get? fields key
  | _, _ => none

end Json

end Observatory
