import Observatory.Json.Basic

/-!
# Whitelists

A whitelist says which fields of a tree a reader gets.  Its rules name object keys only: the
items of an array keep their positions and obey the rule of the array.

* `Whitelist.child?`: the rule for a key, if the key passes.
* `Whitelist.filter`: the part of a value that passes.
* `Whitelist.ofJson?`, `Whitelist.toJson`: the written form.
-/

namespace Observatory

/-- Which fields pass: a whole subtree, nothing of it, or the listed keys by their own rules. -/
inductive Whitelist where
  | all
  | nothing
  | fields (rules : List (String × Whitelist))
  deriving Repr, Inhabited

namespace Whitelist

/-- The rule for `key`; `none` when the key does not pass. -/
def child? : Whitelist → String → Option Whitelist
  | all, _ => some all
  | nothing, _ => none
  | fields rules, key =>
    match Dict.get? rules key with
    | some nothing => none
    | found => found

@[simp] theorem child?_all (key : String) : child? all key = some all := rfl
@[simp] theorem child?_nothing (key : String) : child? nothing key = none := rfl

/-- Whether `key` passes. -/
def accepts (w : Whitelist) (key : String) : Bool := (w.child? key).isSome

/-- The rule that a path of keys leads to, if every key passes. -/
def descend? : Whitelist → List String → Option Whitelist
  | w, [] => some w
  | w, key :: rest => (w.child? key).bind fun rule => descend? rule rest

mutual

/-- The part of a value that passes. -/
def filter : Whitelist → Json → Json
  | all, v => v
  | _, .scalar s => .scalar s
  | w, .arr items => .arr (filterItems w items)
  | w, .obj pairs => .obj (filterFields w pairs)

/-- The parts of some items that pass, each under the rule of their array. -/
def filterItems : Whitelist → List Json → List Json
  | _, [] => []
  | w, v :: rest => filter w v :: filterItems w rest

/-- The fields that pass, each under its own rule. -/
def filterFields : Whitelist → List (String × Json) → List (String × Json)
  | _, [] => []
  | w, (key, v) :: rest =>
    match w.child? key with
    | some rule => (key, filter rule v) :: filterFields w rest
    | none => filterFields w rest

end

/-! ### Written form -/

mutual

/-- The whitelist that a value writes: `true`, `false`, or an object of whitelists. -/
def ofJson? : Json → Option Whitelist
  | .scalar (.bool true) => some all
  | .scalar (.bool false) => some nothing
  | .obj rules => (ofFields? rules).map fields
  | _ => none

/-- The rules that the fields of an object write. -/
def ofFields? : List (String × Json) → Option (List (String × Whitelist))
  | [] => some []
  | (key, v) :: rest => do
    let rule ← ofJson? v
    let rules ← ofFields? rest
    some ((key, rule) :: rules)

end

mutual

/-- The value that writes a whitelist. -/
def toJson : Whitelist → Json
  | all => .bool true
  | nothing => .bool false
  | fields rules => .obj (toFields rules)

/-- The fields that write some rules. -/
def toFields : List (String × Whitelist) → List (String × Json)
  | [] => []
  | (key, rule) :: rest => (key, toJson rule) :: toFields rest

end

end Whitelist

end Observatory
