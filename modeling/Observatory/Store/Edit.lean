import Observatory.Store.Node

/-!
# Changes of a versioned tree

Every change is made at a path and with a serial.  It yields the changed tree, or nothing when
the tree is as it should be already; a tree that does not change keeps all its stamps.

* `Node.assign`: give a node a new value, keeping the parts that stay.
* `Node.setAt`, `Node.removeAt`, `Node.touchAt`: changes at the end of a path.
* `StoreError`: why a path cannot be followed.
-/

namespace Observatory

/-- What is wrong with a path. -/
inductive PathFault where
  /-- The whole tree cannot be removed. -/
  | removesRoot
  /-- The key of an array item is no position. -/
  | notPosition
  deriving DecidableEq, Repr

/-- Why a change at a path is refused. -/
inductive StoreError where
  /-- The path is faulty at its last key. -/
  | invalidPath (path : List String) (fault : PathFault)
  /-- The array at the path is too short to have an item at `index`. -/
  | indexOutOfRange (path : List String) (index size : Nat)
  deriving DecidableEq, Repr

/-- The explanation of a fault. -/
def PathFault.text : PathFault → String
  | removesRoot => "cannot remove the root"
  | notPosition => "array index must be a decimal integer"

/-- A path as it is shown to people. -/
def displayPath : List String → String
  | [] => "<root>"
  | path => ".".intercalate path

namespace StoreError

/-- The message of an error. -/
def message : StoreError → String
  | invalidPath path fault => "invalid path " ++ displayPath path ++ ": " ++ fault.text
  | indexOutOfRange path index size =>
    "index " ++ toString index ++ " out of range for array of length " ++ toString size ++
      " at " ++ displayPath path

/-- The error of a node as an error of the node that has it under `key`. -/
def under (key : String) : StoreError → StoreError
  | invalidPath path fault => invalidPath (key :: path) fault
  | indexOutOfRange path index size => indexOutOfRange (key :: path) index size

end StoreError

namespace Node

/-! ### New values -/

mutual

/-- Give a node a new value, unless it has that value.  Objects and arrays keep the parts that
    stay; a node of another kind is built anew. -/
def assign (serial : Nat) : Json → Node → Option Node
  | .scalar v, .scalar s old => if old.same v then none else some (.scalar (s.renew serial) v)
  | .obj fields, .object s children =>
    let (next, changed) := assignFields serial children fields
    -- A child that has no field is gone, which is a change too.
    if changed || children.any (fun c => !Dict.contains fields c.1) then
      some (.object (s.bubble serial) next)
    else none
  | .arr values, .array s items =>
    let (next, changed) := assignItems serial items values
    if changed then some (.array (s.bubble serial) next) else none
  | v, _ => some (build serial v)

/-- The children for some fields, and whether any of them is new or changed. -/
def assignFields (serial : Nat) (children : Dict Node) :
    List (String × Json) → List (String × Node) × Bool
  | [] => ([], false)
  | (k, v) :: rest =>
    let (tail, changed) := assignFields serial children rest
    match Dict.get? children k with
    | none => ((k, build serial v) :: tail, true)
    | some child =>
      match assign serial v child with
      | none => ((k, child) :: tail, changed)
      | some next => ((k, next) :: tail, true)

/-- The items for some values, and whether any of them is new, changed or gone. -/
def assignItems (serial : Nat) : List Node → List Json → List Node × Bool
  | items, [] => ([], !items.isEmpty)
  | [], v :: rest => (build serial v :: buildItems serial rest, true)
  | item :: items, v :: rest =>
    let (tail, changed) := assignItems serial items rest
    match assign serial v item with
    | none => (item :: tail, changed)
    | some next => (next :: tail, true)

end

/-! ### Changes at a path -/

/-- The objects that lead along a path to a new value. -/
def buildPath (serial : Nat) (value : Json) : List String → Node
  | [] => build serial value
  | key :: rest => .object (.fresh serial) [(key, buildPath serial value rest)]

/-- Give the node at a path a value.  Missing keys of objects are made, the item after the last
    is appended, and a scalar on the way gives way to an object. -/
def setAt (serial : Nat) (value : Json) : List String → Node → Except StoreError (Option Node)
  | [], node => .ok (assign serial value node)
  | key :: rest, .scalar _ _ =>
    .ok (some (.object (.fresh serial) [(key, buildPath serial value rest)]))
  | key :: rest, .object s children =>
    match Dict.get? children key with
    | none =>
      .ok (some (.object (s.bubble serial)
        (Dict.insert children key (buildPath serial value rest))))
    | some child =>
      match setAt serial value rest child with
      | .error e => .error (e.under key)
      | .ok none => .ok none
      | .ok (some next) => .ok (some (.object (s.bubble serial) (Dict.insert children key next)))
  | key :: rest, .array s items =>
    match ArrayIndex.parse? key with
    | none => .error (.invalidPath [key] .notPosition)
    | some i =>
      match items[i]? with
      | some item =>
        match setAt serial value rest item with
        | .error e => .error (e.under key)
        | .ok none => .ok none
        | .ok (some next) => .ok (some (.array (s.bubble serial) (items.set i next)))
      | none =>
        -- There is room for an item right behind the last one only.
        if i = items.length then
          .ok (some (.array (s.bubble serial) (items ++ [buildPath serial value rest])))
        else .error (.indexOutOfRange [] i items.length)

/-- Remove the node at a path.  The items after a removed one move down, which changes their
    array itself. -/
def removeAt (serial : Nat) : List String → Node → Except StoreError (Option Node)
  | [], _ => .error (.invalidPath [] .removesRoot)
  | _ :: _, .scalar _ _ => .ok none
  | key :: rest, .object s children =>
    match Dict.get? children key with
    | none => .ok none
    | some child =>
      if rest.isEmpty then .ok (some (.object (s.bubble serial) (Dict.erase children key)))
      else
        match removeAt serial rest child with
        | .error e => .error (e.under key)
        | .ok none => .ok none
        | .ok (some next) => .ok (some (.object (s.bubble serial) (Dict.insert children key next)))
  | key :: rest, .array s items =>
    match ArrayIndex.parse? key with
    | none => .error (.invalidPath [key] .notPosition)
    | some i =>
      match items[i]? with
      | none => .ok none
      | some item =>
        -- The items behind it change their places, so the array counts as changed itself.
        if rest.isEmpty then .ok (some (.array (s.renew serial) (items.eraseIdx i)))
        else
          match removeAt serial rest item with
          | .error e => .error (e.under key)
          | .ok none => .ok none
          | .ok (some next) => .ok (some (.array (s.bubble serial) (items.set i next)))

/-- Mark the node at a path as changed, whatever its value. -/
def touchAt (serial : Nat) : List String → Node → Option Node
  | [], node => some (node.renew serial)
  | _ :: _, .scalar _ _ => none
  | key :: rest, .object s children =>
    match Dict.get? children key with
    | none => none
    | some child => (touchAt serial rest child).map fun next =>
        .object (s.bubble serial) (Dict.insert children key next)
  | key :: rest, .array s items =>
    match ArrayIndex.parse? key with
    | none => none
    | some i =>
      match items[i]? with
      | none => none
      | some item => (touchAt serial rest item).map fun next =>
          .array (s.bubble serial) (items.set i next)

end Node

end Observatory
