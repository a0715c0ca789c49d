import Observatory.ArrayIndex
import Observatory.Json.Basic

/-!
# Versioned trees

A node is a JSON value in which every part carries a stamp: the serial of the last change made
to the part itself, and the largest serial of any change at or beneath it.

* `Node`: the trees; `Node.build` makes one from a value, `Node.toJson` forgets the stamps.
* `Node.child?`, `Node.descendant?`: one step and many steps down.
* `Node.entries`, `Node.keys`: the parts of a node with their keys.
* `Node.serialsConsistent`: whether no part is stamped later than what holds it.
-/

namespace Observatory

/-- When a part of a tree changed: itself, and itself or anything beneath it. -/
structure Stamp where
  serial : Nat
  childSerial : Nat
  deriving DecidableEq, Repr, Inhabited

namespace Stamp

/-- The stamp of a part that is new at `serial`. -/
def fresh (serial : Nat) : Stamp := ⟨serial, serial⟩

/-- The stamp after a change beneath. -/
def bubble (s : Stamp) (serial : Nat) : Stamp := { s with childSerial := max s.childSerial serial }

/-- The stamp after a change of the part itself. -/
def renew (s : Stamp) (serial : Nat) : Stamp := ⟨serial, max s.childSerial serial⟩

end Stamp

/-- A JSON value with a stamp on every part. -/
inductive Node where
  | scalar (stamp : Stamp) (value : Scalar)
  | object (stamp : Stamp) (children : List (String × Node))
  | array (stamp : Stamp) (items : List Node)
  deriving Repr, Inhabited

namespace Node

/-! ### Stamps -/

/-- The stamp of a node. -/
def stamp : Node → Stamp
  | scalar s _ => s
  | object s _ => s
  | array s _ => s

/-- The node with another stamp. -/
def withStamp (s : Stamp) : Node → Node
  | scalar _ v => scalar s v
  | object _ children => object s children
  | array _ items => array s items

/-- The serial of the last change made to the node itself. -/
def serial (n : Node) : Nat := n.stamp.serial

/-- The largest serial of a change at or beneath the node. -/
def childSerial (n : Node) : Nat := n.stamp.childSerial

/-- The node after a change beneath it. -/
def bubble (n : Node) (serial : Nat) : Node := n.withStamp (n.stamp.bubble serial)

/-- The node after a change of itself. -/
def renew (n : Node) (serial : Nat) : Node := n.withStamp (n.stamp.renew serial)

/-! ### From and to values -/

mutual

/-- The tree of a value that is new at `serial`. -/
def build (serial : Nat) : Json → Node
  | .scalar v => scalar (.fresh serial) v
  | .arr items => array (.fresh serial) (buildItems serial items)
  | .obj fields => object (.fresh serial) (buildFields serial fields)

/-- The trees of some items. -/
def buildItems (serial : Nat) : List Json → List Node
  | [] => []
  | v :: rest => build serial v :: buildItems serial rest

/-- The trees of some fields. -/
def buildFields (serial : Nat) : List (String × Json) → List (String × Node)
  | [] => []
  | (k, v) :: rest => (k, build serial v) :: buildFields serial rest

end

mutual

/-- The value of a tree. -/
def toJson : Node → Json
  | scalar _ v => .scalar v
  | object _ children => .obj (toFields children)
  | array _ items => .arr (toItems items)

/-- The values of some children. -/
def toFields : List (String × Node) → List (String × Json)
  | [] => []
  | (k, n) :: rest => (k, toJson n) :: toFields rest

/-- The values of some items. -/
def toItems : List Node → List Json
  | [] => []
  | n :: rest => toJson n :: toItems rest

end

/-! ### Parts -/

/-- Whether the node can have parts. -/
def isComposite : Node → Bool
  | scalar _ _ => false
  | _ => true

/-- Whether the node is an array. -/
def isArray : Node → Bool
  | array _ _ => true
  | _ => false

/-- The scalar that the node is. -/
def asScalar? : Node → Option Scalar
  | scalar _ v => some v
  | _ => none

/-- The part under a key; a key of an array is any spelling of a position. -/
def child? : Node → String → Option Node
  | scalar _ _, _ => none
  | object _ children, key => Dict.get? children key
  | array _ items, key => (ArrayIndex.parse? key).bind fun i => items[i]?

/-- The part that a path of keys leads to. -/
def descendant? : Node → List String → Option Node
  | n, [] => some n
  | n, key :: rest => (n.child? key).bind fun c => descendant? c rest

/-- The items of an array under their positions, counted from `i`. -/
def numbered {α : Type} (i : Nat) : List α → List (String × α)
  | [] => []
  | x :: rest => (ArrayIndex.text i, x) :: numbered (i + 1) rest

/-- The parts with their keys: children by key, items by position. -/
def entries : Node → List (String × Node)
  | scalar _ _ => []
  | object _ children => children
  | array _ items => numbered 0 items

/-- The keys of the parts. -/
def keys (n : Node) : List String := n.entries.map Prod.fst

/-- The number of parts. -/
def size (n : Node) : Nat := n.entries.length

/-! ### Consistency -/

mutual

/-- Whether no part beneath has a larger serial than the child serial of what holds it, and a
    scalar's two serials are the same. -/
def serialsConsistent : Node → Bool
  | scalar s _ => s.childSerial == s.serial
  | object s children =>
    decide (s.serial ≤ s.childSerial) && childrenConsistent s.childSerial children
  | array s items => decide (s.serial ≤ s.childSerial) && itemsConsistent s.childSerial items

/-- Whether some children are consistent and stamped no later than `bound`. -/
def childrenConsistent (bound : Nat) : List (String × Node) → Bool
  | [] => true
  | (_, n) :: rest =>
    decide (n.serial ≤ bound) && decide (n.childSerial ≤ bound) && serialsConsistent n &&
      childrenConsistent bound rest

/-- Whether some items are consistent and stamped no later than `bound`. -/
def itemsConsistent (bound : Nat) : List Node → Bool
  | [] => true
  | n :: rest =>
    decide (n.serial ≤ bound) && decide (n.childSerial ≤ bound) && serialsConsistent n &&
      itemsConsistent bound rest

end

end Node

end Observatory
