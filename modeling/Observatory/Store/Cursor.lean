import Observatory.Diff.Basic
import Observatory.Store.Node
import Observatory.Whitelist

/-!
# Cursors

A cursor records the stamps of the nodes that one reader has seen.  Moved to the present tree,
it yields the difference that brings the reader's copy there: a node stamped anew is spelled
out, a node with a change beneath is updated part by part, and a node whose stamp is the
recorded one is passed over.

* `Cursor`: the records; `Cursor.unseen`, `Cursor.capture`.
* `Cursor.materialize`: the part of a tree that a whitelist lets pass, spelled out.
* `Cursor.advance`: the move to the present tree.
-/

namespace Observatory

/-- The stamps of the nodes that a reader has seen, by key.  A reader that has seen nothing has
    no stamp. -/
inductive Cursor where
  | mk (stamp : Option Stamp) (props : List (String × Cursor))
  deriving Repr, Inhabited

namespace Cursor

/-- The recorded stamp. -/
def stamp : Cursor → Option Stamp
  | mk s _ => s

/-- The records of the parts. -/
def props : Cursor → Dict Cursor
  | mk _ ps => ps

/-- The cursor of a reader that has seen nothing. -/
def unseen : Cursor := mk none []

/-- The record of the part under a key. -/
def prop? (c : Cursor) (key : String) : Option Cursor := Dict.get? c.props key

/-- The record of the part that a path leads to. -/
def descend? : Cursor → List String → Option Cursor
  | c, [] => some c
  | c, key :: rest => (c.prop? key).bind fun p => descend? p rest

/-- The rule for the items of an array: its own, if anything passes. -/
def itemRule? : Whitelist → Option Whitelist
  | .nothing => none
  | w => some w

/-- The rule for the part of a node under a key, if the part passes. -/
def partRule? (w : Whitelist) (node : Node) (key : String) : Option Whitelist :=
  if node.isArray then itemRule? w else w.child? key

/-! ### The present tree -/

mutual

/-- The record of everything in a tree that passes. -/
def capture (w : Whitelist) : Node → Cursor
  | .scalar s _ => mk (some s) []
  | .object s children => mk (some s) (captureChildren w children)
  | .array s items =>
    match itemRule? w with
    | none => mk (some s) []
    | some rule => mk (some s) (Dict.ofPairs (captureItems rule 0 items))

/-- The records of the children that pass. -/
def captureChildren (w : Whitelist) : List (String × Node) → List (String × Cursor)
  | [] => []
  | (key, n) :: rest =>
    match w.child? key with
    | some rule => (key, capture rule n) :: captureChildren w rest
    | none => captureChildren w rest

/-- The records of some items, counted from `i`. -/
def captureItems (w : Whitelist) (i : Nat) : List Node → List (String × Cursor)
  | [] => []
  | n :: rest => (ArrayIndex.text i, capture w n) :: captureItems w (i + 1) rest

end

mutual

/-- The replacement by everything in a tree that passes. -/
def materialize (w : Whitelist) : Node → Diff
  | .scalar _ v => .value (.scalar v)
  | .object _ children => .newObject (materializeChildren w children)
  | .array _ items => .newArray (materializeItems w items)

/-- The replacements by the children that pass. -/
def materializeChildren (w : Whitelist) : List (String × Node) → List (String × Diff)
  | [] => []
  | (key, n) :: rest =>
    match w.child? key with
    | some rule => (key, materialize rule n) :: materializeChildren w rest
    | none => materializeChildren w rest

/-- The replacements by some items. -/
def materializeItems (w : Whitelist) : List Node → List Diff
  | [] => []
  | n :: rest => materialize w n :: materializeItems w rest

end

/-! ### The move -/

/-- The new record of one part, and the difference if there is one. -/
abbrev Progress := Cursor × Option Diff

/-- The records of several parts. -/
def records (parts : List (String × Progress)) : List (String × Cursor) :=
  parts.map fun p => (p.1, p.2.1)

/-- The differences of several parts, where there are any. -/
def changes (parts : List (String × Progress)) : List (String × Diff) :=
  parts.filterMap fun p => p.2.2.map fun d => (p.1, d)

/-- The recorded keys whose part is gone or passes no more. -/
def removedKeys (w : Whitelist) (node : Node) (props : Dict Cursor) : List String :=
  (Dict.keys props).filter fun key =>
    !((node.child? key).isSome && (partRule? w node key).isSome)

/-- The progress of a node whose parts moved as listed. -/
def gather (stamp : Stamp) (parts : List (String × Progress)) (removed : List String) : Progress :=
  let update := changes parts
  (mk (some stamp) (records parts),
    if update.isEmpty && removed.isEmpty then none else some (.update update removed))

mutual

/-- Move a cursor to the present tree. -/
def advance (w : Whitelist) : Node → Cursor → Progress
  | node, cursor =>
    match cursor.stamp with
    | none => (capture w node, some (materialize w node))
    | some seen =>
      -- A node that was changed itself has nothing in common with the recorded one.
      if node.serial ≠ seen.serial then (capture w node, some (materialize w node))
      else if node.childSerial = seen.childSerial then (cursor, none)
      else
        -- A change beneath: the parts tell which.
        let removed := removedKeys w node cursor.props
        match node with
        | .scalar s _ => gather s [] removed
        | .object s children => gather s (advanceChildren w cursor.props children) removed
        | .array s items =>
          match itemRule? w with
          | none => gather s [] removed
          | some rule => gather s (Dict.ofPairs (advanceItems rule cursor.props 0 items)) removed

/-- Move a cursor, if there is one, to the present tree. -/
def advanceChildren (w : Whitelist) (props : Dict Cursor) :
    List (String × Node) → List (String × Progress)
  | [] => []
  | (key, n) :: rest =>
    match w.child? key with
    | some rule =>
      (key, advance rule n ((Dict.get? props key).getD unseen)) :: advanceChildren w props rest
    | none => advanceChildren w props rest

/-- Move the cursors of some items, counted from `i`, to the present. -/
def advanceItems (w : Whitelist) (props : Dict Cursor) (i : Nat) :
    List Node → List (String × Progress)
  | [] => []
  | n :: rest =>
    let key := ArrayIndex.text i
    (key, advance w n ((Dict.get? props key).getD unseen)) :: advanceItems w props (i + 1) rest

end

end Cursor

end Observatory
