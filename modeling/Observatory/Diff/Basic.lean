import Observatory.Json.Basic
import Observatory.ArrayIndex

/-!
# Differences between two states of a value

A difference replaces a value or changes it in place.  A replacement spells out objects and
arrays part by part; a change names the parts that differ and the keys that are gone.

* `Diff`: the differences.
* `Diff.materialize`: the replacement by a given value.
* `Diff.apply`: the value after a difference.
* `DiffError`: why a difference cannot be decoded or applied.
-/

namespace Observatory

/-- What changed between two states of a value. -/
inductive Diff where
  /-- The value is replaced by this one, a scalar as a rule. -/
  | value (v : Json)
  /-- The value is replaced by an object. -/
  | newObject (fields : List (String × Diff))
  /-- The value is replaced by an array. -/
  | newArray (items : List Diff)
  /-- Some parts of an object or an array differ, and some are gone. -/
  | update (changes : List (String × Diff)) (removed : List String)
  deriving Repr, Inhabited

/-- The kinds of value that a change in place does not fit. -/
inductive DiffTarget where
  | missing
  | boolean
  | number
  | text
  deriving DecidableEq, Repr

/-- What is wrong with the written form of a difference. -/
inductive DiffFault where
  /-- A part that must be an object is none. -/
  | notObject (part : String)
  /-- The positions of a new array have gaps or repetitions. -/
  | gapsInArray
  /-- A removed key is no text. -/
  | removedKeyNotText
  /-- The removed keys are no array. -/
  | removedNotArray
  /-- An object has none of the known parts. -/
  | noKnownPart
  /-- An array where a difference is expected. -/
  | bareArray
  deriving DecidableEq, Repr

/-- Why a difference cannot be decoded or applied. -/
inductive DiffError where
  | malformed (fault : DiffFault)
  | invalidTarget (target : DiffTarget)
  | invalidIndex (key : String)
  deriving DecidableEq, Repr

/-- The name of a kind of value. -/
def DiffTarget.name : DiffTarget → String
  | missing => "missing"
  | boolean => "boolean"
  | number => "number"
  | text => "string"

/-- The explanation of a fault. -/
def DiffFault.text : DiffFault → String
  | notObject part => part ++ " must be an object"
  | gapsInArray => "newArray indices are not dense"
  | removedKeyNotText => "delete entries must be strings"
  | removedNotArray => "delete must be an array"
  | noKnownPart => "object diff without newObject/newArray/update"
  | bareArray => "bare array is not a diff"

/-- The message of an error. -/
def DiffError.message : DiffError → String
  | malformed fault => "malformed diff: " ++ fault.text
  | invalidTarget target => "cannot apply update to a " ++ target.name ++ " value"
  | invalidIndex key => "invalid array index in diff: " ++ key

namespace Diff

mutual

/-- The replacement by `v`, spelled out part by part. -/
def materialize : Json → Diff
  | .scalar s => .value (.scalar s)
  | .arr items => .newArray (materializeItems items)
  | .obj fields => .newObject (materializeFields fields)

/-- The replacements by some items. -/
def materializeItems : List Json → List Diff
  | [] => []
  | v :: rest => materialize v :: materializeItems rest

/-- The replacements by some fields. -/
def materializeFields : List (String × Json) → List (String × Diff)
  | [] => []
  | (k, v) :: rest => (k, materialize v) :: materializeFields rest

end

/-- Whether a difference is a change of nothing. -/
def isEmptyUpdate : Diff → Bool
  | .update [] [] => true
  | _ => false

/-! ### Application -/

/-- A change of one part: from its prior value, if there was one, to its new value. -/
abbrev Edit := Option Json → Except DiffError Json

/-- The position that a key spells. -/
def position (key : String) : Except DiffError Nat :=
  match ArrayIndex.parse? key with
  | some i => .ok i
  | none => .error (.invalidIndex key)

/-- Build the fields of an object from nothing. -/
def createFields (edits : List (String × Edit)) : Except DiffError (List (String × Json)) :=
  edits.mapM fun (p : String × Edit) => (p.2 none).map fun v => (p.1, v)

/-- Change the fields of an object, one key after the other. -/
def editFields (edits : List (String × Edit)) (fields : Dict Json) : Except DiffError (Dict Json) :=
  edits.foldlM (fun (fs : Dict Json) (p : String × Edit) =>
    (p.2 (Dict.get? fs p.1)).map fun v => Dict.insert fs p.1 v) fields

/-- An array cut at the least of some positions. -/
def cutAt (positions : List Nat) (items : List Json) : List Json :=
  match positions.min? with
  | some cut => items.take cut
  | none => items

/-- Change the item at a position, or append it, with nulls in a gap before it. -/
def editItem (items : List Json) (i : Nat) (edit : Edit) : Except DiffError (List Json) :=
  if i < items.length then (edit items[i]?).map fun v => items.set i v
  else (edit none).map fun v => items ++ List.replicate (i - items.length) .null ++ [v]

/-- Change the items of an array: cut it at the least removed position, then change or append
    the others in the order of their positions. -/
def editItems (edits : List (String × Edit)) (removed : List String) (items : List Json) :
    Except DiffError (List Json) := do
  let cuts ← removed.mapM position
  let placed ← edits.mapM fun (p : String × Edit) => (position p.1).map fun i => (i, p.2)
  -- The keys come in the order of their text, where ten stands before two.
  let ordered := placed.mergeSort fun a b => a.1 ≤ b.1
  ordered.foldlM (fun items (p : Nat × Edit) => editItem items p.1 p.2) (cutAt cuts items)

/-- Change a container in place. -/
def editParts (edits : List (String × Edit)) (removed : List String) : Edit
  -- A field that is removed and changed begins anew.
  | some (.obj fields) =>
    (editFields edits (removed.foldl (fun fs k => Dict.erase fs k) fields)).map .obj
  | some (.arr items) => (editItems edits removed items).map .arr
  | none | some (.scalar .null) => .error (.invalidTarget .missing)
  | some (.scalar (.bool _)) => .error (.invalidTarget .boolean)
  | some (.scalar (.int _)) | some (.scalar (.float _)) => .error (.invalidTarget .number)
  | some (.scalar (.str _)) => .error (.invalidTarget .text)

mutual

/-- The value after a difference, from the value before it, if there was one. -/
def apply : Diff → Edit
  | .value v => fun _ => .ok v
  | .newObject fields => fun _ => (createFields (fieldEdits fields)).map .obj
  | .newArray items => fun _ => ((itemEdits items).mapM fun (edit : Edit) => edit none).map .arr
  | .update changes removed => editParts (fieldEdits changes) removed

/-- The differences of some fields as changes. -/
def fieldEdits : List (String × Diff) → List (String × Edit)
  | [] => []
  | (k, d) :: rest => (k, apply d) :: fieldEdits rest

/-- The differences of some items as changes. -/
def itemEdits : List Diff → List Edit
  | [] => []
  | d :: rest => apply d :: itemEdits rest

end

end Diff

end Observatory
