import Observatory.Diff.Basic
import Observatory.Json.Printer
import Observatory.Json.Reader

/-!
# The wire form of differences

A scalar stands for itself.  Every other difference is an object with one of the parts
`newObject`, `newArray` and `update`, the last with a part `delete` when keys are gone.  The
items of a new array are keyed by their positions.

* `Diff.encode`: the wire form.
* `Diff.decode`: the difference that a value is the wire form of, with its errors.
* `Diff.readText`: a difference from JSON text.
-/

namespace Observatory

namespace Diff

/-- The part for new objects. -/
def newObjectKey : String := "newObject"
/-- The part for new arrays. -/
def newArrayKey : String := "newArray"
/-- The part for changes in place. -/
def updateKey : String := "update"
/-- The part for removed keys. -/
def deleteKey : String := "delete"

/-- Items keyed by their positions, in the order of the keys. -/
def keyed {α : Type} (items : List α) : Dict α :=
  Dict.ofPairs (items.zipIdx.map fun (v, i) => (ArrayIndex.text i, v))

/-! ### Encoding -/

mutual

/-- The wire form of the replacement by a value. -/
def encodeValue : Json → Json
  | .scalar s => .scalar s
  | .arr items => .obj [(newArrayKey, .obj (keyed (encodeValueItems items)))]
  | .obj fields => .obj [(newObjectKey, .obj (encodeValueFields fields))]

/-- The wire forms of the replacements by some items. -/
def encodeValueItems : List Json → List Json
  | [] => []
  | v :: rest => encodeValue v :: encodeValueItems rest

/-- The wire forms of the replacements by some fields. -/
def encodeValueFields : List (String × Json) → List (String × Json)
  | [] => []
  | (k, v) :: rest => (k, encodeValue v) :: encodeValueFields rest

end

mutual

/-- The wire form of a difference. -/
def encode : Diff → Json
  | .value v => encodeValue v
  | .newObject fields => .obj [(newObjectKey, .obj (encodeFields fields))]
  | .newArray items => .obj [(newArrayKey, .obj (keyed (encodeItems items)))]
  | .update changes removed =>
    let change := (updateKey, .obj (encodeFields changes))
    if removed.isEmpty then .obj [change]
    else .obj [(deleteKey, .arr (removed.map .str)), change]

/-- The wire forms of the differences of some fields. -/
def encodeFields : List (String × Diff) → List (String × Json)
  | [] => []
  | (k, d) :: rest => (k, encode d) :: encodeFields rest

/-- The wire forms of the differences of some items. -/
def encodeItems : List Diff → List Json
  | [] => []
  | d :: rest => encode d :: encodeItems rest

end

/-! ### Decoding -/

/-- The parts of an object under one key, each decoded. -/
abbrev Parts := List (String × Except DiffError Diff)

/-- The parts of a new object or of a change: the first that does not decode is the error. -/
def collectFields (parts : Parts) : Except DiffError (List (String × Diff)) :=
  parts.mapM fun (k, d) => d.map fun d => (k, d)

/-- The items of a new array: positions and parts in the order of the keys, then sorted by
    position, which must run from zero without a gap. -/
def collectItems (parts : Parts) : Except DiffError (List Diff) := do
  let placed ← parts.mapM fun (k, d) => do
    let i ← position k
    let d ← d
    pure (i, d)
  let ordered := placed.mergeSort fun a b => a.1 ≤ b.1
  if ordered.map Prod.fst = List.range ordered.length then
    pure (ordered.map Prod.snd)
  else
    throw (.malformed .gapsInArray)

/-- The removed keys of a change. -/
def collectRemoved : Option Json → Except DiffError (List String)
  | none => .ok []
  | some (.arr keys) => keys.mapM fun
    | .scalar (.str k) => .ok k
    | _ => .error (.malformed .removedKeyNotText)
  | some _ => .error (.malformed .removedNotArray)

mutual

/-- The difference that a value is the wire form of. -/
def decode : Json → Except DiffError Diff
  | .scalar s => .ok (.value (.scalar s))
  | .arr _ => .error (.malformed .bareArray)
  | .obj fields =>
    match decodeUnder newObjectKey fields with
    | some parts => do return .newObject (← collectFields (← parts))
    | none =>
      match decodeUnder newArrayKey fields with
      | some parts => do return .newArray (← collectItems (← parts))
      | none =>
        match decodeUnder updateKey fields with
        | some parts => do
          let changes ← collectFields (← parts)
          let removed ← collectRemoved (Dict.get? fields deleteKey)
          return .update changes removed
        | none => .error (.malformed .noKnownPart)

/-- The parts under one key of an object, if it has that key. -/
def decodeUnder (key : String) : List (String × Json) → Option (Except DiffError Parts)
  | [] => none
  | (k, v) :: rest =>
    if k = key then some (decodeParts key v)
    else decodeUnder key rest

/-- The parts of an object. -/
def decodeParts (key : String) : Json → Except DiffError Parts
  | .obj inner => .ok (decodeEach inner)
  | _ => .error (.malformed (.notObject key))

/-- Every field of an object, decoded. -/
def decodeEach : List (String × Json) → Parts
  | [] => []
  | (k, v) :: rest => (k, decode v) :: decodeEach rest

end

/-! ### Text -/

/-- Why a text is no difference. -/
inductive TextError where
  /-- The text is no JSON. -/
  | unreadable
  /-- The value is no wire form. -/
  | undecodable (error : DiffError)
  deriving Repr

/-- The difference that a whole JSON text writes. -/
def readText (text : String) : Except TextError Diff :=
  match Json.Source.readHead? text.toList with
  | none => .error .unreadable
  | some (source, rest) =>
    match source.value? with
    | none => .error .unreadable
    | some v =>
      match decode v with
      | .error e => .error (.undecodable e)
      | .ok d => if (Json.Source.skipBlanks rest).isEmpty then .ok d else .error .unreadable

/-- The JSON text of a difference. -/
def writeText (d : Diff) : String := d.encode.render

end Diff

end Observatory
