import Observatory.Text.Quoted

/-!
# Vectors

A device shows its properties as vectors: groups of members of one kind with a common state.

* `VectorKind`, `VectorState`: kinds and states, and their names.
* `ProtocolError`: why a message cannot be read.
-/

namespace Observatory

/-- What the members of a vector are. -/
inductive VectorKind where
  | text
  | number
  | switch
  | light
  deriving DecidableEq, Repr

/-- How a vector is doing. -/
inductive VectorState where
  | idle
  | ok
  | busy
  | alert
  deriving DecidableEq, Repr

/-- Why a message cannot be read. -/
inductive ProtocolError where
  /-- The text is no well-formed document. -/
  | notWellFormed
  /-- An element lacks an attribute. -/
  | missing (tag field : String)
  /-- There is no such kind of vector. -/
  | unknownKind (name : String)
  /-- There is no such state. -/
  | unknownState (name : String)
  deriving DecidableEq, Repr

/-- The message of an error. -/
def ProtocolError.message : ProtocolError → String
  | notWellFormed => "xml error"
  | missing tag field => "malformed " ++ tag ++ ": missing " ++ field
  | unknownKind name => "malformed vector: unknown type " ++ Quoted.quote name
  | unknownState name => "malformed vector: unknown state " ++ Quoted.quote name

namespace VectorKind

/-- Every kind. -/
def all : List VectorKind := [text, number, switch, light]

/-- The name of a kind. -/
def name : VectorKind → String
  | text => "Text"
  | number => "Number"
  | switch => "Switch"
  | light => "Light"

/-- The kind of a name. -/
def ofName? (name : String) : Option VectorKind := all.find? fun k => k.name = name

/-- The kind that some text names. -/
def parse (text : String) : Except ProtocolError VectorKind :=
  match ofName? text with
  | some k => .ok k
  | none => .error (.unknownKind text)

/-- The kind that a tag names between two parts of its own. -/
def ofTag? (before after tag : String) : Option VectorKind :=
  all.find? fun k => before ++ k.name ++ after = tag

theorem ofName?_name (k : VectorKind) : ofName? k.name = some k := by cases k <;> rfl

end VectorKind

namespace VectorState

/-- Every state. -/
def all : List VectorState := [idle, ok, busy, alert]

/-- The name of a state. -/
def name : VectorState → String
  | idle => "Idle"
  | ok => "Ok"
  | busy => "Busy"
  | alert => "Alert"

/-- The state of a name. -/
def ofName? (name : String) : Option VectorState := all.find? fun s => s.name = name

/-- The state that some text names. -/
def parse (text : String) : Except ProtocolError VectorState :=
  match ofName? text with
  | some s => .ok s
  | none => .error (.unknownState text)

theorem ofName?_name (s : VectorState) : ofName? s.name = some s := by cases s <;> rfl

end VectorState

end Observatory
