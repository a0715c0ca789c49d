import Observatory.DeviceTree.Layout
import Observatory.Indi.Command
import Observatory.Json.Printer
import Observatory.Store.Basic

/-!
# Reading the device tree

Views read devices and vectors out of the tree as it is.  A view may be of something that is
not there (yet).

* `DeviceTree`: the part of a store that holds the devices, and its devices.
* `DeviceView`, `VectorView`: one device, one vector.
* `VectorView.command`: the command that gives members new values.
-/

namespace Observatory

/-- The text of a scalar: a text as it is, everything else as it is written. -/
def Scalar.display : Scalar → String
  | .str s => s
  | v => (Json.scalar v).render

/-- Why a vector does not take a command, or has no value to show. -/
inductive ViewError where
  /-- There is no such vector or member. -/
  | notFound (path : List String)
  /-- The vector is read-only. -/
  | lightVector (device vector : String)
  deriving DecidableEq, Repr

/-- The message of an error. -/
def ViewError.message : ViewError → String
  | notFound path => "not found: " ++ ".".intercalate path
  | lightVector device vector =>
    "invalid command: " ++ device ++ "." ++ vector ++ " is a light vector"

/-- The device tree: a store, and the path under which its devices lie. -/
structure DeviceTree where
  path : List String
  store : Store

/-- A device: its node if it is there, and its name. -/
structure DeviceView where
  node : Option Node
  name : String

/-- A vector: its node if it is there, and its names. -/
structure VectorView where
  node : Option Node
  device : String
  name : String

namespace DeviceTree

/-- The node that holds the devices, if there is one. -/
def root? (t : DeviceTree) : Option Node := t.store.node? t.path

/-- The names of the devices. -/
def deviceNames (t : DeviceTree) : List String := (t.root?.map Node.keys).getD []

/-- The view of a device. -/
def device (t : DeviceTree) (name : String) : DeviceView :=
  { node := t.root?.bind fun n => n.child? name, name }

end DeviceTree

namespace DeviceView

/-- Whether the device is there. -/
def isPresent (d : DeviceView) : Bool := d.node.isSome

/-- The names of its vectors. -/
def vectorNames (d : DeviceView) : List String := (d.node.map Node.keys).getD []

/-- The view of a vector. -/
def vector (d : DeviceView) (name : String) : VectorView :=
  { node := d.node.bind fun n => n.child? name, device := d.name, name }

end DeviceView

namespace VectorView

/-! ### Facts -/

/-- Whether the vector is there. -/
def isPresent (v : VectorView) : Bool := v.node.isSome

/-- The scalar under a key of a node. -/
def scalar? (node : Option Node) (key : String) : Option Scalar :=
  (node.bind fun n => n.child? key).bind Node.asScalar?

/-- The text that a scalar is. -/
def text? : Scalar → Option String
  | .str s => some s
  | _ => none

/-- The kind. -/
def kind? (v : VectorView) : Option VectorKind :=
  ((scalar? v.node Layout.kindKey).bind text?).bind VectorKind.ofName?

/-- The state. -/
def state? (v : VectorView) : Option VectorState :=
  ((scalar? v.node Layout.stateKey).bind text?).bind VectorState.ofName?

/-- The number drawn when the vector was written last. -/
def revision? (v : VectorView) : Option Nat :=
  (scalar? v.node Layout.revisionKey).bind fun x => (Json.scalar x).asNatural?

/-- An attribute. -/
def attribute? (v : VectorView) (name : String) : Option String :=
  (scalar? v.node (Layout.fieldKey name)).map Scalar.display

/-- Whether the vector takes a command: it is there, and it is not busy. -/
def isReady (v : VectorView) : Bool := v.isPresent && v.state? ≠ some .busy

/-! ### Members -/

/-- The node of a member. -/
def member? (v : VectorView) (member : String) : Option Node :=
  (v.node.bind fun n => n.child? Layout.membersKey).bind fun n => n.child? member

/-- The names of the members in the order of their definition. -/
def memberNames (v : VectorView) : List String :=
  match v.node.bind fun n => n.child? Layout.memberNamesKey with
  | none => []
  | some names => names.entries.filterMap fun p => p.2.asScalar?.bind text?

/-- Whether there is a member. -/
def hasMember (v : VectorView) (member : String) : Bool := (v.member? member).isSome

/-- The value of a member, if there is one. -/
def value? (v : VectorView) (member : String) : Option String :=
  (scalar? (v.member? member) Layout.valueKey).map Scalar.display

/-- The value of a member. -/
def value (v : VectorView) (member : String) : Except ViewError String :=
  match v.value? member with
  | some text => .ok text
  | none => .error (.notFound [v.device, v.name, member])

/-- An attribute of a member. -/
def memberAttribute? (v : VectorView) (member name : String) : Option String :=
  (scalar? (v.member? member) (Layout.fieldKey name)).map Scalar.display

/-- The members that have values, in the order of their definition. -/
def values (v : VectorView) : List (String × String) :=
  v.memberNames.filterMap fun name => (v.value? name).map fun text => (name, text)

/-! ### Commands -/

/-- The value that the first of some assignments gives to a member. -/
def assigned? (assignments : List (String × String)) (member : String) : Option String :=
  (assignments.find? fun a => a.1 = member).map Prod.snd

/-- The members of a command.  A switch vector gets the assignments alone; other vectors are
    written whole, and members that are not assigned keep their values. -/
def commandMembers (v : VectorView) (kind : VectorKind) (assignments : List (String × String)) :
    List (String × String) :=
  match kind with
  | .switch => assignments
  | _ => v.memberNames.map fun name =>
      (name, ((assigned? assignments name).or (v.value? name)).getD "")

/-- The command that gives members new values. -/
def command (v : VectorView) (assignments : List (String × String)) : Except ViewError Command :=
  match v.kind? with
  | none => .error (.notFound [v.device, v.name])
  | some .light => .error (.lightVector v.device v.name)
  | some kind =>
    match assignments.find? fun a => !v.hasMember a.1 with
    | some (unknown, _) => .error (.notFound [v.device, v.name, unknown])
    | none =>
      .ok { kind, device := v.device, name := v.name, members := v.commandMembers kind assignments }

end VectorView

end Observatory
