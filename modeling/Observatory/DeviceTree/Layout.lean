/-!
# The layout of the device tree

The devices lie beneath one path of the store and the message log beneath another.  A vector is
an object at the path of its device and its own name.  Its own facts have keys that begin with
a dollar sign; its members are objects beneath `childs`, and `childNames` lists them in the
order of their definition.

* `Layout`: the two paths, and how many messages the log keeps.
* `Layout.vector`, `Layout.member`, `Layout.logEntry`: the paths of things.
* `Layout.fieldKey`: the key of an attribute.
-/

namespace Observatory

/-- Where the devices and the messages lie, and how many messages are kept. -/
structure Layout where
  treePath : List String := ["deviceTree"]
  messagesPath : List String := ["messages"]
  maxMessages : Nat := 100
  deriving DecidableEq, Repr

namespace Layout

/-! ### Keys -/

/-- The key of an attribute. -/
def fieldKey (name : String) : String := "$" ++ name

/-- The kind of a vector. -/
def kindKey : String := "$type"

/-- The state of a vector. -/
def stateKey : String := "$state"

/-- The number drawn when a vector was written last. -/
def revisionKey : String := "$rev"

/-- The time of the last message about a vector, or of a log entry. -/
def timestampKey : String := "$timestamp"

/-- The members of a vector by name. -/
def membersKey : String := "childs"

/-- The names of the members in their order. -/
def memberNamesKey : String := "childNames"

/-- The value of a member. -/
def valueKey : String := "$_"

/-- The name of a member. -/
def nameKey : String := "$name"

/-- The device of a log entry. -/
def deviceKey : String := "$device"

/-- The words of a log entry. -/
def messageKey : String := "$message"

/-- The log entries by number. -/
def entriesKey : String := "byUid"

/-! ### Paths -/

variable (l : Layout)

/-- The path of a device. -/
def device (name : String) : List String := l.treePath ++ [name]

/-- The path of a vector. -/
def vector (device name : String) : List String := l.treePath ++ [device, name]

/-- The path of a member. -/
def member (device name member : String) : List String :=
  l.vector device name ++ [membersKey, member]

/-- The path of a log entry. -/
def logEntry (uid : Nat) : List String := l.messagesPath ++ [entriesKey, toString uid]

end Layout

end Observatory
