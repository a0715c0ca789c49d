import Observatory.Dict
import Observatory.Indi.Vector
import Observatory.Text.Blank
import Observatory.Xml.Element

/-!
# Messages from a server

A server defines vectors, sets their members and states, deletes them, and sends words for the
log.  Elements of other kinds are not for us.

* `Message`: what a server says.
* `Message.ofElement`, `Message.ofText`: the message that an element, a text, is.
* `Message.device?`, `Message.logText?`: what all messages have.
-/

namespace Observatory

/-- A member of a vector: its name, its value, and the other attributes of its element. -/
structure Member where
  name : String
  value : String
  attributes : Dict String
  deriving DecidableEq, Repr

/-- A vector is there, with these members. -/
structure Definition where
  kind : VectorKind
  device : String
  name : String
  state : VectorState
  timestamp : Option String
  message : Option String
  attributes : Dict String
  members : List Member
  deriving DecidableEq, Repr

/-- A vector has new values for some members, or a new state. -/
structure Update where
  kind : VectorKind
  device : String
  name : String
  state : Option VectorState
  timestamp : Option String
  message : Option String
  attributes : Dict String
  members : List Member
  deriving DecidableEq, Repr

/-- A vector is gone; without a name, the whole device. -/
structure Deletion where
  device : String
  name : Option String
  timestamp : Option String
  message : Option String
  deriving DecidableEq, Repr

/-- Words for the log, about a device or about none. -/
structure Notice where
  device : Option String
  timestamp : Option String
  message : String
  deriving DecidableEq, Repr

/-- What a server says. -/
inductive Message where
  | define (d : Definition)
  | update (u : Update)
  | delete (d : Deletion)
  | notice (n : Notice)
  deriving DecidableEq, Repr

namespace Message

/-! ### Parts -/

/-- The device that a message is about. -/
def device? : Message → Option String
  | define d => some d.device
  | update u => some u.device
  | delete d => some d.device
  | notice n => n.device

/-- The time of a message, in the words of the server. -/
def timestamp? : Message → Option String
  | define d => d.timestamp
  | update u => u.timestamp
  | delete d => d.timestamp
  | notice n => n.timestamp

/-- The words for the log that come with a message. -/
def logText? : Message → Option String
  | define d => d.message
  | update u => u.message
  | delete d => d.message
  | notice n => some n.message

/-! ### Reading -/

/-- The attributes of vectors that have a place of their own. -/
def reserved : List String := ["device", "name", "state", "timestamp", "message"]

/-- An attribute that an element must have. -/
def required (e : Xml.Element) (field : String) : Except ProtocolError String :=
  match e.attribute? field with
  | some value => .ok value
  | none => .error (.missing e.name field)

/-- The attributes of an element without some names; of two with one name the later counts. -/
def otherAttributes (names : List String) (e : Xml.Element) : Dict String :=
  Dict.ofPairs ((e.attributes.filter fun a => a.name ∉ names).map fun a => (a.name, a.value))

/-- The member that an element is. -/
def memberOf (e : Xml.Element) : Except ProtocolError Member := do
  let name ← required e "name"
  return { name, value := Blank.trim e.leadingText, attributes := otherAttributes ["name"] e }

/-- The members in an element: the elements with a tag. -/
def membersOf (tag : String) (e : Xml.Element) : Except ProtocolError (List Member) :=
  (e.elements.filter fun child => child.name = tag).mapM memberOf

/-- The definition that an element is. -/
def definitionOf (kind : VectorKind) (e : Xml.Element) : Except ProtocolError Definition := do
  let device ← required e "device"
  let name ← required e "name"
  let state ← VectorState.parse (← required e "state")
  let members ← membersOf ("def" ++ kind.name) e
  return { kind, device, name, state, members, timestamp := e.attribute? "timestamp",
           message := e.attribute? "message", attributes := otherAttributes reserved e }

/-- The update that an element is. -/
def updateOf (kind : VectorKind) (e : Xml.Element) : Except ProtocolError Update := do
  let device ← required e "device"
  let name ← required e "name"
  let state ← (e.attribute? "state").mapM VectorState.parse
  let members ← membersOf ("one" ++ kind.name) e
  return { kind, device, name, state, members, timestamp := e.attribute? "timestamp",
           message := e.attribute? "message", attributes := otherAttributes reserved e }

/-- The deletion that an element is. -/
def deletionOf (e : Xml.Element) : Except ProtocolError Deletion := do
  let device ← required e "device"
  return { device, name := e.attribute? "name", timestamp := e.attribute? "timestamp",
           message := e.attribute? "message" }

/-- The notice that an element is. -/
def noticeOf (e : Xml.Element) : Notice :=
  { device := e.attribute? "device", timestamp := e.attribute? "timestamp",
    message := (e.attribute? "message").getD "" }

/-- The message that an element is, if it is for us. -/
def ofElement (e : Xml.Element) : Except ProtocolError (Option Message) :=
  match VectorKind.ofTag? "def" "Vector" e.name, VectorKind.ofTag? "set" "Vector" e.name with
  | some kind, _ => (definitionOf kind e).map fun d => some (define d)
  | none, some kind => (updateOf kind e).map fun u => some (update u)
  | none, none =>
    if e.name = "delProperty" then (deletionOf e).map fun d => some (delete d)
    else if e.name = "message" then .ok (some (notice (noticeOf e)))
    else .ok none

/-- The message that a text is, if it is for us. -/
def ofText (text : String) : Except ProtocolError (Option Message) :=
  match Xml.Element.ofText? text with
  | some e => ofElement e
  | none => .error .notWellFormed

end Message

end Observatory
