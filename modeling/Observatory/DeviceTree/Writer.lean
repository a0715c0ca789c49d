import Observatory.DeviceTree.Layout
import Observatory.Indi.Message
import Observatory.Store.Basic

/-!
# Writing the device tree

A writer turns the messages of a server into changes of the store.  Updates of things that were
not defined are passed over.  Words for the log become numbered entries, of which the latest
are kept.

* `TreeWriter`: the layout, and the numbers of the entries in the log.
* `TreeWriter.apply`: write one message.
* `TreeWriter.clear`, `TreeWriter.markBusy`: what a connection writes on its own.
-/

namespace Observatory

/-- How a sequence of writes ended: the error of the first that was refused, and the store after
    everything before it. -/
abbrev Written := Except StoreError Unit × Store

namespace Written

/-- Nothing written yet. -/
def start (s : Store) : Written := (.ok (), s)

/-- Go on unless a write was refused. -/
def andThen (w : Written) (f : Store → Written) : Written :=
  match w with
  | (.ok _, s) => f s
  | (.error e, s) => (.error e, s)

/-- Go on with each of some things in order. -/
def each {α : Type} (f : α → Store → Written) : List α → Store → Written
  | [], s => start s
  | a :: rest, s => (f a s).andThen (each f rest)

end Written

/-- Write a value. -/
def Store.put (s : Store) (path : List String) (value : Json) : Written :=
  let (result, s) := s.set path value
  (result.map fun _ => (), s)

/-- Erase a path, whether or not there is something. -/
def Store.drop (s : Store) (path : List String) : Written :=
  let (result, s) := s.remove path
  (result.map fun _ => (), s)

/-- The writer of a device tree: the number of the next log entry, and the numbers of those in
    the log, oldest first. -/
structure TreeWriter where
  layout : Layout := {}
  nextUid : Nat := 0
  log : List Nat := []
  deriving Repr

namespace TreeWriter

/-! ### What is written -/

/-- A field if there is a text for it. -/
def optionalField (key : String) : Option String → List (String × Json)
  | some value => [(key, .str value)]
  | none => []

/-- The fields of some attributes. -/
def attributeFields (attributes : Dict String) : List (String × Json) :=
  attributes.map fun p => (Layout.fieldKey p.1, .str p.2)

/-- The object of a member. -/
def memberObject (m : Member) : Json :=
  .obj (Dict.ofPairs ([(Layout.valueKey, Json.str m.value), (Layout.nameKey, Json.str m.name)] ++
    attributeFields m.attributes))

/-- The object of a vector.  An attribute takes the place of a fact with the same key. -/
def vectorObject (d : Definition) (revision : Nat) : Json :=
  .obj (Dict.ofPairs (
    [(Layout.kindKey, Json.str d.kind.name), (Layout.stateKey, Json.str d.state.name),
      (Layout.revisionKey, Json.nat revision)] ++
    optionalField Layout.timestampKey d.timestamp ++ attributeFields d.attributes ++
    [(Layout.membersKey, .obj (Dict.ofPairs (d.members.map fun m => (m.name, memberObject m)))),
      (Layout.memberNamesKey, .arr (d.members.map fun m => .str m.name))]))

/-- The object of a log entry. -/
def logObject (device timestamp : Option String) (words : String) : Json :=
  .obj (Dict.ofPairs (optionalField Layout.deviceKey device ++
    optionalField Layout.timestampKey timestamp ++ [(Layout.messageKey, Json.str words)]))

/-! ### Vectors -/

/-- Give a thing a new revision. -/
def revise (path : List String) (s : Store) : Written :=
  let (revision, s) := s.draw
  s.put (path ++ [Layout.revisionKey]) (.nat revision)

/-- Write the vector of a definition. -/
def define (l : Layout) (d : Definition) (s : Store) : Written :=
  let (revision, s) := s.draw
  s.put (l.vector d.device d.name) (vectorObject d revision)

/-- Write some fields of a thing. -/
def putFields (path : List String) (fields : List (String × Json)) (s : Store) : Written :=
  Written.each (fun p s => s.put (path ++ [p.1]) p.2) fields s

/-- Write the value of a member, if the member is there. -/
def updateMember (l : Layout) (device name : String) (m : Member) (s : Store) : Written :=
  let path := l.member device name m.name
  if s.contains path then s.put (path ++ [Layout.valueKey]) (.str m.value) else .start s

/-- The facts of a vector that an update changes. -/
def updateFields (u : Update) : List (String × Json) :=
  optionalField Layout.stateKey (u.state.map VectorState.name) ++
    optionalField Layout.timestampKey u.timestamp ++ attributeFields u.attributes

/-- Write an update, if its vector is there. -/
def update (l : Layout) (u : Update) (s : Store) : Written :=
  let path := l.vector u.device u.name
  if s.contains path then
    ((putFields path (updateFields u) s).andThen
      (Written.each (updateMember l u.device u.name) u.members)).andThen (revise path)
  else .start s

/-- Erase a vector or a device. -/
def delete (l : Layout) (d : Deletion) (s : Store) : Written :=
  match d.name with
  | some name => s.drop (l.vector d.device name)
  | none => s.drop (l.device d.device)

/-- Erase every device. -/
def clear (l : Layout) (s : Store) : Written := s.put l.treePath .emptyObject

/-- Mark a vector as busy, if it is there. -/
def markBusy (l : Layout) (device vector : String) (s : Store) : Written :=
  let path := l.vector device vector
  if s.contains path then
    (s.put (path ++ [Layout.stateKey]) (.str VectorState.busy.name)).andThen (revise path)
  else .start s

/-! ### The log -/

/-- Drop the oldest entries of a log while there are too many. -/
def trim (l : Layout) : List Nat → Store → List Nat × Written
  | [], s => ([], .start s)
  | uid :: rest, s =>
    if rest.length < l.maxMessages then (uid :: rest, .start s)
    else
      match s.drop (l.logEntry uid) with
      | (.ok _, s) => trim l rest s
      | (.error e, s) => (rest, (.error e, s))

/-- Write an entry of the log. -/
def appendLog (w : TreeWriter) (device timestamp : Option String) (words : String) (s : Store) :
    TreeWriter × Written :=
  let uid := w.nextUid
  let w := { w with nextUid := uid + 1 }
  match s.put (w.layout.logEntry uid) (logObject device timestamp words) with
  | (.error e, s) => (w, (.error e, s))
  | (.ok _, s) =>
    let (log, written) := trim w.layout (w.log ++ [uid]) s
    ({ w with log }, written)

/-! ### Messages -/

/-- Write what a message says about devices. -/
def project (l : Layout) : Message → Store → Written
  | .define d, s => define l d s
  | .update u, s => update l u s
  | .delete d, s => delete l d s
  | .notice _, s => .start s

/-- Write a message: its words for the log first. -/
def apply (w : TreeWriter) (m : Message) (s : Store) : TreeWriter × Written :=
  match m.logText? with
  | none => (w, project w.layout m s)
  | some words =>
    let (w, written) := w.appendLog m.device? m.timestamp? words s
    (w, written.andThen (project w.layout m))

end TreeWriter

end Observatory
