import Observatory.Indi.Vector
import Observatory.Xml.Reference

/-!
# Commands to a server

* `Command`: new values for the members of a vector.
* `Command.toXml`: a command as it is sent.
* `requestProperties`: the request for all definitions.
-/

namespace Observatory

/-- New values for members of a vector, in the order in which they are sent. -/
structure Command where
  kind : VectorKind
  device : String
  name : String
  members : List (String × String)
  deriving DecidableEq, Repr

/-- The version of the protocol that is spoken. -/
def protocolVersion : String := "1.7"

/-- A text that holds no markup. -/
def escapeText (text : String) : String := String.ofList (Xml.escape text.toList)

/-- An attribute of a tag, with the space before it. -/
def writeAttribute (name value : String) : String :=
  " " ++ name ++ "=\"" ++ escapeText value ++ "\""

namespace Command

/-- One member on a line of its own. -/
def memberLine (kind : VectorKind) (member : String × String) : String :=
  let tag := "one" ++ kind.name
  "  <" ++ tag ++ writeAttribute "name" member.1 ++ ">" ++ escapeText member.2 ++
    "</" ++ tag ++ ">\n"

/-- The element that is sent. -/
def toXml (c : Command) : String :=
  let tag := "new" ++ c.kind.name ++ "Vector"
  "<" ++ tag ++ writeAttribute "device" c.device ++ writeAttribute "name" c.name ++ ">\n" ++
    String.join (c.members.map (memberLine c.kind)) ++ "</" ++ tag ++ ">\n"

end Command

/-- The request for the definitions of all vectors, of one device or of every one. -/
def requestProperties (device : Option String) : String :=
  "<getProperties" ++ writeAttribute "version" protocolVersion ++
    (match device with
      | some d => writeAttribute "device" d
      | none => "") ++ "/>\n"

end Observatory
