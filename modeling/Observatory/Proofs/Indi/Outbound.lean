import Observatory.Indi.Command
import Observatory.Proofs.Indi.Stream
import Observatory.Proofs.Xml.Escape

/-!
# Commands on their way out

A command is written with texts of any kind in it.  However these look, the command is one element:
its tags are those that were meant, and a server that frames it finds one message.

* `not_mem_encodeText_escapeText`: an escaped text holds neither brackets nor quotes;
* `Tag.all`, `XmlStream.Content.markup`, `Tag.all_content`: the markup in some bytes, and that of
  what is well-formed;
* `Command.element`, `Command.bytes_element`: the element that a command is;
* `Command.framed_whole`: a command is framed as one message, with its own tags and no others.
-/

namespace Observatory

/-! ### Escaped texts -/

/-- The UTF-8 bytes of an escaped text hold no angle bracket and no quote.  Such a byte could only
    come from that character, and `escape` writes none. -/
theorem not_mem_encodeText_escapeText {c : Char} (h : c ∈ ['<', '>', '"', '\''])
    (text : String) : c.toNat.toUInt8 ∉ Utf8.encodeText (escapeText text) := by
  have hascii : c.toNat < 0x80 := by
    simp only [List.mem_cons, List.not_mem_nil, or_false] at h
    rcases h with rfl | rfl | rfl | rfl <;> decide
  intro hmem
  have hchar := Utf8.mem_of_mem_encodeText hascii hmem
  rw [escapeText, String.toList_ofList] at hchar
  exact Xml.not_mem_escape h _ hchar

/-- A text of ASCII characters is encoded as one byte for each. -/
theorem encodeText_ascii {text : String} (h : text.toList.all fun c => c.toNat < 0x80) :
    Utf8.encodeText text = asciiBytes text.toList := by
  rw [Utf8.encodeText_eq, asciiBytes]
  generalize text.toList = cs at h
  induction cs with
  | nil => rfl
  | cons c cs ih =>
    rw [List.all_cons, Bool.and_eq_true] at h
    rw [List.flatMap_cons, Utf8.encodeChar_ascii (of_decide_eq_true h.1), ih h.2]
    rfl

/-! ### The markup in some bytes -/

/-- All markup in some bytes, each piece with its kind, as `Tag.next?` finds it from the front to
    the end. -/
def Tag.all (bytes : List UInt8) : List (Markup × List UInt8) :=
  match _h : next? bytes with
  | none => []
  | some t => (t.kind, t.body) :: all t.rest
  termination_by bytes.length
  decreasing_by exact length_next? _h

namespace XmlStream

mutual

/-- The pieces of markup in the text of an element. -/
def Element.markup : Element → List (Markup × List UInt8)
  | .empty tag => [(.selfClosing, tag.closed)]
  | .full tag inside after =>
    (.openTag, tag.opening) :: (inside.markup ++ [(.closeTag, tag.closing after)])

/-- The pieces of markup in the content of an element, text between them left out. -/
def Content.markup : Content → List (Markup × List UInt8)
  | .nothing => []
  | .filler (.text _) rest => rest.markup
  | .filler (.skipped s) rest => (.skip, s.bytes) :: rest.markup
  | .element e rest => e.markup ++ rest.markup

end

end XmlStream

namespace Tag

open XmlStream

theorem all_of_none {bytes : List UInt8} (h : next? bytes = none) : all bytes = [] := by
  rw [all]
  split
  · rfl
  · next t ht => rw [h] at ht; cases ht

/-- `Tag.all` is the first piece of markup, followed by `Tag.all` of what is behind it. -/
theorem all_of_some {bytes : List UInt8} {t : Tag} (h : next? bytes = some t) :
    all bytes = (t.kind, t.body) :: all t.rest := by
  rw [all]
  split
  · next hnone => rw [h] at hnone; cases hnone
  · next t' ht => rw [Option.some.inj (h.symm.trans ht)]

/-- Text in front of markup does not change `Tag.all`. -/
theorem all_text (run : Run) (rest : List UInt8) : all (run.bytes ++ rest) = all rest := by
  have hnext := next?_text run.plain rest
  cases h : next? rest with
  | none =>
    rw [h] at hnext
    rw [all_of_none h, all_of_none hnext]
  | some t =>
    rw [h] at hnext
    rw [all_of_some h, all_of_some hnext]

mutual

/-- The scanner finds exactly the markup of a well-formed element, and goes on behind it. -/
theorem all_element (e : Element) (rest : List UInt8) :
    all (e.bytes ++ rest) = e.markup ++ all rest := by
  match e with
  | .empty tag =>
    rw [Element.bytes, all_of_some (next?_closed tag rest)]
    rfl
  | .full tag inside after =>
    rw [Element.bytes, Element.markup, List.append_assoc, List.append_assoc,
      all_of_some (next?_opening tag _), all_content inside,
      all_of_some (next?_closing tag after rest), List.cons_append, List.append_assoc]
    rfl

/-- The scanner finds exactly the markup in the content of an element; proved together with
    `all_element` along the syntax. -/
theorem all_content (c : Content) (rest : List UInt8) :
    all (c.bytes ++ rest) = c.markup ++ all rest := by
  match c with
  | .nothing => rfl
  | .filler (.text run) content =>
    rw [Content.bytes, Content.markup, List.append_assoc, Filler.bytes, all_text,
      all_content content]
  | .filler (.skipped s) content =>
    rw [Content.bytes, Content.markup, List.append_assoc, Filler.bytes,
      all_of_some (next?_skipped s _), all_content content]
    rfl
  | .element e content =>
    rw [Content.bytes, Content.markup, List.append_assoc, all_element e, all_content content,
      List.append_assoc]

end

end Tag

/-! ### The element of a command -/

namespace Command

open XmlStream

/-- The `Name` of some ASCII characters, given that none of them ends a name. -/
def asciiName (c : Char) (cs : List Char) (h : (asciiBytes (c :: cs)).all (· ∉ nameEnds)) : Name :=
  ⟨c.toNat.toUInt8, asciiBytes cs, fun b hb => of_decide_eq_true (List.all_eq_true.1 h b hb)⟩

/-- The name of the element of a vector, such as `newTextVector`. -/
def vectorName (kind : VectorKind) : Name :=
  asciiName 'n' ("ew" ++ kind.name ++ "Vector").toList (by cases kind <;> decide)

/-- The name of the element of a member, such as `oneText`. -/
def memberName (kind : VectorKind) : Name :=
  asciiName 'o' ("ne" ++ kind.name).toList (by cases kind <;> decide)

theorem bytes_vectorName (kind : VectorKind) :
    (vectorName kind).bytes = Utf8.encodeText ("new" ++ kind.name ++ "Vector") := by
  rw [encodeText_ascii (by cases kind <;> decide)]
  cases kind <;> decide

theorem bytes_memberName (kind : VectorKind) :
    (memberName kind).bytes = Utf8.encodeText ("one" ++ kind.name) := by
  rw [encodeText_ascii (by cases kind <;> decide)]
  cases kind <;> decide

/-- An attribute in double quotes whose value is escaped.  Whatever the value was, the escaped one
    holds no quote, which is what `quoted` asks for. -/
def escapedAttribute (name : Name) (value : String) : Attribute where
  before := blank
  name := name
  beforeSign := noSpace
  afterSign := noSpace
  quote := 0x22
  value := Utf8.encodeText (escapeText value)
  quoting := by decide
  quoted := not_mem_encodeText_escapeText (c := '"') (by decide) value

/-- An escaped text between two tags.  Whatever it was, the escaped one holds no opener, which is
    what `plain` asks for. -/
def escapedRun (text : String) : Run where
  bytes := Utf8.encodeText (escapeText text)
  plain := not_mem_encodeText_escapeText (c := '<') (by decide) text

theorem opener_not_mem_lineEnd : Tag.opener ∉ asciiBytes ['\n'] := by decide

/-- The end of a line. -/
def lineEnd : Run := ⟨asciiBytes ['\n'], opener_not_mem_lineEnd⟩

/-- The indentation of a member. -/
def indentation : Run := ⟨asciiBytes [' ', ' '], by decide⟩

/-- The tag of a member. -/
def memberTag (kind : VectorKind) (name : String) : TagText :=
  ⟨memberName kind, [escapedAttribute (asciiName 'n' ['a', 'm', 'e'] (by decide)) name], noSpace⟩

/-- The tag of a vector. -/
def vectorTag (c : Command) : TagText :=
  ⟨vectorName c.kind,
    [escapedAttribute (asciiName 'd' ['e', 'v', 'i', 'c', 'e'] (by decide)) c.device,
      escapedAttribute (asciiName 'n' ['a', 'm', 'e'] (by decide)) c.name], noSpace⟩

/-- The element of a member. -/
def memberElement (kind : VectorKind) (m : String × String) : Element :=
  .full (memberTag kind m.1) (.filler (.text (escapedRun m.2)) .nothing) noSpace

/-- The lines of some members. -/
def memberLines (kind : VectorKind) : List (String × String) → Content
  | [] => .nothing
  | m :: members => .filler (.text indentation) (.element (memberElement kind m)
      (.filler (.text lineEnd) (memberLines kind members)))

/-- The element that a command is, as a term of the grammar that the framing theorem is about. -/
def element (c : Command) : Element :=
  .full (vectorTag c) (.filler (.text lineEnd) (memberLines c.kind c.members)) noSpace

/-! ### The text of a command -/

/-- The opening tag of a member. -/
def memberOpening (kind : VectorKind) (name : String) : String :=
  "<one" ++ kind.name ++ writeAttribute "name" name ++ ">"

/-- The closing tag of a member. -/
def memberClosing (kind : VectorKind) : String := "</one" ++ kind.name ++ ">"

/-- The opening tag of a vector. -/
def vectorOpening (c : Command) : String :=
  "<new" ++ c.kind.name ++ "Vector" ++ writeAttribute "device" c.device ++
    writeAttribute "name" c.name ++ ">"

/-- The closing tag of a vector. -/
def vectorClosing (c : Command) : String := "</new" ++ c.kind.name ++ "Vector>"

/-- The tags that a command is meant to have: between the two of the vector, the two of each member
    in their order. -/
def tags (c : Command) : List (Markup × String) :=
  (.openTag, c.vectorOpening) ::
    (c.members.flatMap (fun m =>
        [(.openTag, memberOpening c.kind m.1), (.closeTag, memberClosing c.kind)]) ++
      [(.closeTag, c.vectorClosing)])

/-- The line of a member is its indentation, its two tags with the escaped value between them, and
    the end of the line. -/
theorem memberLine_eq (kind : VectorKind) (m : String × String) : memberLine kind m =
    "  " ++ (memberOpening kind m.1 ++ escapeText m.2 ++ memberClosing kind) ++ "\n" := by
  have hindent : "  <" = "  " ++ "<" := by decide
  have hone : "<one" = "<" ++ "one" := by decide
  have hclose : "</one" = "</" ++ "one" := by decide
  have hend : ">\n" = ">" ++ "\n" := by decide
  rw [memberLine, memberOpening, memberClosing, hindent, hone, hclose, hend]
  simp only [String.append_assoc]

/-- The text of a command is its opening tag, a line for each member, and its closing tag. -/
theorem toXml_eq (c : Command) : c.toXml = c.vectorOpening ++ "\n" ++
    String.join (c.members.map (memberLine c.kind)) ++ c.vectorClosing ++ "\n" := by
  have hnew : "<new" = "<" ++ "new" := by decide
  have hclose : "</new" = "</" ++ "new" := by decide
  have hvector : "Vector>" = "Vector" ++ ">" := by decide
  have hend : ">\n" = ">" ++ "\n" := by decide
  rw [toXml, vectorOpening, vectorClosing, hnew, hclose, hvector, hend]
  simp only [String.append_assoc]

/-! ### The bytes of a command -/

/-- The bytes of an `escapedAttribute` are the text that `writeAttribute` writes. -/
theorem bytes_escapedAttribute {name : Name} {text : String}
    (h : name.bytes = Utf8.encodeText text) (value : String) :
    (escapedAttribute name value).bytes = Utf8.encodeText (writeAttribute text value) := by
  have hspace : Utf8.encodeText " " = asciiBytes [' '] := encodeText_ascii (by decide)
  have hsign : Utf8.encodeText "=\"" = asciiBytes ['='] ++ [0x22] := encodeText_ascii (by decide)
  have hquote : Utf8.encodeText "\"" = [0x22] := encodeText_ascii (by decide)
  rw [writeAttribute]
  simp only [Utf8.encodeText_append, hspace, hsign, hquote, ← h]
  simp [Attribute.bytes, escapedAttribute, blank, noSpace]

/-- The bytes of an opening tag, given the texts of its name and of its attributes. -/
theorem opening_eq {t : TagText} {text attributes : String}
    (hname : t.name.bytes = Utf8.encodeText text)
    (hattributes : t.attributes.flatMap Attribute.bytes = Utf8.encodeText attributes)
    (hafter : t.after = noSpace) :
    t.opening = Utf8.encodeText ("<" ++ text ++ attributes ++ ">") := by
  have hopen : Utf8.encodeText "<" = asciiBytes ['<'] := encodeText_ascii (by decide)
  have hclose : Utf8.encodeText ">" = asciiBytes ['>'] := encodeText_ascii (by decide)
  simp only [Utf8.encodeText_append, hopen, hclose, ← hname, ← hattributes]
  simp [TagText.opening, TagText.bytes, hafter, noSpace]

/-- The bytes of a closing tag, given the text of its name. -/
theorem closing_eq {t : TagText} {text : String} (hname : t.name.bytes = Utf8.encodeText text) :
    t.closing noSpace = Utf8.encodeText ("</" ++ text ++ ">") := by
  have hopen : Utf8.encodeText "</" = asciiBytes ['<', '/'] := encodeText_ascii (by decide)
  have hclose : Utf8.encodeText ">" = asciiBytes ['>'] := encodeText_ascii (by decide)
  simp only [Utf8.encodeText_append, hopen, hclose, ← hname]
  simp [TagText.closing, noSpace]

theorem bytes_device : (asciiName 'd' ['e', 'v', 'i', 'c', 'e'] (by decide)).bytes =
    Utf8.encodeText "device" := by
  rw [encodeText_ascii (by decide)]
  rfl

theorem bytes_name : (asciiName 'n' ['a', 'm', 'e'] (by decide)).bytes =
    Utf8.encodeText "name" := by
  rw [encodeText_ascii (by decide)]
  rfl

theorem opening_memberTag (kind : VectorKind) (name : String) :
    (memberTag kind name).opening = Utf8.encodeText (memberOpening kind name) := by
  have hone : "<one" = "<" ++ "one" := by decide
  have hattributes : (memberTag kind name).attributes.flatMap Attribute.bytes =
      Utf8.encodeText (writeAttribute "name" name) := by
    rw [memberTag, List.flatMap_singleton, bytes_escapedAttribute bytes_name]
  rw [opening_eq (bytes_memberName kind) hattributes rfl, memberOpening, hone]
  simp only [String.append_assoc]

theorem closing_memberTag (kind : VectorKind) (name : String) :
    (memberTag kind name).closing noSpace = Utf8.encodeText (memberClosing kind) := by
  have hone : "</one" = "</" ++ "one" := by decide
  rw [closing_eq (bytes_memberName kind), memberClosing, hone]
  simp only [String.append_assoc]

theorem opening_vectorTag (c : Command) :
    (vectorTag c).opening = Utf8.encodeText c.vectorOpening := by
  have hnew : "<new" = "<" ++ "new" := by decide
  have hattributes : (vectorTag c).attributes.flatMap Attribute.bytes =
      Utf8.encodeText (writeAttribute "device" c.device ++ writeAttribute "name" c.name) := by
    rw [vectorTag, List.flatMap_cons, List.flatMap_singleton, bytes_escapedAttribute bytes_device,
      bytes_escapedAttribute bytes_name, Utf8.encodeText_append]
  rw [opening_eq (bytes_vectorName c.kind) hattributes rfl, vectorOpening, hnew]
  simp only [String.append_assoc]

theorem closing_vectorTag (c : Command) :
    (vectorTag c).closing noSpace = Utf8.encodeText c.vectorClosing := by
  have hnew : "</new" = "</" ++ "new" := by decide
  have hvector : "Vector>" = "Vector" ++ ">" := by decide
  rw [closing_eq (bytes_vectorName c.kind), vectorClosing, hnew, hvector]
  simp only [String.append_assoc]

/-- The element of a member has the bytes of the two tags and the escaped value. -/
theorem bytes_memberElement (kind : VectorKind) (m : String × String) :
    (memberElement kind m).bytes =
      Utf8.encodeText (memberOpening kind m.1 ++ escapeText m.2 ++ memberClosing kind) := by
  rw [memberElement, Element.bytes, opening_memberTag, closing_memberTag, Utf8.encodeText_append,
    Utf8.encodeText_append, Content.bytes, Content.bytes, List.append_nil]
  rfl

theorem bytes_lineEnd : lineEnd.bytes = Utf8.encodeText "\n" := by
  rw [encodeText_ascii (by decide)]
  rfl

theorem bytes_indentation : indentation.bytes = Utf8.encodeText "  " := by
  rw [encodeText_ascii (by decide)]
  rfl

theorem bytes_memberLines (kind : VectorKind) (members : List (String × String)) :
    (memberLines kind members).bytes =
      Utf8.encodeText (String.join (members.map (memberLine kind))) := by
  induction members with
  | nil =>
    rw [List.map_nil, String.join_nil, encodeText_ascii (by decide)]
    rfl
  | cons m members ih =>
    rw [List.map_cons, String.join_cons, Utf8.encodeText_append, memberLine_eq, ← ih,
      Utf8.encodeText_append, Utf8.encodeText_append "  ", ← bytes_memberElement, ← bytes_lineEnd,
      ← bytes_indentation, memberLines, Content.bytes, Content.bytes, Content.bytes]
    simp [Filler.bytes]

/-- The element of a command has the bytes of `toXml`, but for the line feed at the end. -/
theorem bytes_element (c : Command) : (element c).bytes = Utf8.encodeText
    (c.vectorOpening ++ "\n" ++ String.join (c.members.map (memberLine c.kind)) ++
      c.vectorClosing) := by
  rw [element, Element.bytes, opening_vectorTag, closing_vectorTag, Content.bytes,
    bytes_memberLines, Filler.bytes, bytes_lineEnd]
  simp only [Utf8.encodeText_append, List.append_assoc]

/-- The markup of the element of a command is the list `tags`, whatever the names and values
    are. -/
theorem markup_element (c : Command) :
    (element c).markup = c.tags.map fun t => (t.1, Utf8.encodeText t.2) := by
  have hlines : ∀ members, (memberLines c.kind members).markup =
      (members.flatMap fun m => [(Markup.openTag, memberOpening c.kind m.1),
        (.closeTag, memberClosing c.kind)]).map fun t => (t.1, Utf8.encodeText t.2) := by
    intro members
    induction members with
    | nil => rfl
    | cons m members ih =>
      rw [memberLines, Content.markup, Content.markup, Content.markup, ih, memberElement,
        Element.markup, opening_memberTag, closing_memberTag]
      simp [Content.markup]
  rw [element, Element.markup, opening_vectorTag, closing_vectorTag, Content.markup, hlines, tags]
  simp

/-- **A command is framed whole.** However the bytes of a command are cut, a framer of bare
    elements with room for them drains after every chunk and hands out one message, the command
    without its last line feed, and holds nothing then.  The markup in that message is the opening
    and the closing tag of the vector and those of the members between them, so no name or value
    adds a tag or ends one. -/
theorem framed_whole (c : Command) (limit : Nat)
    (hlimit : (Utf8.encodeText c.toXml).length ≤ limit) :
    ∃ text, c.toXml = text ++ "\n" ∧
      (∀ chunks : List (List UInt8), chunks.flatten = Utf8.encodeText c.toXml →
        (∃ out f, (Framer.start 0 limit).Reads chunks out f) ∧
          ∀ out f, (Framer.start 0 limit).Reads chunks out f → out = [.ok text] ∧ f.buffered = 0) ∧
      Tag.all (Utf8.encodeText text) = c.tags.map fun t => (t.1, Utf8.encodeText t.2) := by
  refine ⟨_, c.toXml_eq, fun chunks hchunks => ?_, ?_⟩
  · -- The stream has no root element, and the end of the line is all that follows the message.
    let stream : XmlStream := ⟨[], [([], element c)], [.text lineEnd]⟩
    have hbytes : Utf8.encodeText c.toXml = stream.bytes := by
      rw [toXml_eq, Utf8.encodeText_append, ← bytes_element, ← bytes_lineEnd]
      simp [stream, XmlStream.bytes, rootBytes, messageBytes, fill, Filler.bytes]
    obtain ⟨hreads, hall⟩ := Framer.reads_stream stream limit chunks (hchunks.trans hbytes)
      (hbytes ▸ hlimit)
    refine ⟨hreads, fun out f hf => ?_⟩
    obtain ⟨-, hempty, hout⟩ := hall out f hf
    exact ⟨hout [_] (congrArg (fun b => [b]) (bytes_element c).symm), hempty⟩
  · have hall := Tag.all_element (element c) []
    have hnothing : Tag.all [] = [] := Tag.all_of_none rfl
    rw [List.append_nil, hnothing, List.append_nil] at hall
    rw [← bytes_element, hall, markup_element]

/-- A command whose names and values hold tags, comments, sections and quotes. -/
def hostile : Command where
  kind := .text
  device := "D\"/><a b='"
  name := "<!-- ]]>"
  members := [("</oneText>", "</newTextVector><!--"), ("'><![CDATA[", "]]>\"/")]

/-- `framed_whole` on the command `hostile`, in which every text looks like the end of
    something. -/
theorem framed_whole_hostile : (Utf8.encodeText hostile.toXml).length ≤ 400 ∧
    ∃ text, hostile.toXml = text ++ "\n" ∧
      (∀ chunks : List (List UInt8), chunks.flatten = Utf8.encodeText hostile.toXml →
        (∃ out f, (Framer.start 0 400).Reads chunks out f) ∧
          ∀ out f, (Framer.start 0 400).Reads chunks out f → out = [.ok text] ∧ f.buffered = 0) ∧
      Tag.all (Utf8.encodeText text) = hostile.tags.map fun t => (t.1, Utf8.encodeText t.2) :=
  have hroom : (Utf8.encodeText hostile.toXml).length ≤ 400 := by decide +kernel
  ⟨hroom, framed_whole hostile 400 hroom⟩

end Command

end Observatory
