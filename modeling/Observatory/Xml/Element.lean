import Observatory.Xml.Reference
import Observatory.Xml.Token

/-!
# Elements

A document is one element, with comments and processing instructions around it.  Names may be
qualified by the namespaces that the element and those around it declare.

* `Xml.Element`, `Xml.Content`: the trees.
* `Xml.Element.ofText?`: the element that a document is.
* `Xml.Element.attribute?`, `Xml.Element.leadingText`: what an element holds.
-/

namespace Observatory

namespace Xml

/-- An attribute: the namespace of its name, if that is qualified, its name and its value. -/
structure Attribute where
  space : Option String
  name : String
  value : String
  deriving DecidableEq, Repr

mutual

/-- An element; of its name only the part behind the colon matters. -/
inductive Element where
  | mk (name : String) (attributes : List Attribute) (children : List Content)

/-- What an element holds. -/
inductive Content where
  | element (e : Element)
  | text (cs : List Char)
  /-- A comment or a processing instruction. -/
  | aside

end

namespace Element

/-! ### Parts -/

/-- The name without its qualifier. -/
def name : Element → String
  | mk n _ _ => n

/-- The attributes in the order of the document. -/
def attributes : Element → List Attribute
  | mk _ as _ => as

/-- What the element holds, in the order of the document. -/
def children : Element → List Content
  | mk _ _ cs => cs

/-- The value of an attribute without a qualifier. -/
def attribute? (e : Element) (name : String) : Option String :=
  (e.attributes.find? fun a => a.space.isNone && a.name = name).map Attribute.value

/-- The elements in an element. -/
def elements (e : Element) : List Element :=
  e.children.filterMap fun
    | .element child => some child
    | _ => none

/-- The text at the head of an element, empty when the element begins with something else. -/
def leadingText (e : Element) : String :=
  match e.children with
  | .text cs :: _ => String.ofList cs
  | _ => ""

end Element

/-! ### Namespaces -/

/-- The namespace of names with the qualifier `xml`. -/
def xmlSpace : String := "http://www.w3.org/XML/1998/namespace"

/-- The namespace of declarations. -/
def declarationSpace : String := "http://www.w3.org/2000/xmlns/"

/-- Declared namespaces by qualifier, the default one under the empty qualifier; of two with
    one qualifier the first counts. -/
abbrev Scope := List (String × String)

/-- The namespace of a qualifier. -/
def Scope.find? (s : Scope) (qualifier : String) : Option String :=
  (List.find? (fun p => p.1 = qualifier) s).map Prod.snd

/-- The declarations of a tag and its other attributes, their values read. -/
structure TagFacts where
  declared : Scope := []
  others : List (QName × String) := []

/-- Add a declaration behind the others. -/
def TagFacts.declare (facts : TagFacts) (qualifier value : String) : TagFacts :=
  { facts with declared := facts.declared ++ [(qualifier, value)] }

/-- Add the next attribute of a tag.  The qualifier `xml` stands for its own namespace and for
    no other, and no qualifier stands for the namespace of declarations.  A tag declares a
    qualifier once, but the default namespace any number of times. -/
def TagFacts.add? (facts : TagFacts) (a : WrittenAttribute) : Option TagFacts := do
  let value := String.ofList (← attributeValue? a.value)
  if a.name.qualifier = "xmlns" then
    if value = declarationSpace then none
    else if a.name.name = "xml" then (if value = xmlSpace then some facts else none)
    else if value = xmlSpace then none
    else if (facts.declared.find? a.name.name).isSome then none
    else some (facts.declare a.name.name value)
  else if a.name.name = "xmlns" then
    if value = declarationSpace || value = xmlSpace then none else some (facts.declare "" value)
  else some { facts with others := facts.others ++ [(a.name, value)] }

/-- An attribute with its namespace. -/
def resolveAttribute? (scope : Scope) (name : QName) (value : String) : Option Attribute :=
  if name.qualifier = "" then some ⟨none, name.name, value⟩
  else if name.qualifier = "xml" then some ⟨some xmlSpace, name.name, value⟩
  else (scope.find? name.qualifier).map fun space => ⟨some space, name.name, value⟩

/-- The attributes with their namespaces, no two of one name. -/
def resolveAttributes? (scope : Scope) (others : List (QName × String)) :
    Option (List Attribute) :=
  others.foldlM (fun (done : List Attribute) (p : QName × String) => do
    let a ← resolveAttribute? scope p.1 p.2
    if done.any fun b => b.space = a.space && b.name = a.name then none
    else some (done ++ [a])) []

/-- The attributes of a tag and the namespaces in force inside of its element. -/
def openTag? (outer : Scope) (name : QName) (written : List WrittenAttribute) :
    Option (List Attribute × Scope) := do
  if name.qualifier = "xmlns" then none
  else
    let facts ← written.foldlM TagFacts.add? {}
    let scope := facts.declared ++ outer
    let attributes ← resolveAttributes? scope facts.others
    if name.qualifier = "" || (scope.find? name.qualifier).isSome then some (attributes, scope)
    else none

/-! ### Trees -/

/-- An element whose end was not read yet; its children, last one first. -/
structure OpenElement where
  name : QName
  attributes : List Attribute
  scope : Scope
  children : List Content

/-- The element when its end is read. -/
def OpenElement.toElement (o : OpenElement) : Element :=
  .mk o.name.name o.attributes o.children.reverse

/-- Add a child. -/
def OpenElement.push (o : OpenElement) (child : Content) : OpenElement :=
  { o with children := child :: o.children }

/-- Add text, which joins the text before it. -/
def OpenElement.pushText (o : OpenElement) (cs : List Char) : OpenElement :=
  match o.children with
  | .text before :: others => { o with children := .text (before ++ cs) :: others }
  | _ => o.push (.text cs)

/-- A document that is read: the open elements, innermost first, and the element of the
    document when its end was read. -/
structure Partial where
  stack : List OpenElement := []
  root : Option Element := none

namespace Partial

/-- Add an element that is complete. -/
def close (p : Partial) (e : Element) (outer : List OpenElement) : Partial :=
  match outer with
  | [] => { p with stack := [], root := some e }
  | o :: rest => { p with stack := o.push (.element e) :: rest }

/-- Read one more token. -/
def step? (p : Partial) : Token → Option Partial
  | .opening name written selfClosing => do
    if p.stack.isEmpty && p.root.isSome then none
    else
      let outer := (p.stack.head?.map OpenElement.scope).getD []
      let (attributes, scope) ← openTag? outer name written
      let o : OpenElement := ⟨name, attributes, scope, []⟩
      if selfClosing then some (p.close o.toElement p.stack)
      else some { p with stack := o :: p.stack }
  | .closing name =>
    match p.stack with
    | [] => none
    | o :: outer => if o.name = name then some (p.close o.toElement outer) else none
  | .text cs =>
    match p.stack with
    | [] => if cs.all isSpace then some p else none
    | o :: outer => (textValue? cs).map fun cs => { p with stack := o.pushText cs :: outer }
  | .section cs =>
    match p.stack with
    | [] => none
    | o :: outer => some { p with stack := o.pushText (sectionValue cs) :: outer }
  | .aside =>
    match p.stack with
    | [] => some p
    | o :: outer => some { p with stack := o.push .aside :: outer }

end Partial

/-- The element that some tokens are. -/
def Element.ofTokens? (tokens : List Token) : Option Element := do
  let p ← tokens.foldlM Partial.step? {}
  if p.stack.isEmpty then p.root else none

/-- The element that a document is; nothing when the text is not well-formed. -/
def Element.ofText? (text : String) : Option Element :=
  (Token.ofDocument? text.toList).bind Element.ofTokens?

end Xml

end Observatory
