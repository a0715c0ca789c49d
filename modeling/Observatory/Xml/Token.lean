import Observatory.Xml.Character

/-!
# Tokens of XML

* `Xml.Token`: tags, text, CDATA sections, comments and processing instructions.
* `Xml.Token.next?`: the token at the head of a text.
* `Xml.Token.ofDocument?`: the tokens of a document behind its declaration.
-/

namespace Observatory

namespace Xml

/-- A name with the qualifier before its colon, empty when there is none. -/
structure QName where
  qualifier : String
  name : String
  deriving DecidableEq, Repr

/-- An attribute as it is written: its value still has its references. -/
structure WrittenAttribute where
  name : QName
  value : List Char
  deriving DecidableEq, Repr

/-- A token; text still has its references. -/
inductive Token where
  | opening (name : QName) (attributes : List WrittenAttribute) (selfClosing : Bool)
  | closing (name : QName)
  | text (cs : List Char)
  | section (cs : List Char)
  /-- A comment or a processing instruction. -/
  | aside
  deriving Repr

namespace Token

/-! ### Pieces of tokens -/

/-- What stands before the first occurrence of `close`, and what follows it. -/
def splitBefore? (close : List Char) : List Char → Option (List Char × List Char)
  | [] => if close.isEmpty then some ([], []) else none
  | c :: cs =>
    if close.isPrefixOf (c :: cs) then some ([], (c :: cs).drop close.length)
    else (splitBefore? close cs).map fun p => (c :: p.1, p.2)

/-- Whether `part` occurs in a text. -/
def occursIn (part cs : List Char) : Bool := (splitBefore? part cs).isSome

/-- Whether some characters are a name without a colon. -/
def isName : List Char → Bool
  | [] => false
  | c :: _ => isNameStart c

/-- The name that some characters are: what may stand in a name, with one colon at most. -/
def qname? (cs : List Char) : Option QName :=
  match cs.span (· ≠ ':') with
  | (name, []) => if isName name then some ⟨"", String.ofList name⟩ else none
  | (qualifier, _ :: name) =>
    if (qualifier.isEmpty || isName qualifier) && isName name && !name.contains ':' then
      some ⟨String.ofList qualifier, String.ofList name⟩
    else none

/-- Whether a character may stand in a name with its colon. -/
def isQNamePart (c : Char) : Bool := c = ':' || isNamePart c

/-- The name at the head of a text. -/
def readName? (cs : List Char) : Option (QName × List Char) :=
  (qname? (cs.takeWhile isQNamePart)).map fun name => (name, cs.dropWhile isQNamePart)

/-- What follows a character at the head of a text, with spaces around it. -/
def afterSign? (sign : Char) (cs : List Char) : Option (List Char) :=
  match skipSpaces cs with
  | c :: rest => if c = sign then some (skipSpaces rest) else none
  | [] => none

/-- The value in quotes at the head of a text, which holds no opening bracket. -/
def readValue? : List Char → Option (List Char × List Char)
  | [] => none
  | quote :: cs =>
    if quote = '"' || quote = '\'' then
      let inside := fun c => c ≠ quote && c ≠ '<'
      match cs.dropWhile inside with
      | c :: rest => if c = quote then some (cs.takeWhile inside, rest) else none
      | [] => none
    else none

/-- The attribute at the head of a text. -/
def readAttribute? (cs : List Char) : Option (WrittenAttribute × List Char) := do
  let (name, rest) ← readName? cs
  let rest ← afterSign? '=' rest
  let (value, rest) ← readValue? rest
  some (⟨name, value⟩, rest)

/-- The attributes of a tag up to its end, whether the tag closes itself, and what follows it.
    Spaces stand before every attribute. -/
def readAttributes? (cs : List Char) : Option (List WrittenAttribute × Bool × List Char) :=
  match skipSpaces cs with
  | '/' :: '>' :: rest => some ([], true, rest)
  | '>' :: rest => some ([], false, rest)
  | head =>
    if (cs.head?.map isSpace).getD false then
      match readAttribute? head with
      | none => none
      | some (a, rest) =>
        if _h : rest.length < cs.length then
          (readAttributes? rest).map fun p => (a :: p.1, p.2)
        else none
    else none
termination_by cs.length

/-- The name of a processing instruction, which may hold colons anywhere. -/
def isTarget : List Char → Bool
  | [] => false
  | c :: _ => c = ':' || isNameStart c

/-! ### Tokens -/

/-- What follows a comment, given what follows its opening.  There are no two dashes in a
    comment, and none before its end. -/
def readComment? (cs : List Char) : Option (List Char) := do
  let (words, rest) ← splitBefore? ['-', '-', '>'] cs
  if occursIn ['-', '-'] words || words.getLast? = some '-' then none else some rest

/-- What follows a processing instruction, given what follows its opening.  It must not be
    taken for a declaration. -/
def readInstruction? (cs : List Char) : Option (List Char) :=
  if ['x', 'm', 'l', ' '].isPrefixOf cs then none
  else if isTarget (cs.takeWhile isQNamePart) then
    (splitBefore? ['?', '>'] (cs.dropWhile isQNamePart)).map Prod.snd
  else none

/-- The closing tag at the head of a text, given what follows its opening. -/
def readClosing? (cs : List Char) : Option (Token × List Char) := do
  let (name, rest) ← readName? cs
  match skipSpaces rest with
  | '>' :: rest => some (.closing name, rest)
  | _ => none

/-- The opening tag at the head of a text, given what follows its opening. -/
def readOpening? (cs : List Char) : Option (Token × List Char) := do
  let (name, rest) ← readName? cs
  let (attributes, selfClosing, rest) ← readAttributes? rest
  some (.opening name attributes selfClosing, rest)

/-- The text up to the next bracket.  It does not hold the end of a section. -/
def readText? (cs : List Char) : Option (Token × List Char) :=
  let words := cs.takeWhile (· ≠ '<')
  if occursIn [']', ']', '>'] words then none else some (.text words, cs.dropWhile (· ≠ '<'))

/-- The token at the head of a text. -/
def next? : List Char → Option (Token × List Char)
  | '<' :: '!' :: '-' :: '-' :: rest => (readComment? rest).map (.aside, ·)
  | '<' :: '!' :: '[' :: 'C' :: 'D' :: 'A' :: 'T' :: 'A' :: '[' :: rest =>
    (splitBefore? [']', ']', '>'] rest).map fun p => (.section p.1, p.2)
  | '<' :: '?' :: rest => (readInstruction? rest).map (.aside, ·)
  | '<' :: '/' :: rest => readClosing? rest
  | '<' :: rest => readOpening? rest
  | cs => readText? cs

/-- The tokens of a text.  Every token uses up a part of it. -/
def scan? (cs : List Char) : Option (List Token) :=
  if cs.isEmpty then some []
  else
    match next? cs with
    | none => none
    | some (t, rest) =>
      if _h : rest.length < cs.length then (scan? rest).map (t :: ·) else none
termination_by cs.length

/-! ### Documents -/

/-- What follows the spaces at the head of a text; there are some, unless the declaration ends
    here. -/
def afterSpaces? (cs : List Char) : Option (List Char) :=
  if (cs.head?.map isSpace).getD false || ['?', '>'].isPrefixOf cs then some (skipSpaces cs)
  else none

/-- What follows an attribute of a declaration, if the attribute is there. -/
def afterOptional? (name cs : List Char) : Option (List Char) :=
  if name.isPrefixOf cs then (readAttribute? cs).map Prod.snd else some cs

/-- What follows a declaration, given what follows its opening: a version, then an encoding and
    a word on standing alone if they are given. -/
def readDeclaration? (cs : List Char) : Option (List Char) := do
  let cs := skipSpaces cs
  if ['v', 'e', 'r', 's', 'i', 'o', 'n'].isPrefixOf cs then
    let (_, cs) ← readAttribute? cs
    let cs ← afterSpaces? cs
    let cs ← if ['e', 'n', 'c', 'o', 'd', 'i', 'n', 'g'].isPrefixOf cs then
        (readAttribute? cs).bind fun p => afterSpaces? p.2
      else some cs
    let cs ← afterOptional? ['s', 't', 'a', 'n', 'd', 'a', 'l', 'o', 'n', 'e'] cs
    match skipSpaces cs with
    | '?' :: '>' :: rest => some rest
    | _ => none
  else none

/-- What follows the byte order mark and the declaration of a document, if they are there. -/
def afterDeclaration? (cs : List Char) : Option (List Char) :=
  let cs := match cs with
    | c :: rest => if c.toNat = 0xFEFF then rest else c :: rest
    | [] => []
  match cs with
  | '<' :: '?' :: 'x' :: 'm' :: 'l' :: ' ' :: rest => readDeclaration? rest
  | _ => some cs

/-- The tokens of a document behind its declaration. -/
def ofDocument? (cs : List Char) : Option (List Token) :=
  if cs.all isAllowed then (afterDeclaration? cs).bind scan? else none

end Token

end Xml

end Observatory
