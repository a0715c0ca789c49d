import Observatory.Xml.Character

/-!
# References and line ends

A reference stands for one character.  White space in an attribute value counts as spaces, and
the line ends of a text become line feeds, unless they are written as references.

* `Xml.Piece`, `Xml.pieces?`: text with its references resolved.
* `Xml.attributeValue?`, `Xml.textValue?`, `Xml.sectionValue`: what is read.
* `Xml.escape`: text in which no character can be taken for markup.
-/

namespace Observatory

namespace Xml

/-! ### References -/

/-- A character as it stands in a text, or the character that a reference stands for. -/
inductive Piece where
  | plain (c : Char)
  | reference (c : Char)
  deriving DecidableEq, Repr

/-- The value of a digit of some base, sixteen at most. -/
def digit? (base : Nat) (c : Char) : Option Nat :=
  let n := c.toNat
  let value :=
    if 0x30 ≤ n && n ≤ 0x39 then n - 0x30
    else if 0x41 ≤ n && n ≤ 0x46 then n - 0x41 + 10
    else if 0x61 ≤ n && n ≤ 0x66 then n - 0x61 + 10
    else base
  if value < base then some value else none

/-- The number that digits spell after digits worth `n`. -/
def number? (base : Nat) : Nat → List Char → Option Nat
  | n, [] => some n
  | n, c :: rest => (digit? base c).bind fun d => number? base (n * base + d) rest

/-- The character of a number of at most 32 bits.  What is no character number stands for the
    replacement character. -/
def numbered? (base : Nat) (digits : List Char) : Option Char :=
  if digits.isEmpty then none
  else
    (number? base 0 digits).bind fun n =>
      if n < 0x100000000 then
        let c := if n.isValidChar then Char.ofNat n else Char.ofNat 0xFFFD
        if isAllowed c then some c else none
      else none

/-- The character that a reference stands for, given what stands between its ampersand and its
    semicolon. -/
def resolve? : List Char → Option Char
  | '#' :: 'x' :: digits => numbered? 16 digits
  | '#' :: digits => numbered? 10 digits
  | ['l', 't'] => some '<'
  | ['g', 't'] => some '>'
  | ['a', 'm', 'p'] => some '&'
  | ['a', 'p', 'o', 's'] => some '\''
  | ['q', 'u', 'o', 't'] => some '"'
  | _ => none

/-- The pieces of a text, of which the characters of an unfinished reference were read, last
    one first, or none. -/
def piecesFrom? : Option (List Char) → List Char → Option (List Piece)
  | none, [] => some []
  | some _, [] => none
  | none, c :: rest =>
    if c = '&' then piecesFrom? (some []) rest else (piecesFrom? none rest).map (.plain c :: ·)
  | some body, c :: rest =>
    if c = ';' then do
      let r ← resolve? body.reverse
      let pieces ← piecesFrom? none rest
      some (.reference r :: pieces)
    else piecesFrom? (some (c :: body)) rest

/-- The pieces of a text; nothing when an ampersand begins no reference. -/
def pieces? (cs : List Char) : Option (List Piece) := piecesFrom? none cs

/-! ### Attribute values -/

/-- The characters of an attribute value: white space becomes a space, and a carriage return
    with a line feed makes one of them. -/
def attributeChars : List Piece → List Char
  | [] => []
  | .reference c :: rest => c :: attributeChars rest
  | .plain '\r' :: .plain '\n' :: rest => attributeChars (.plain '\n' :: rest)
  | .plain c :: rest => (if isSpace c then ' ' else c) :: attributeChars rest

/-- What an attribute value is read as. -/
def attributeValue? (cs : List Char) : Option (List Char) := (pieces? cs).map attributeChars

/-! ### Text -/

/-- The characters of a text, of which `done` were read, last one first.  A carriage return
    waits for the next character, with which it becomes a line feed; a reference takes the
    place of that character and shields the one after it (`shielded`). -/
def textChars (done : List Char) (shielded : Bool) : List Piece → List Char
  | [] => done.reverse
  | .reference c :: rest => textChars (c :: done) true rest
  | .plain c :: rest =>
    if shielded then textChars (c :: done) false rest
    else
      let last := if c = '\r' && rest.isEmpty then '\n' else c
      match done with
      | '\r' :: before =>
        if c = '\n' then textChars ('\n' :: before) false rest
        else textChars (last :: '\n' :: before) false rest
      | _ => textChars (last :: done) false rest

/-- What a run of text is read as. -/
def textValue? (cs : List Char) : Option (List Char) := (pieces? cs).map (textChars [] false)

/-- What a CDATA section is read as: nothing in it is a reference. -/
def sectionValue (cs : List Char) : List Char := textChars [] false (cs.map .plain)

/-! ### Escapes -/

/-- A character as it is written in a text or an attribute value. -/
def escapeChar : Char → List Char
  | '&' => ['&', 'a', 'm', 'p', ';']
  | '<' => ['&', 'l', 't', ';']
  | '>' => ['&', 'g', 't', ';']
  | '"' => ['&', 'q', 'u', 'o', 't', ';']
  | '\'' => ['&', 'a', 'p', 'o', 's', ';']
  | c => [c]

/-- A text as it is written in a text or an attribute value. -/
def escape (cs : List Char) : List Char := cs.flatMap escapeChar

end Xml

end Observatory
