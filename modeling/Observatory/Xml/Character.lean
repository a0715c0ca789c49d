/-!
# Characters of XML

* `Xml.isSpace`: the characters between the parts of a tag.
* `Xml.isAllowed`: the characters that a document may hold.
* `Xml.isNameStart`, `Xml.isNamePart`: the characters of names, the colon apart.
-/

namespace Observatory

namespace Xml

/-- Whether a number lies in one of some ranges, first and last included. -/
def inRanges (ranges : List (Nat × Nat)) (n : Nat) : Bool :=
  ranges.any fun r => r.1 ≤ n && n ≤ r.2

/-- Whether a character may stand between the parts of a tag. -/
def isSpace (c : Char) : Bool := c = ' ' || c = '\t' || c = '\n' || c = '\r'

/-- Whether a document may hold a character. -/
def isAllowed (c : Char) : Bool :=
  if c.toNat < 0x20 then isSpace c else c.toNat ≠ 0xFFFE && c.toNat ≠ 0xFFFF

/-- The ranges of the characters that begin names, the colon apart. -/
def nameStartRanges : List (Nat × Nat) :=
  [(0x41, 0x5A), (0x5F, 0x5F), (0x61, 0x7A), (0xC0, 0xD6), (0xD8, 0xF6), (0xF8, 0x2FF),
    (0x370, 0x37D), (0x37F, 0x1FFF), (0x200C, 0x200D), (0x2070, 0x218F), (0x2C00, 0x2FEF),
    (0x3001, 0xD7FF), (0xF900, 0xFDCF), (0xFDF0, 0xFFFD), (0x10000, 0xEFFFF)]

/-- The ranges of the further characters of names. -/
def namePartRanges : List (Nat × Nat) :=
  [(0x2D, 0x2E), (0x30, 0x39), (0xB7, 0xB7), (0x300, 0x36F), (0x203F, 0x2040)]

/-- Whether a name may begin with a character. -/
def isNameStart (c : Char) : Bool := inRanges nameStartRanges c.toNat

/-- Whether a name may hold a character. -/
def isNamePart (c : Char) : Bool := isNameStart c || inRanges namePartRanges c.toNat

/-- A text without the spaces at its head. -/
def skipSpaces (cs : List Char) : List Char := cs.dropWhile isSpace

end Xml

end Observatory
