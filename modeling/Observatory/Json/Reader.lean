import Observatory.Json.Number

/-!
# Reading JSON text

Text is read in two steps.  A `Source` is the text's structure: literals as written, fields in
the order of the text, repeated keys kept.  A value is made from a source where every number
is finite, every text is well formed and the nesting is bounded; of two fields with one key
the later one counts.

* `Json.Source`: the structure of a JSON text.
* `Json.Source.read?`: the source that a whole text is; `readValue?` one at its head.
* `Json.Source.value?`: the value of a source.
* `Json.read?`: the value of a whole text.
-/

namespace Observatory

namespace Json

/-- The structure of a JSON text.  A text is `none` when its escapes leave a surrogate code
    unit without its partner. -/
inductive Source where
  | null
  | bool (b : Bool)
  | number (literal : NumberLiteral)
  | str (text : Option String)
  | arr (items : List Source)
  | obj (fields : List (Option String × Source))
  deriving Inhabited

namespace Source

/-! ### Blanks and texts -/

/-- The characters between tokens. -/
def isBlank (c : Char) : Bool := c = ' ' || c = '\n' || c = '\t' || c = '\r'

/-- A text without the blanks at its head. -/
def skipBlanks (cs : List Char) : List Char := cs.dropWhile isBlank

/-- The value of a hexadecimal digit. -/
def hexValue? (c : Char) : Option Nat :=
  if '0' ≤ c ∧ c ≤ '9' then some (c.toNat - 48)
  else if 'a' ≤ c ∧ c ≤ 'f' then some (c.toNat - 87)
  else if 'A' ≤ c ∧ c ≤ 'F' then some (c.toNat - 55)
  else none

/-- A character of a quoted text, or the code unit that an escape stands for. -/
inductive Piece where
  | char (c : Char)
  | unit (n : Nat)

/-- The character that a one-letter escape stands for. -/
def simpleEscape? : Char → Option Char
  | '"' => some '"'
  | '\\' => some '\\'
  | '/' => some '/'
  | 'b' => some '\x08'
  | 'f' => some '\x0c'
  | 'n' => some '\n'
  | 'r' => some '\r'
  | 't' => some '\t'
  | _ => none

/-- The pieces of a quoted text up to its closing quote, and what follows it. -/
def readPieces? : List Char → Option (List Piece × List Char)
  | '"' :: rest => some ([], rest)
  | '\\' :: 'u' :: a :: b :: c :: d :: rest => do
    let n := (← hexValue? a) * 4096 + (← hexValue? b) * 256 + (← hexValue? c) * 16 + (← hexValue? d)
    let (pieces, after) ← readPieces? rest
    some (.unit n :: pieces, after)
  | '\\' :: e :: rest => do
    let c ← simpleEscape? e
    let (pieces, after) ← readPieces? rest
    some (.char c :: pieces, after)
  | c :: rest =>
    if c.toNat < 32 ∨ c = '\\' then none
    else do
      let (pieces, after) ← readPieces? rest
      some (.char c :: pieces, after)
  | [] => none

/-- Whether a code unit is the first of a pair. -/
def isHighSurrogate (n : Nat) : Bool := 0xD800 ≤ n && n < 0xDC00

/-- Whether a code unit is the second of a pair. -/
def isLowSurrogate (n : Nat) : Bool := 0xDC00 ≤ n && n < 0xE000

/-- The characters that pieces stand for: a high and a low surrogate make one character, and
    neither stands alone. -/
def joinPieces? : List Piece → Option (List Char)
  | [] => some []
  | .char c :: rest => (joinPieces? rest).map (c :: ·)
  | .unit n :: .unit m :: rest =>
    if isHighSurrogate n then
      if isLowSurrogate m then
        (joinPieces? rest).map (Char.ofNat (0x10000 + (n - 0xD800) * 1024 + (m - 0xDC00)) :: ·)
      else none
    else if isLowSurrogate n then none
    else (joinPieces? (.unit m :: rest)).map (Char.ofNat n :: ·)
  | .unit n :: rest =>
    if isHighSurrogate n || isLowSurrogate n then none
    else (joinPieces? rest).map (Char.ofNat n :: ·)

/-- A quoted text after its opening quote. -/
def readText? (cs : List Char) : Option (Option String × List Char) :=
  (readPieces? cs).map fun (pieces, rest) => ((joinPieces? pieces).map String.ofList, rest)

/-- What follows a keyword at the head of a text. -/
def afterKeyword? : List Char → List Char → Option (List Char)
  | [], rest => some rest
  | k :: ks, c :: cs => if k = c then afterKeyword? ks cs else none
  | _ :: _, [] => none

/-! ### Structure -/

mutual

/-- The source at the head of a text, which may begin with blanks.  Each step into a part uses
    up one unit of `fuel`, of which a text needs no more than it has characters. -/
def readValue? : Nat → List Char → Option (Source × List Char)
  | 0, _ => none
  | fuel + 1, cs =>
    match skipBlanks cs with
    | 'n' :: rest => (afterKeyword? ['u', 'l', 'l'] rest).map (.null, ·)
    | 't' :: rest => (afterKeyword? ['r', 'u', 'e'] rest).map (.bool true, ·)
    | 'f' :: rest => (afterKeyword? ['a', 'l', 's', 'e'] rest).map (.bool false, ·)
    | '"' :: rest => (readText? rest).map fun (text, rest) => (.str text, rest)
    | '[' :: rest =>
      match skipBlanks rest with
      | ']' :: rest => some (.arr [], rest)
      | rest => (readItems? fuel rest).map fun (items, rest) => (.arr items, rest)
    | '\x7b' :: rest =>
      match skipBlanks rest with
      | '\x7d' :: rest => some (.obj [], rest)
      | rest => (readFields? fuel rest).map fun (fields, rest) => (.obj fields, rest)
    | rest => (NumberLiteral.scan? rest).map fun (literal, rest) => (.number literal, rest)

/-- The items of an array, one at least, up to its closing bracket. -/
def readItems? : Nat → List Char → Option (List Source × List Char)
  | 0, _ => none
  | fuel + 1, cs => do
    let (item, rest) ← readValue? fuel cs
    match skipBlanks rest with
    | ']' :: rest => some ([item], rest)
    | ',' :: rest =>
      let (items, rest) ← readItems? fuel rest
      some (item :: items, rest)
    | _ => none

/-- The fields of an object, one at least, up to its closing brace. -/
def readFields? : Nat → List Char → Option (List (Option String × Source) × List Char)
  | 0, _ => none
  | fuel + 1, cs =>
    match skipBlanks cs with
    | '"' :: rest => do
      let (key, rest) ← readText? rest
      match skipBlanks rest with
      | ':' :: rest =>
        let (value, rest) ← readValue? fuel rest
        match skipBlanks rest with
        | '\x7d' :: rest => some ([(key, value)], rest)
        | ',' :: rest =>
          let (fields, rest) ← readFields? fuel rest
          some ((key, value) :: fields, rest)
        | _ => none
      | _ => none
    | _ => none

end

/-- The source at the head of a text. -/
def readHead? (cs : List Char) : Option (Source × List Char) := readValue? (cs.length + 1) cs

/-- The source that a whole text is. -/
def read? (text : String) : Option Source :=
  match readHead? text.toList with
  | some (source, rest) => if (skipBlanks rest).isEmpty then some source else none
  | none => none

/-! ### Values -/

/-- How deep arrays and objects may be nested. -/
def depthLimit : Nat := 127

mutual

/-- The value of a source whose arrays and objects are nested at most `depth` deep. -/
def valueWithin? : Nat → Source → Option Json
  | _, .null => some .null
  | _, .bool b => some (.bool b)
  | _, .number literal => literal.value?.map .scalar
  | _, .str text => text.map .str
  | 0, .arr _ => none
  | depth + 1, .arr items => (itemsWithin? depth items).map .arr
  | 0, .obj _ => none
  | depth + 1, .obj fields =>
    (fieldsWithin? depth fields).map fun pairs => .obj (Dict.ofPairs pairs)

/-- The values of some sources. -/
def itemsWithin? : Nat → List Source → Option (List Json)
  | _, [] => some []
  | depth, s :: rest => do
    let v ← valueWithin? depth s
    let vs ← itemsWithin? depth rest
    some (v :: vs)

/-- The values of some fields. -/
def fieldsWithin? : Nat → List (Option String × Source) → Option (List (String × Json))
  | _, [] => some []
  | depth, (key, s) :: rest => do
    let k ← key
    let v ← valueWithin? depth s
    let vs ← fieldsWithin? depth rest
    some ((k, v) :: vs)

end

/-- The value of a source. -/
def value? (s : Source) : Option Json := valueWithin? depthLimit s

end Source

/-- The value of a whole text. -/
def read? (text : String) : Option Json := (Source.read? text).bind Source.value?

end Json

end Observatory
