import Observatory.Json.Basic
import Observatory.Binary64.Shortest

/-!
# JSON text of a value

The compact form: no blanks, fields in the order in which the object holds them.

* `Json.floatForm`: how doubles are written.
* `Json.quote`: a text in double quotes.
* `Json.render`: the text of a value.
-/

namespace Observatory

namespace Json

/-- Doubles are written positionally when the first digit is worth `10 ^ (-5)` to `10 ^ 15`. -/
def floatForm : Binary64.DecimalForm := ⟨-5, 15⟩

/-- A hexadecimal digit, in lower case. -/
def hexDigit (n : Nat) : Char :=
  if n < 10 then Char.ofNat (48 + n) else Char.ofNat (87 + n)

/-- A character inside a quoted text: quotes, backslashes and controls are escaped. -/
def escapeChar (c : Char) : List Char :=
  match c with
  | '"' => ['\\', '"']
  | '\\' => ['\\', '\\']
  | '\n' => ['\\', 'n']
  | '\r' => ['\\', 'r']
  | '\t' => ['\\', 't']
  | '\x08' => ['\\', 'b']
  | '\x0c' => ['\\', 'f']
  | c =>
    if c.toNat < 32 then ['\\', 'u', '0', '0', hexDigit (c.toNat / 16), hexDigit (c.toNat % 16)]
    else [c]

/-- A text in double quotes. -/
def quote (s : String) : String :=
  String.ofList ('"' :: (s.toList.flatMap escapeChar ++ ['"']))

end Json

/-- The text of a scalar. -/
def Scalar.render : Scalar → String
  | .null => "null"
  | .bool true => "true"
  | .bool false => "false"
  | .int n => toString n
  | .float x => x.render Json.floatForm
  | .str s => Json.quote s

namespace Json

mutual

/-- The compact text of a value. -/
def render : Json → String
  | .scalar s => s.render
  | .arr items => "[" ++ ",".intercalate (renderItems items) ++ "]"
  | .obj fields => "\x7b" ++ ",".intercalate (renderFields fields) ++ "\x7d"

/-- The texts of some values. -/
def renderItems : List Json → List String
  | [] => []
  | v :: rest => render v :: renderItems rest

/-- The texts of some fields. -/
def renderFields : List (String × Json) → List String
  | [] => []
  | (k, v) :: rest => (quote k ++ ":" ++ render v) :: renderFields rest

end

end Json

end Observatory
