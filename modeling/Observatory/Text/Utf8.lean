/-!
# Reading bytes as UTF-8

Bytes from a device need not be well-formed text.  They are read as UTF-8 all the same, with
one replacement character for every longest ill-formed start of a character.

* `Utf8.begin`: what a first byte announces.
* `Utf8.decode`: the characters of some bytes.
* `Utf8.decodeText`: the same as a text.
-/

namespace Observatory

namespace Utf8

/-- The character that stands for what cannot be read. -/
def replacement : Char := Char.ofNat 0xFFFD

/-- A character whose first bytes were read: their value, how many bytes are to come, and the
    range of the next one. -/
structure Pending where
  value : Nat
  toCome : Nat
  low : Nat := 0x80
  high : Nat := 0xBF
  deriving DecidableEq, Repr

/-- What a byte at the start of a character announces. -/
inductive Lead where
  | char (c : Char)
  | pending (p : Pending)
  | invalid
  deriving DecidableEq, Repr

/-- What a byte announces.  The range of the second byte keeps out overlong forms, surrogates
    and numbers beyond the last character. -/
def begin (b : UInt8) : Lead :=
  let n := b.toNat
  if n < 0x80 then .char (Char.ofNat n)
  else if n < 0xC2 then .invalid
  else if n < 0xE0 then .pending ⟨n - 0xC0, 1, 0x80, 0xBF⟩
  else if n = 0xE0 then .pending ⟨0, 2, 0xA0, 0xBF⟩
  else if n = 0xED then .pending ⟨0xD, 2, 0x80, 0x9F⟩
  else if n < 0xF0 then .pending ⟨n - 0xE0, 2, 0x80, 0xBF⟩
  else if n = 0xF0 then .pending ⟨0, 3, 0x90, 0xBF⟩
  else if n < 0xF4 then .pending ⟨n - 0xF0, 3, 0x80, 0xBF⟩
  else if n = 0xF4 then .pending ⟨4, 3, 0x80, 0x8F⟩
  else .invalid

/-- The pending character after a further byte, if the byte can stand there. -/
def Pending.push? (p : Pending) (b : UInt8) : Option Pending :=
  if p.low ≤ b.toNat ∧ b.toNat ≤ p.high then
    some { value := p.value * 64 + (b.toNat - 0x80), toCome := p.toCome - 1 }
  else none

/-- The characters of some bytes, after the first bytes of a pending character or none. -/
def decodeFrom : Option Pending → List UInt8 → List Char
  | none, [] => []
  | some _, [] => [replacement]
  | none, b :: rest =>
    match begin b with
    | .char c => c :: decodeFrom none rest
    | .pending p => decodeFrom (some p) rest
    | .invalid => replacement :: decodeFrom none rest
  | some p, b :: rest =>
    match p.push? b with
    | some next =>
      if next.toCome = 0 then Char.ofNat next.value :: decodeFrom none rest
      else decodeFrom (some next) rest
    | none =>
      match begin b with
      | .char c => replacement :: c :: decodeFrom none rest
      | .pending p => replacement :: decodeFrom (some p) rest
      | .invalid => replacement :: replacement :: decodeFrom none rest

/-- The characters of some bytes. -/
def decode (bytes : List UInt8) : List Char := decodeFrom none bytes

/-- The text of some bytes. -/
def decodeText (bytes : List UInt8) : String := String.ofList (decode bytes)

/-- The bytes of a text. -/
def encodeText (text : String) : List UInt8 := text.toUTF8.toList

end Utf8

end Observatory
