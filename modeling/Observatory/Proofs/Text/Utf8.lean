import Observatory.Text.Utf8

/-!
# Reading back what was written

The bytes of a text are read as that text: each character is written as one to four bytes, the
first of which announces how many follow and in which range the second one lies.

* `Utf8.encodeText_eq`: the bytes of a text, character by character;
* `Utf8.decodeFrom_encoded`: reading the bytes of one character;
* `Utf8.decodeText_encodeText`: reading the bytes of a text;
* `Utf8.mem_of_mem_encodeText`: an ASCII character among the bytes of a text is one of the text.
-/

namespace Observatory

namespace Utf8

/-! ### The bytes of a text -/

/-- The loop of `ByteArray.toList` appends to the bytes collected so far those of the array from
    position `i` on. -/
theorem toList_loop_eq (bytes : ByteArray) (i : Nat) (collected : List UInt8) :
    ByteArray.toList.loop bytes i collected = collected.reverse ++ bytes.data.toList.drop i := by
  fun_induction ByteArray.toList.loop bytes i collected with
  | case1 i collected h ih =>
    have hi : i < bytes.data.toList.length := by simpa using h
    rw [ih, List.drop_eq_getElem_cons hi]
    simp [ByteArray.get!, h]
  | case2 i collected h =>
    have hi : bytes.data.toList.length ≤ i := by simpa using Nat.le_of_not_lt h
    rw [List.drop_eq_nil_of_le hi, List.append_nil]

/-- `encodeText` writes the characters of a text one after the other, each by
    `String.utf8EncodeChar`. -/
theorem encodeText_eq (text : String) :
    encodeText text = text.toList.flatMap String.utf8EncodeChar := by
  have hbytes : text.toByteArray = text.toList.utf8Encode := by
    rw [← String.toByteArray_ofList, String.ofList_toList]
  rw [encodeText, String.toUTF8_eq_toByteArray, hbytes, ByteArray.toList, toList_loop_eq,
    List.utf8Encode, List.data_toByteArray]
  rfl

/-! ### Reading one character -/

theorem toNat_byte {n : Nat} (h : n < 256) : (UInt8.ofNat n).toNat = n := by
  rw [UInt8.toNat_ofNat']
  exact Nat.mod_eq_of_lt h

section Begin

variable {n : Nat}

/-- A byte from `0xC2` to `0xDF` announces one more byte, which may be any continuation byte. -/
theorem begin_two (h : 0xC2 ≤ n) (h' : n < 0xE0) :
    begin (.ofNat n) = .pending ⟨n - 0xC0, 1, 0x80, 0xBF⟩ := by
  rw [begin, toNat_byte (by omega), if_neg (by omega), if_neg (by omega), if_pos h']

/-- A byte from `0xE0` to `0xEF` announces two more.  The second byte is in a smaller range behind
    `0xE0`, which excludes longer spellings than necessary, and behind `0xED`, which excludes
    surrogates. -/
theorem begin_three (h : 0xE0 ≤ n) (h' : n < 0xF0) : begin (.ofNat n) =
    .pending ⟨n - 0xE0, 2, if n = 0xE0 then 0xA0 else 0x80, if n = 0xED then 0x9F else 0xBF⟩ := by
  rw [begin, toNat_byte (by omega), if_neg (by omega), if_neg (by omega), if_neg (by omega)]
  by_cases he : n = 0xE0
  · subst he
    rfl
  · by_cases hd : n = 0xED
    · subst hd
      rfl
    · rw [if_neg he, if_neg hd, if_pos h', if_neg he, if_neg hd]

/-- A byte from `0xF0` to `0xF4` announces three more.  The second byte is in a smaller range
    behind `0xF0`, for the same reason as above, and behind `0xF4`, so that the value is a code
    point. -/
theorem begin_four (h : 0xF0 ≤ n) (h' : n ≤ 0xF4) : begin (.ofNat n) =
    .pending ⟨n - 0xF0, 3, if n = 0xF0 then 0x90 else 0x80, if n = 0xF4 then 0x8F else 0xBF⟩ := by
  rw [begin, toNat_byte (by omega), if_neg (by omega), if_neg (by omega), if_neg (by omega),
    if_neg (by omega), if_neg (by omega), if_neg (by omega)]
  by_cases hf : n = 0xF0
  · subst hf
    rfl
  · by_cases hl : n = 0xF4
    · subst hl
      rfl
    · rw [if_neg hf, if_pos (by omega), if_neg hf, if_neg hl]

end Begin

section Read

variable {n : Nat} {p : Pending} (rest : List UInt8)

/-- `decodeFrom` with nothing pending goes on with what a first byte announces. -/
theorem decodeFrom_begin (h : begin (.ofNat n) = .pending p) :
    decodeFrom none (.ofNat n :: rest) = decodeFrom (some p) rest := by
  rw [decodeFrom, h]

/-- A continuation byte in the expected range adds its six bits to the pending value if more are to
    come. -/
theorem decodeFrom_push (hn : n < 256) (hlow : p.low ≤ n) (hhigh : n ≤ p.high)
    (hp : 1 < p.toCome) : decodeFrom (some p) (.ofNat n :: rest) =
      decodeFrom (some { value := p.value * 64 + (n - 0x80), toCome := p.toCome - 1 }) rest := by
  have hpush : p.push? (.ofNat n) =
      some { value := p.value * 64 + (n - 0x80), toCome := p.toCome - 1 } := by
    rw [Pending.push?, toNat_byte hn, if_pos ⟨hlow, hhigh⟩]
  have hmore : ¬p.toCome - 1 = 0 := by omega
  rw [decodeFrom, hpush]
  exact if_neg hmore

/-- The last continuation byte completes the pending value, which `decodeFrom` gives out as a
    character. -/
theorem decodeFrom_last (hn : n < 256) (hlow : p.low ≤ n) (hhigh : n ≤ p.high)
    (hp : p.toCome = 1) : decodeFrom (some p) (.ofNat n :: rest) =
      Char.ofNat (p.value * 64 + (n - 0x80)) :: decodeFrom none rest := by
  have hpush : p.push? (.ofNat n) =
      some { value := p.value * 64 + (n - 0x80), toCome := p.toCome - 1 } := by
    rw [Pending.push?, toNat_byte hn, if_pos ⟨hlow, hhigh⟩]
  have hlast : p.toCome - 1 = 0 := by omega
  rw [decodeFrom, hpush]
  exact if_pos hlast

end Read

/-- `decodeFrom` reads what `String.utf8EncodeChar` wrote, for every character, and goes on behind
    it with nothing pending. -/
theorem decodeFrom_encoded (c : Char) (rest : List UInt8) :
    decodeFrom none (String.utf8EncodeChar c ++ rest) = c :: decodeFrom none rest := by
  have hc : Char.ofNat c.val.toNat = c := Char.ofNat_toNat c
  -- A character is no surrogate, which is why the ranges of the second byte never exclude it.
  have hvalid : c.val.toNat < 0xD800 ∨ 0xDFFF < c.val.toNat ∧ c.val.toNat < 0x110000 := c.valid
  unfold String.utf8EncodeChar
  -- From here on the character is only its value `v`, and there is one case for each length.
  generalize c.val.toNat = v at hc hvalid ⊢
  dsimp only
  split
  · next h1 =>
    have hbegin : begin (.ofNat v) = .char (Char.ofNat v) := by
      rw [begin, toNat_byte (by omega)]
      exact if_pos (by omega)
    rw [List.singleton_append, decodeFrom, hbegin, hc]
  split
  · next h1 h2 =>
    have hfirst := begin_two (n := v / 64 % 32 + 192) (by omega) (by omega)
    have hv : (v / 64 % 32 + 192 - 0xC0) * 64 + (v % 64 + 128 - 0x80) = v := by omega
    simp only [List.cons_append, List.nil_append]
    rw [decodeFrom_begin _ hfirst,
      decodeFrom_last _ (by omega) (by dsimp only; omega) (by dsimp only; omega) rfl]
    dsimp only
    rw [hv, hc]
  split
  · next h1 h2 h3 =>
    have hfirst := begin_three (n := v / 4096 % 16 + 224) (by omega) (by omega)
    have hv : ((v / 4096 % 16 + 224 - 0xE0) * 64 + (v / 64 % 64 + 128 - 0x80)) * 64 +
        (v % 64 + 128 - 0x80) = v := by omega
    simp only [List.cons_append, List.nil_append]
    rw [decodeFrom_begin _ hfirst,
      decodeFrom_push _ (by omega) (by dsimp only; split <;> omega)
        (by dsimp only; split <;> omega) (Nat.lt_succ_self 1),
      decodeFrom_last _ (by omega) (by dsimp only; omega) (by dsimp only; omega) rfl]
    dsimp only
    rw [hv, hc]
  · next h1 h2 h3 =>
    have hfirst := begin_four (n := v / 262144 % 8 + 240) (by omega) (by omega)
    have hv : (((v / 262144 % 8 + 240 - 0xF0) * 64 + (v / 4096 % 64 + 128 - 0x80)) * 64 +
        (v / 64 % 64 + 128 - 0x80)) * 64 + (v % 64 + 128 - 0x80) = v := by omega
    simp only [List.cons_append, List.nil_append]
    rw [decodeFrom_begin _ hfirst,
      decodeFrom_push _ (by omega) (by dsimp only; split <;> omega)
        (by dsimp only; split <;> omega) (by dsimp only; omega),
      decodeFrom_push _ (by omega) (by dsimp only; omega) (by dsimp only; omega)
        (Nat.lt_succ_self 1),
      decodeFrom_last _ (by omega) (by dsimp only; omega) (by dsimp only; omega) rfl]
    dsimp only
    rw [hv, hc]

/-- `decodeText` reads back every text from its bytes. -/
theorem decodeText_encodeText (text : String) : decodeText (encodeText text) = text := by
  have hchars : ∀ cs : List Char, decode (cs.flatMap String.utf8EncodeChar) = cs := by
    intro cs
    induction cs with
    | nil => rfl
    | cons c cs ih => rw [List.flatMap_cons, decode, decodeFrom_encoded, ← decode, ih]
  rw [decodeText, encodeText_eq, hchars, String.ofList_toList]

/-! ### Bytes of ASCII characters -/

theorem encodeText_append (a b : String) :
    encodeText (a ++ b) = encodeText a ++ encodeText b := by
  rw [encodeText_eq, encodeText_eq, encodeText_eq, String.toList_append, List.flatMap_append]

/-- A character below `0x80` is written as the one byte with its value. -/
theorem encodeChar_ascii {c : Char} (h : c.toNat < 0x80) :
    String.utf8EncodeChar c = [c.toNat.toUInt8] := by
  have hle : c.val.toNat ≤ 0x7F := Nat.le_of_lt_succ h
  unfold String.utf8EncodeChar
  exact if_pos hle

/-- All bytes of any other character are `0x80` or more. -/
theorem le_of_mem_encodeChar {c : Char} (h : 0x80 ≤ c.toNat) {b : UInt8}
    (hb : b ∈ String.utf8EncodeChar c) : 0x80 ≤ b.toNat := by
  have hlarge : ¬c.val.toNat ≤ 0x7F := Nat.not_le_of_lt h
  -- The first byte and those that follow it are all made by adding to a mark that is large enough.
  have hbyte : ∀ n, 0x80 ≤ n → n < 256 → 0x80 ≤ (UInt8.ofNat n).toNat := by
    intro n hn hlt
    rw [toNat_byte hlt]
    exact hn
  unfold String.utf8EncodeChar at hb
  generalize c.val.toNat = v at hb hlarge
  dsimp only at hb
  rw [if_neg hlarge] at hb
  split at hb
  · simp only [List.mem_cons, List.not_mem_nil, or_false] at hb
    rcases hb with rfl | rfl <;> exact hbyte _ (by omega) (by omega)
  split at hb
  · simp only [List.mem_cons, List.not_mem_nil, or_false] at hb
    rcases hb with rfl | rfl | rfl <;> exact hbyte _ (by omega) (by omega)
  · simp only [List.mem_cons, List.not_mem_nil, or_false] at hb
    rcases hb with rfl | rfl | rfl | rfl <;> exact hbyte _ (by omega) (by omega)

/-- A byte below `0x80` among the bytes of a text is not part of a longer character, so the text
    has the character it stands for. -/
theorem mem_of_mem_encodeText {c : Char} (hc : c.toNat < 0x80) {text : String}
    (h : c.toNat.toUInt8 ∈ encodeText text) : c ∈ text.toList := by
  rw [encodeText_eq, List.mem_flatMap] at h
  obtain ⟨d, hd, hmem⟩ := h
  have hvalue : c.toNat.toUInt8.toNat = c.toNat := toNat_byte (by omega)
  by_cases hascii : d.toNat < 0x80
  · rw [encodeChar_ascii hascii, List.mem_singleton] at hmem
    have hsame := congrArg UInt8.toNat hmem
    rw [hvalue, show d.toNat.toUInt8.toNat = d.toNat from toNat_byte (by omega)] at hsame
    exact Char.toNat_inj.1 hsame ▸ hd
  · have hle := le_of_mem_encodeChar (Nat.le_of_not_lt hascii) hmem
    omega

end Utf8

end Observatory
