/-!
# White space

* `Blank.holds`: whether a character is white space by the property of that name.
* `Blank.trim`: a text without the white space at its ends.
-/

namespace Observatory

namespace Blank

/-- Whether a character is white space. -/
def holds (c : Char) : Bool :=
  let n := c.toNat
  (9 ≤ n && n ≤ 13) || n = 0x20 || n = 0x85 || n = 0xA0 || n = 0x1680 ||
    (0x2000 ≤ n && n ≤ 0x200A) || n = 0x2028 || n = 0x2029 || n = 0x202F || n = 0x205F || n = 0x3000

/-- Characters without the white space at their ends. -/
def trimList (cs : List Char) : List Char :=
  ((cs.dropWhile holds).reverse.dropWhile holds).reverse

/-- A text without the white space at its ends. -/
def trim (text : String) : String := String.ofList (trimList text.toList)

end Blank

end Observatory
