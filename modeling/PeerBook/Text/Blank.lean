/-!
# PeerBook.Text.Blank

The blank characters: those with the Unicode property `White_Space`. Phone
numbers hold none of them, a username is not made of them alone, and a stored
counter is read without the blanks around it.

The table is the property as Unicode defines it, no-break spaces and the
ideographic space included, which is more than the four blanks of JSON.
-/

namespace PeerBook.Text

/-- The characters with the Unicode property `White_Space`. -/
def isBlank (c : Char) : Bool :=
  let n := c.toNat
  (9 ≤ n && n ≤ 13) || n == 0x20 || n == 0x85 || n == 0xA0 || n == 0x1680 ||
    (0x2000 ≤ n && n ≤ 0x200A) || n == 0x2028 || n == 0x2029 || n == 0x202F ||
    n == 0x205F || n == 0x3000

/-- The text without the blanks at its two ends. -/
def trimBlank (s : String) : String :=
  String.ofList
    ((s.toList.dropWhile isBlank).reverse.dropWhile isBlank).reverse

/-- A plus sign is not blank, so it may stand in front of a phone number. -/
theorem isBlank_plus : isBlank '+' = false := by decide

end PeerBook.Text
