/-!
# PeerBook.Text.Base64

Byte strings in base 64 with the standard alphabet. Three bytes make four
digits; a last group of one or two bytes is filled up with equals signs. Only
what the encoder writes is read: the filling may not be missing, and the bits
that a short last group leaves over are zero.

A digit is a number below 64, with its character by `Text.Base64.digitChar`. The
arithmetic of a group is in three lemmas, one for each byte; with them
`Text.Base64.decode?_encode` follows the recursion of the encoder: what was
written is read back.
-/

namespace PeerBook.Text.Base64

/-! ## Digits -/

/-- The character of a digit. -/
def digitChar (d : Fin 64) : Char :=
  let n := d.val
  if n < 26 then Char.ofNat ('A'.toNat + n)
  else if n < 52 then Char.ofNat ('a'.toNat + n - 26)
  else if n < 62 then Char.ofNat ('0'.toNat + n - 52)
  else if n = 62 then '+'
  else '/'

/-- The digit that a character stands for. -/
def digit? (c : Char) : Option (Fin 64) :=
  if 'A' ≤ c ∧ c ≤ 'Z' then some (Fin.ofNat 64 (c.toNat - 'A'.toNat))
  else if 'a' ≤ c ∧ c ≤ 'z' then some (Fin.ofNat 64 (c.toNat - 'a'.toNat + 26))
  else if '0' ≤ c ∧ c ≤ '9' then some (Fin.ofNat 64 (c.toNat - '0'.toNat + 52))
  else if c = '+' then some 62
  else if c = '/' then some 63
  else none

@[simp] theorem digit?_digitChar (d : Fin 64) : digit? (digitChar d) = some d := by
  revert d; decide

/-- No digit looks like the filling. -/
theorem digitChar_ne_equals (d : Fin 64) : digitChar d ≠ '=' := by
  revert d; decide

/-! ## Groups -/

/-- The digits of the bits of one, two or three bytes, filled up with zeros. -/
def first (a : UInt8) : Fin 64 := Fin.ofNat 64 (a.toNat / 4)

/-- The digit between the first byte and the second. -/
def second (a b : UInt8) : Fin 64 := Fin.ofNat 64 (a.toNat % 4 * 16 + b.toNat / 16)

/-- The digit between the second byte and the third. -/
def third (b c : UInt8) : Fin 64 := Fin.ofNat 64 (b.toNat % 16 * 4 + c.toNat / 64)

/-- The last digit of a full group. -/
def fourth (c : UInt8) : Fin 64 := Fin.ofNat 64 (c.toNat % 64)

/-- The first byte, from the first two digits. -/
def byte₁ (p q : Fin 64) : UInt8 := UInt8.ofNat (p.val * 4 + q.val / 16)

/-- The second byte, from the two digits in the middle. -/
def byte₂ (q r : Fin 64) : UInt8 := UInt8.ofNat (q.val % 16 * 16 + r.val / 4)

/-- The third byte, from the last two digits. -/
def byte₃ (r s : Fin 64) : UInt8 := UInt8.ofNat (r.val % 4 * 64 + s.val)

/-- The first byte is found again from the digits it is spread over. -/
@[simp] theorem byte₁_first_second (a b : UInt8) : byte₁ (first a) (second a b) = a := by
  have ha := a.toNat_lt
  have hb := b.toNat_lt
  apply UInt8.toNat.inj
  simp only [byte₁, first, second, Fin.val_ofNat, UInt8.toNat_ofNat']
  omega

/-- The second byte is found again from the two digits in the middle, whatever its neighbours
are. -/
@[simp] theorem byte₂_second_third (a b c : UInt8) : byte₂ (second a b) (third b c) = b := by
  have ha := a.toNat_lt
  have hb := b.toNat_lt
  have hc := c.toNat_lt
  apply UInt8.toNat.inj
  simp only [byte₂, second, third, Fin.val_ofNat, UInt8.toNat_ofNat']
  omega

/-- The third byte is found again from the last two digits. -/
@[simp] theorem byte₃_third_fourth (b c : UInt8) : byte₃ (third b c) (fourth c) = c := by
  have hb := b.toNat_lt
  have hc := c.toNat_lt
  apply UInt8.toNat.inj
  simp only [byte₃, third, fourth, Fin.val_ofNat, UInt8.toNat_ofNat']
  omega

/-- One byte leaves four bits of its second digit unused, and they are zero, as the reader
demands. -/
theorem second_zero_mod (a : UInt8) : (second a 0).val % 16 = 0 := by
  have ha := a.toNat_lt
  simp only [second, Fin.val_ofNat, UInt8.toNat_zero]
  omega

/-- Two bytes leave two bits of their third digit unused, and they are zero, as the reader
demands. -/
theorem third_zero_mod (b : UInt8) : (third b 0).val % 4 = 0 := by
  have hb := b.toNat_lt
  simp only [third, Fin.val_ofNat, UInt8.toNat_zero]
  omega

/-! ## Byte strings -/

/-- The digits and the filling of a byte string. -/
def encodeChars : List UInt8 → List Char
  | [] => []
  | [a] => [digitChar (first a), digitChar (second a 0), '=', '=']
  | [a, b] => [digitChar (first a), digitChar (second a b), digitChar (third b 0), '=']
  | a :: b :: c :: rest =>
    digitChar (first a) :: digitChar (second a b) :: digitChar (third b c) ::
      digitChar (fourth c) :: encodeChars rest

/-- Reads groups of four; only the last may be filled up. -/
def decodeChars? : List Char → Option (List UInt8)
  | [] => some []
  | [c₁, c₂, '=', '='] => do
    let p ← digit? c₁
    let q ← digit? c₂
    if q.val % 16 = 0 then some [byte₁ p q] else none
  | [c₁, c₂, c₃, '='] => do
    let p ← digit? c₁
    let q ← digit? c₂
    let r ← digit? c₃
    if r.val % 4 = 0 then some [byte₁ p q, byte₂ q r] else none
  | c₁ :: c₂ :: c₃ :: c₄ :: rest => do
    let p ← digit? c₁
    let q ← digit? c₂
    let r ← digit? c₃
    let s ← digit? c₄
    let bytes ← decodeChars? rest
    return byte₁ p q :: byte₂ q r :: byte₃ r s :: bytes
  | _ => none

/-- A byte string in base 64. -/
def encode (bytes : List UInt8) : String :=
  String.ofList (encodeChars bytes)

/-- The bytes that a text in base 64 stands for. -/
def decode? (s : String) : Option (List UInt8) :=
  decodeChars? s.toList

/-- The digits of a byte string are read back, by the recursion of the encoder: a full group at a
time, then a last one of one or two bytes. -/
theorem decodeChars?_encodeChars (bytes : List UInt8) :
    decodeChars? (encodeChars bytes) = some bytes := by
  fun_induction encodeChars bytes with
  | case1 => rfl
  | case2 a => simp [decodeChars?, second_zero_mod]
  | case3 a b =>
    simp [decodeChars?, digitChar_ne_equals, third_zero_mod]
  | case4 a b c rest ih =>
    simp [decodeChars?, digitChar_ne_equals, ih]

/-- What was written is read back. -/
@[simp] theorem decode?_encode (bytes : List UInt8) : decode? (encode bytes) = some bytes := by
  simp [decode?, encode, decodeChars?_encodeChars]

end PeerBook.Text.Base64
