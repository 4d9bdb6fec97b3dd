/-!
# PeerBook.Text.Hex

Hexadecimal digits, and byte strings written with two of them per byte. Both
cases are read, the lower one is written; the percent encoding of file names
writes the upper one.

A byte is its two halves (`Text.Hex.ofHalves_halves`), so reading back a byte
string (`Text.Hex.decode?_encode`) is reading back single digits. Identity keys
are stored in this form.
-/

namespace PeerBook.Text.Hex

/-! ## Digits -/

/-- The value of a hexadecimal digit in either case. -/
def digit? (c : Char) : Option (Fin 16) :=
  if '0' ≤ c ∧ c ≤ '9' then some (Fin.ofNat 16 (c.toNat - '0'.toNat))
  else if 'a' ≤ c ∧ c ≤ 'f' then some (Fin.ofNat 16 (c.toNat - 'a'.toNat + 10))
  else if 'A' ≤ c ∧ c ≤ 'F' then some (Fin.ofNat 16 (c.toNat - 'A'.toNat + 10))
  else none

/-- The digit in lower case. -/
def digitChar (d : Fin 16) : Char :=
  if d.val < 10 then Char.ofNat ('0'.toNat + d.val) else Char.ofNat ('a'.toNat + d.val - 10)

/-- The digit in upper case. -/
def upperDigitChar (d : Fin 16) : Char :=
  if d.val < 10 then Char.ofNat ('0'.toNat + d.val) else Char.ofNat ('A'.toNat + d.val - 10)

@[simp] theorem digit?_digitChar (d : Fin 16) : digit? (digitChar d) = some d := by
  revert d; decide

@[simp] theorem digit?_upperDigitChar (d : Fin 16) : digit? (upperDigitChar d) = some d := by
  revert d; decide

/-! ## Bytes -/

/-- The high and the low half of a byte. -/
def halves (b : UInt8) : Fin 16 × Fin 16 :=
  (Fin.ofNat 16 (b.toNat / 16), Fin.ofNat 16 (b.toNat % 16))

/-- The byte with the given halves. -/
def ofHalves (high low : Fin 16) : UInt8 :=
  UInt8.ofNat (high.val * 16 + low.val)

/-- A byte is made of its two halves. -/
@[simp] theorem ofHalves_halves (b : UInt8) : ofHalves (halves b).1 (halves b).2 = b := by
  have hb := b.toNat_lt
  apply UInt8.toNat.inj
  simp only [ofHalves, halves, Fin.val_ofNat, UInt8.toNat_ofNat']
  omega

/-- The digits of a byte string. -/
def encodeChars (bytes : List UInt8) : List Char :=
  bytes.flatMap fun b => [digitChar (halves b).1, digitChar (halves b).2]

/-- Reads digits two by two; an odd digit out is refused. -/
def decodeChars? : List Char → Option (List UInt8)
  | [] => some []
  | [_] => none
  | c :: d :: cs => do
    let high ← digit? c
    let low ← digit? d
    let bytes ← decodeChars? cs
    return ofHalves high low :: bytes

/-- A byte string as hexadecimal text. -/
def encode (bytes : List UInt8) : String :=
  String.ofList (encodeChars bytes)

/-- The bytes that a hexadecimal text stands for. -/
def decode? (s : String) : Option (List UInt8) :=
  decodeChars? s.toList

/-- The digits of a byte string are read back, two for each byte. -/
theorem decodeChars?_encodeChars (bytes : List UInt8) :
    decodeChars? (encodeChars bytes) = some bytes := by
  induction bytes with
  | nil => rfl
  | cons b bs ih =>
    simp only [encodeChars] at ih
    simp [encodeChars, decodeChars?, ih]

/-- What was written is read back. -/
@[simp] theorem decode?_encode (bytes : List UInt8) : decode? (encode bytes) = some bytes := by
  simp [decode?, encode, decodeChars?_encodeChars]

/-- The digits of a number, without leading zeros, zero itself excepted. -/
def ofNat (n : Nat) : String :=
  String.ofList (Nat.toDigits 16 n)

end PeerBook.Text.Hex
