import PeerBook.Text.Hex

/-!
# PeerBook.Text.Percent

Percent encoding of texts: the letters, digits and the four marks `-`, `_`,
`.`, `~` stand for themselves, every other byte of the UTF-8 form is written as
a percent sign and two upper-case hexadecimal digits. So an encoded text is
fit to be a file name. Reading is lenient: a percent sign that two digits do
not follow stands for itself.
-/

namespace PeerBook.Text.Percent

/-- The bytes that stand for themselves. -/
def isUnreserved (b : UInt8) : Bool :=
  let n := b.toNat
  (48 ≤ n && n ≤ 57) || (65 ≤ n && n ≤ 90) || (97 ≤ n && n ≤ 122) ||
    n == 45 || n == 95 || n == 46 || n == 126

/-- The written form of one byte. -/
def encodeByte (b : UInt8) : List Char :=
  if isUnreserved b then
    [Char.ofNat b.toNat]
  else
    ['%', Hex.upperDigitChar (Hex.halves b).1, Hex.upperDigitChar (Hex.halves b).2]

/-- The written form of a byte string. -/
def encodeBytes (bytes : List UInt8) : List Char :=
  bytes.flatMap encodeByte

/-- The UTF-8 bytes of a text. -/
def utf8 (s : String) : List UInt8 :=
  s.toList.flatMap String.utf8EncodeChar

/-- The bytes that a written text stands for. -/
def decodeBytes : List Char → List UInt8
  | [] => []
  | '%' :: c :: d :: cs =>
    match Hex.digit? c, Hex.digit? d with
    | some high, some low => Hex.ofHalves high low :: decodeBytes cs
    | _, _ => 37 :: decodeBytes (c :: d :: cs)
  | c :: cs => String.utf8EncodeChar c ++ decodeBytes cs

/-- The percent-encoded form of a text. -/
def encode (s : String) : String :=
  String.ofList (encodeBytes (utf8 s))

/-- The text that a percent-encoded form stands for, if its bytes are UTF-8. -/
def decode? (s : String) : Option String :=
  String.fromUTF8? (decodeBytes s.toList).toByteArray

/-! ## Reading what was written -/

/-- A byte that stands for itself is an ASCII character other than the percent sign, so its encoding
in UTF-8 is that one byte. -/
theorem utf8EncodeChar_of_isUnreserved {b : UInt8} (h : isUnreserved b = true) :
    String.utf8EncodeChar (Char.ofNat b.toNat) = [b] ∧ Char.ofNat b.toNat ≠ '%' := by
  have all : ∀ n : Fin 256, isUnreserved (UInt8.ofNat n.val) = true →
      String.utf8EncodeChar (Char.ofNat n.val) = [UInt8.ofNat n.val] ∧ Char.ofNat n.val ≠ '%' := by
    decide +kernel
  have hb : UInt8.ofNat b.toNat = b := by simp
  simpa [hb] using all ⟨b.toNat, b.toNat_lt⟩ (by simpa [hb] using h)

/-- The written form of a byte is read as that byte, whatever follows: no digit behind a percent
sign is taken from what comes after. -/
theorem decodeBytes_encodeByte (b : UInt8) (cs : List Char) :
    decodeBytes (encodeByte b ++ cs) = b :: decodeBytes cs := by
  unfold encodeByte
  split
  · rename_i h
    obtain ⟨h₁, h₂⟩ := utf8EncodeChar_of_isUnreserved h
    rw [decodeBytes.eq_def]
    split <;> simp_all
  · simp [decodeBytes]

/-- A written byte string is read back, by induction on the bytes. -/
theorem decodeBytes_encodeBytes (bytes : List UInt8) : decodeBytes (encodeBytes bytes) = bytes := by
  induction bytes with
  | nil => rfl
  | cons b bs ih =>
    simp only [encodeBytes, List.flatMap_cons] at ih ⊢
    rw [decodeBytes_encodeByte, ih]

/-- The bytes that are written are those of the text. -/
theorem toByteArray_utf8 (s : String) : (utf8 s).toByteArray = s.toByteArray := by
  have h := String.toByteArray_ofList (l := s.toList)
  rw [String.ofList_toList] at h
  exact h.symm

/-- What was written is read back, also where the text has characters of several bytes. -/
@[simp] theorem decode?_encode (s : String) : decode? (encode s) = some s := by
  simp [decode?, encode, decodeBytes_encodeBytes, toByteArray_utf8, String.fromUTF8?,
    String.fromUTF8, s.isValidUTF8]

end PeerBook.Text.Percent
