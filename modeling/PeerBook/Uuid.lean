import PeerBook.Text.Hex

/-!
# PeerBook.Uuid

Universally unique identifiers: thirty-two hexadecimal digits. They are written
in lower case with hyphens after the 8th, 12th, 16th and 20th digit. Four forms
are read, in either case: the hyphenated one, the same in braces or after
`urn:uuid:`, and the bare digits.

An identifier is its digits, so two that are written alike are equal. The last
section goes through the groups one by one and ends in `Uuid.parse?_toString`:
what was written is read back.
-/

namespace PeerBook

open Text

/-- A universally unique identifier, as its hexadecimal digits. -/
structure Uuid where
  digits : List (Fin 16)
  length_digits : digits.length = 32
  deriving DecidableEq

namespace Uuid

/-- The identifier with no bit set. -/
def nil : Uuid := ⟨List.replicate 32 ⟨0, by decide⟩, rfl⟩

/-- Whether no bit is set. -/
def isNil (u : Uuid) : Bool := u.digits.all (·.val == 0)

/-- The digits in groups of 8, 4, 4, 4 and 12 with hyphens between them. -/
def toChars (u : Uuid) : List Char :=
  let cs := u.digits.map Hex.digitChar
  cs.take 8 ++ '-' :: ((cs.drop 8).take 4 ++ '-' :: ((cs.drop 12).take 4 ++
    '-' :: ((cs.drop 16).take 4 ++ '-' :: cs.drop 20)))

/-- The written form. -/
def toString (u : Uuid) : String := String.ofList u.toChars

instance : ToString Uuid := ⟨Uuid.toString⟩

/-- Orders identifiers by their digits from the left, which is the order of their bytes. -/
instance : Ord Uuid := ⟨fun u v => compare (u.digits.map (·.val)) (v.digits.map (·.val))⟩

/-! ## Reading -/

/-- Reads thirty-two digits. -/
def ofDigits? (cs : List Char) : Option Uuid := do
  let digits ← cs.mapM Hex.digit?
  if h : digits.length = 32 then some ⟨digits, h⟩ else none

/-- Reads five groups of digits with hyphens between them. -/
def ofGroups? (cs : List Char) : Option Uuid :=
  match cs.drop 8, cs.drop 13, cs.drop 18, cs.drop 23 with
  | '-' :: _, '-' :: _, '-' :: _, '-' :: _ =>
    ofDigits? (cs.take 8 ++ ((cs.drop 9).take 4 ++ ((cs.drop 14).take 4 ++
      ((cs.drop 19).take 4 ++ cs.drop 24))))
  | _, _, _, _ => none

/-- Reads one of the four forms; their lengths tell them apart. -/
def parseChars? (cs : List Char) : Option Uuid :=
  match cs.length with
  | 32 => ofDigits? cs
  | 36 => ofGroups? cs
  | 38 =>
    match cs with
    | '{' :: rest => if rest.getLast? = some '}' then ofGroups? rest.dropLast else none
    | _ => none
  | 45 => if (cs.take 9).map Char.toLower = "urn:uuid:".toList then ofGroups? (cs.drop 9) else none
  | _ => none

/-- Reads a written identifier. -/
def parse? (s : String) : Option Uuid := parseChars? s.toList

/-! ## Reading what was written -/

/-- Digits that were written one by one are read back one by one. -/
theorem mapM_digit?_map_digitChar (ds : List (Fin 16)) :
    (ds.map Hex.digitChar).mapM Hex.digit? = some ds := by
  induction ds with
  | nil => rfl
  | cons d ds ih => simp [ih]

/-- The thirty-two digits of an identifier, written without hyphens, are read back. -/
theorem ofDigits?_map_digitChar (u : Uuid) : ofDigits? (u.digits.map Hex.digitChar) = some u := by
  rw [ofDigits?, mapM_digit?_map_digitChar]
  simp [u.length_digits]

/-- Groups of 8, 4, 4, 4 and 12 characters with hyphens between them are read as the characters
alone: each hyphen is expected just where it stands. -/
theorem ofGroups?_groups {a b c d e : List Char} (ha : a.length = 8) (hb : b.length = 4)
    (hc : c.length = 4) (hd : d.length = 4) :
    ofGroups? (a ++ '-' :: (b ++ '-' :: (c ++ '-' :: (d ++ '-' :: e)))) =
      ofDigits? (a ++ (b ++ (c ++ (d ++ e)))) := by
  simp [ofGroups?, List.drop_append, ha, hb, hc, hd, List.drop_eq_nil_of_le]

/-- A written identifier has thirty-six characters, which is how the reader tells this form from the
other three. -/
theorem length_toChars (u : Uuid) : u.toChars.length = 36 := by
  simp [toChars, u.length_digits]

/-- The hyphenated form of an identifier is read back. -/
theorem ofGroups?_toChars (u : Uuid) : ofGroups? u.toChars = some u := by
  unfold toChars
  rw [ofGroups?_groups (by simp [u.length_digits]) (by simp [u.length_digits])
    (by simp [u.length_digits]) (by simp [u.length_digits]), ← ofDigits?_map_digitChar u]
  have split (n k : Nat) (cs : List Char) : (cs.drop n).take k ++ cs.drop (n + k) = cs.drop n := by
    rw [← List.drop_drop, List.take_append_drop]
  rw [split 16 4, split 12 4, split 8 4, List.take_append_drop]

/-- What was written is read back. -/
@[simp] theorem parse?_toString (u : Uuid) : parse? u.toString = some u := by
  rw [parse?, toString, String.toList_ofList, parseChars?.eq_def]
  simp only [length_toChars, ofGroups?_toChars]

end Uuid

end PeerBook
