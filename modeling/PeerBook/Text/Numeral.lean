/-!
# PeerBook.Text.Numeral

Decimal numerals below a bound. A numeral is one optional plus sign and at
least one digit; leading zeros are allowed, a minus sign is not. Reading goes
from left to right and names the first thing that is wrong, so a letter after
too many digits goes unnoticed.

Handles, device numbers and the counter of a directory are read this way. What
the library writes has neither sign nor leading zero and is read back
(`Text.Numeral.read_toString`), as long as it is below the bound.
-/

namespace PeerBook.Text

/-- What is wrong with a text that is no numeral below the bound. -/
inductive NumeralFault where
  | empty
  | invalidDigit
  | tooLarge
  deriving DecidableEq, Repr

/-- The wording of a fault. -/
def NumeralFault.message : NumeralFault → String
  | .empty => "cannot parse integer from empty string"
  | .invalidDigit => "invalid digit found in string"
  | .tooLarge => "number too large to fit in target type"

namespace Numeral

/-- The value of a decimal digit. -/
def digit? (c : Char) : Option Nat :=
  if '0' ≤ c ∧ c ≤ '9' then some (c.toNat - '0'.toNat) else none

/-- Continues a numeral whose digits so far have the value `acc`. -/
def readDigits (bound : Nat) : List Char → Nat → Except NumeralFault Nat
  | [], acc => .ok acc
  | c :: cs, acc =>
    match digit? c with
    | none => .error .invalidDigit
    | some d =>
      if acc * 10 + d < bound then readDigits bound cs (acc * 10 + d) else .error .tooLarge

/-- Reads a numeral whose value is below `bound`. -/
def read (bound : Nat) (s : String) : Except NumeralFault Nat :=
  match s.toList with
  | [] => .error .empty
  | ['+'] => .error .invalidDigit
  | '+' :: cs => readDigits bound cs 0
  | cs => readDigits bound cs 0

/-! ## Reading what was written -/

/-- The value of a digit is its distance from the zero. -/
theorem digit?_of_isDigit {c : Char} (h : c.isDigit) : digit? c = some (c.toNat - '0'.toNat) := by
  have : '0' ≤ c ∧ c ≤ '9' := by
    simpa [Char.isDigit, Char.le_def] using h
  simp [digit?, this]

/-- Reading on never makes a numeral smaller: each digit appends to the value so far. -/
theorem le_ofDigitChars (ds : List Char) (acc : Nat) : acc ≤ Nat.ofDigitChars 10 ds acc := by
  rw [Nat.ofDigitChars_eq_ofDigitChars_zero]
  exact Nat.le_add_right_of_le (Nat.le_mul_of_pos_left acc (Nat.pow_pos (by decide)))

/-- Digits whose value is below the bound are read: since values only grow, no earlier step passes
the bound either. -/
theorem readDigits_of_isDigit {bound acc : Nat} {ds : List Char} (hd : ∀ c ∈ ds, c.isDigit)
    (hb : Nat.ofDigitChars 10 ds acc < bound) :
    readDigits bound ds acc = .ok (Nat.ofDigitChars 10 ds acc) := by
  induction ds generalizing acc with
  | nil => simp [readDigits]
  | cons c ds ih =>
    rw [Nat.ofDigitChars_cons, Nat.mul_comm] at hb ⊢
    have hlt := Nat.lt_of_le_of_lt (le_ofDigitChars ds _) hb
    rw [readDigits, digit?_of_isDigit (hd c (by simp))]
    simp only [hlt, if_true]
    exact ih (fun x hx => hd x (by simp [hx])) hb

/-- What was written is read back, if it is below the bound: the text has no sign, at least one
digit and no other character. -/
theorem read_toString {bound n : Nat} (h : n < bound) : read bound (toString n) = .ok n := by
  have hd : ∀ c ∈ Nat.toDigits 10 n, c.isDigit := fun c hc =>
    Nat.isDigit_of_mem_toDigits (by decide) (by decide) hc
  have hr : readDigits bound (Nat.toDigits 10 n) 0 = .ok n := by
    rw [readDigits_of_isDigit hd (by simpa using h), Nat.ofDigitChars_ten_toDigits]
  unfold read
  rw [show (toString n).toList = Nat.toDigits 10 n from Nat.toList_repr]
  cases hds : Nat.toDigits 10 n with
  | nil => exact absurd hds Nat.toDigits_ne_nil
  | cons c ds =>
    have hc : c ≠ '+' := by
      rintro rfl
      exact absurd (hd '+' (by simp [hds])) (by decide)
    rw [hds] at hr
    split <;> simp_all

end Numeral

/-- Reads a numeral that fits in 64 bits. -/
def readUInt64 (s : String) : Except NumeralFault UInt64 :=
  (Numeral.read UInt64.size s).map UInt64.ofNat

/-- Reads a numeral that fits in 32 bits. -/
def readUInt32 (s : String) : Except NumeralFault UInt32 :=
  (Numeral.read UInt32.size s).map UInt32.ofNat

@[simp] theorem readUInt64_toString (n : UInt64) : readUInt64 (toString n) = .ok n := by
  rw [readUInt64, show toString n = toString n.toNat from rfl, Numeral.read_toString n.toNat_lt]
  simp [Except.map]

@[simp] theorem readUInt32_toString (n : UInt32) : readUInt32 (toString n) = .ok n := by
  rw [readUInt32, show toString n = toString n.toNat from rfl, Numeral.read_toString n.toNat_lt]
  simp [Except.map]

end PeerBook.Text
