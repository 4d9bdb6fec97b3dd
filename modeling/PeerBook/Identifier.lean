import PeerBook.Error
import PeerBook.Text.Affix
import PeerBook.Text.Blank
import PeerBook.Uuid

/-!
# PeerBook.Identifier

What a peer may be known by. An account identity (ACI) and a phone-number
identity (PNI) are UUIDs other than nil; a phone number begins with a plus sign
that at least one character follows, and none of its characters is blank; a
username is not made of blanks alone.

Each is a type that only valid values have, with one constructor function that
checks (`Aci.ofUuid`, `Pni.ofUuid`, `PhoneNumber.ofText`, `Username.ofText`) and
accepts every value that was built before. What is written is read back
(`Aci.parse_toString`, `Pni.parse_toString`); a phone-number identity is written
with a mark in front and read with or without it (`Pni.parse_uuid`).
-/

namespace PeerBook

/-! ## Account identities -/

/-- A permanent account identifier. -/
structure Aci where
  uuid : Uuid
  not_nil : uuid.isNil = false
  deriving DecidableEq

namespace Aci

/-- The account identity with a given UUID. -/
def ofUuid (u : Uuid) : Except IdentifierFault Aci :=
  if h : u.isNil = false then .ok ⟨u, h⟩ else .error .nilAci

/-- The written form is that of the UUID. -/
def toString (a : Aci) : String := a.uuid.toString

instance : ToString Aci := ⟨Aci.toString⟩

/-- Reads an account identity. -/
def parse (s : String) : Except Error Aci :=
  match Uuid.parse? s with
  | none => .error .uuid
  | some u => (ofUuid u).mapError .invalidIdentifier

@[simp] theorem ofUuid_uuid (a : Aci) : ofUuid a.uuid = .ok a := by
  simp [ofUuid, a.not_nil]

/-- What was written is read back, in particular by a storage that keeps identities as text. -/
@[simp] theorem parse_toString (a : Aci) : parse a.toString = .ok a := by
  simp [parse, toString]

end Aci

/-! ## Phone-number identities -/

/-- A permanent identity of a phone number, not necessarily tied to an account. -/
structure Pni where
  uuid : Uuid
  not_nil : uuid.isNil = false
  deriving DecidableEq

namespace Pni

/-- The mark in front of a written phone-number identity. -/
def mark : String := "PNI:"

/-- The phone-number identity with a given UUID. -/
def ofUuid (u : Uuid) : Except IdentifierFault Pni :=
  if h : u.isNil = false then .ok ⟨u, h⟩ else .error .nilPni

/-- The written form is the mark and the UUID. -/
def toString (p : Pni) : String := mark ++ p.uuid.toString

instance : ToString Pni := ⟨Pni.toString⟩

/-- Reads a phone-number identity with or without the mark. -/
def parse (s : String) : Except Error Pni :=
  match Uuid.parse? ((Text.afterPrefix? mark s).getD s) with
  | none => .error .uuid
  | some u => (ofUuid u).mapError .invalidIdentifier

@[simp] theorem ofUuid_uuid (p : Pni) : ofUuid p.uuid = .ok p := by
  simp [ofUuid, p.not_nil]

/-- What was written is read back: the mark is taken off before the UUID is read. -/
@[simp] theorem parse_toString (p : Pni) : parse p.toString = .ok p := by
  have h : Text.afterPrefix? mark p.toString = some p.uuid.toString :=
    Text.afterPrefix?_append _ _
  unfold parse
  rw [h, Option.getD_some, Uuid.parse?_toString]
  simp

/-- The bare UUID is read as well: no UUID begins with the mark, since its first character is a
hexadecimal digit, so nothing is taken off. -/
@[simp] theorem parse_uuid (p : Pni) : parse p.uuid.toString = .ok p := by
  have h : Text.afterPrefix? mark p.uuid.toString = none := by
    refine if_neg fun h => ?_
    obtain ⟨t, ht⟩ := Text.hasPrefix_iff.mp h
    obtain ⟨d, ds, hd⟩ : ∃ d ds, p.uuid.digits = d :: ds := by
      have := p.uuid.length_digits
      cases hd : p.uuid.digits with
      | nil => simp [hd] at this
      | cons d ds => exact ⟨d, ds, rfl⟩
    have hc : p.uuid.toString.toList.head? = some (Text.Hex.digitChar d) := by
      simp [Uuid.toString, Uuid.toChars, hd]
    have hp : p.uuid.toString.toList.head? = some 'P' := by rw [← ht]; rfl
    have hne : ∀ d : Fin 16, 'P' ≠ Text.Hex.digitChar d := by decide
    exact hne d (by simpa using hp.symm.trans hc)
  unfold parse
  rw [h, Option.getD_none, Uuid.parse?_toString]
  simp

end Pni

/-! ## Phone numbers -/

/-- Whether a text is a plus sign and at least one more character, none of them blank. -/
def isPhoneNumber (s : String) : Bool :=
  match s.toList with
  | '+' :: rest => !rest.isEmpty && rest.all (!Text.isBlank ·)
  | _ => false

/-- A phone number. -/
structure PhoneNumber where
  text : String
  valid : isPhoneNumber text = true
  deriving DecidableEq

namespace PhoneNumber

/-- The phone number with a given text. -/
def ofText (s : String) : Except IdentifierFault PhoneNumber :=
  if h : isPhoneNumber s = true then .ok ⟨s, h⟩ else .error (.notANumber s)

instance : ToString PhoneNumber := ⟨text⟩

@[simp] theorem ofText_text (n : PhoneNumber) : ofText n.text = .ok n := by
  simp [ofText, n.valid]

end PhoneNumber

/-! ## Usernames -/

/-- Whether a text is not made of blanks alone. -/
def isUsername (s : String) : Bool := s.toList.any (!Text.isBlank ·)

/-- A username. -/
structure Username where
  text : String
  valid : isUsername text = true
  deriving DecidableEq

namespace Username

/-- The username with a given text. -/
def ofText (s : String) : Except IdentifierFault Username :=
  if h : isUsername s = true then .ok ⟨s, h⟩ else .error .blankUsername

instance : ToString Username := ⟨text⟩

@[simp] theorem ofText_text (u : Username) : ofText u.text = .ok u := by
  simp [ofText, u.valid]

end Username

/-! ## Identifiers of any kind -/

/-- An identifier of one of the four kinds. -/
inductive Identifier where
  | aci (a : Aci)
  | pni (p : Pni)
  | number (n : PhoneNumber)
  | username (u : Username)
  deriving DecidableEq

namespace Identifier

/-- The kind of an identifier. -/
def kind : Identifier → Kind
  | aci _ => .aci
  | pni _ => .pni
  | number _ => .number
  | username _ => .username

/-- The written form of an identifier. -/
def toString : Identifier → String
  | aci a => ToString.toString a
  | pni p => ToString.toString p
  | number n => n.text
  | username u => u.text

instance : ToString Identifier := ⟨Identifier.toString⟩

end Identifier

end PeerBook
