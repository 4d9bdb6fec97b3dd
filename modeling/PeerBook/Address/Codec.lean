import PeerBook.Address
import PeerBook.Json.Decoder

/-!
# PeerBook.Address.Codec

Identifiers, addresses and handles as JSON. Both kinds of identity are written
as bare UUIDs; an address is a record of the identifiers that are present.
Whatever is read is checked by the rules for addresses, as soon as the part
that they are about is complete: an identity that is nil is refused at its
place, an address without identifiers at its end.

So no invalid address comes out of a storage, and since the types carry their
rules there is nothing left to check afterwards. `PeerBook.Proofs.Json.Records`
proves that what was written is read back.
-/

namespace PeerBook

open Json

/-! ## Handles and kinds -/

/-- A handle is written as its number. -/
def PeerId.toJson (id : PeerId) : Json := .nat id.value.toNat

/-- Reads a handle. -/
def PeerId.ofJson : Decoder PeerId := fun j => (asUInt64 j).map PeerId.mk

/-- A kind is written as its name. -/
def Kind.toJson (k : Kind) : Json := .text k.name

/-- Reads a kind. -/
def Kind.ofJson : Decoder Kind := asNamed Kind.ofName?

/-! ## Identities -/

/-- Reads a UUID. -/
def Uuid.ofJson : Decoder Uuid := fun j => do
  match Uuid.parse? (← asText j) with
  | some u => .ok u
  | none => .error .malformed

/-- Checks what was read by a rule about identifiers. -/
def checked {α : Type} (r : Except IdentifierFault α) : Except JsonFault α :=
  r.mapError fun fault => .rejected (.identifier fault)

/-- An account identity is written as its UUID. -/
def Aci.toJson (a : Aci) : Json := .text a.uuid.toString

/-- Reads an account identity. -/
def Aci.ofJson : Decoder Aci := fun j => do checked (Aci.ofUuid (← Uuid.ofJson j))

/-- A phone-number identity is written as its UUID, without the mark. -/
def Pni.toJson (p : Pni) : Json := .text p.uuid.toString

/-- Reads a phone-number identity. -/
def Pni.ofJson : Decoder Pni := fun j => do checked (Pni.ofUuid (← Uuid.ofJson j))

/-! ## Addresses -/

namespace Address

/-- The record of the identifiers that are present. -/
def toJson (a : Address) : Json :=
  .record
    [("aci", a.aci.map Aci.toJson), ("pni", a.pni.map Pni.toJson),
      ("number", a.number.map fun n => .text n.text),
      ("username", a.username.map fun u => .text u.text)]

/-- The fields of the record; each may be left out. -/
def jsonFields : List Field :=
  [fieldOr "aci" (asOptional Aci.ofJson), fieldOr "pni" (asOptional Pni.ofJson),
    fieldOr "number" (asOptional asText), fieldOr "username" (asOptional asText)]

/-- Reads an address. -/
def ofJson : Decoder Address := fun j => do
  let fs ← asFields jsonFields j
  let aci ← fs.getD "aci" (asOptional Aci.ofJson) none
  let pni ← fs.getD "pni" (asOptional Pni.ofJson) none
  let number ← fs.getD "number" (asOptional asText) none
  let username ← fs.getD "username" (asOptional asText) none
  (create aci pni number username).mapError .rejected

end Address

end PeerBook
