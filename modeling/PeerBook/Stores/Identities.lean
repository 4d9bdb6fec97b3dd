import PeerBook.Account.Basic
import PeerBook.Text.Hex

/-!
# PeerBook.Stores.Identities

The identity key of each peer and the trust that the user placed in it. The
first key seen of a peer is trusted on first use, and a key that replaces
another is not until the user says so. When a peer is absorbed its key moves to
the survivor, unless that has one.

Saving a key answers whether it replaced another, so the caller can warn of it.
Saving the same key again changes nothing, neither the trust nor the time.
That trust is never gained in silence is proved in `PeerBook.Proofs.Stores.Trust`.
-/

namespace PeerBook

/-- How far a key is trusted. -/
inductive TrustLevel where
  | untrusted
  | trustedUnverified
  | trustedVerified
  deriving DecidableEq, Repr

namespace TrustLevel

/-- Whether a key may be used. -/
def isTrusted : TrustLevel → Bool
  | untrusted => false
  | _ => true

/-- The name of a level. -/
def name : TrustLevel → String
  | untrusted => "UNTRUSTED"
  | trustedUnverified => "TRUSTED_UNVERIFIED"
  | trustedVerified => "TRUSTED_VERIFIED"

/-- All levels. -/
def all : List TrustLevel := [untrusted, trustedUnverified, trustedVerified]

/-- The level with a given name. -/
def ofName? (s : String) : Option TrustLevel := all.find? (·.name == s)

@[simp] theorem ofName?_name (t : TrustLevel) : ofName? t.name = some t := by cases t <;> decide

/-- A level is written as its name. -/
def toJson (t : TrustLevel) : Json := .text t.name

/-- Reads a level. -/
def ofJson : Json.Decoder TrustLevel := Json.asNamed ofName?

end TrustLevel

/-- What is known of the identity of a peer. -/
structure Identity where
  key : List UInt8
  trust : TrustLevel
  /-- When the key was first seen, in milliseconds. -/
  addedAt : UInt64
  deriving DecidableEq

namespace Identity

open Json

/-- The record of an identity; the key is in hexadecimal digits. -/
def toJson (i : Identity) : Json :=
  .record
    [("identityKey", some (.text (Text.Hex.encode i.key))), ("trustLevel", some i.trust.toJson),
      ("addedAt", some (.nat i.addedAt.toNat))]

/-- Reads hexadecimal digits. -/
def bytesOfJson : Decoder (List UInt8) := fun j => do
  match Text.Hex.decode? (← asText j) with
  | some bytes => .ok bytes
  | none => .error .malformed

/-- Reads an identity. -/
def ofJson : Decoder Identity := fun j => do
  let fs ← asFields [field "identityKey" bytesOfJson, field "trustLevel" TrustLevel.ofJson,
    field "addedAt" asUInt64] j
  let key ← fs.required "identityKey" bytesOfJson
  let trust ← fs.required "trustLevel" TrustLevel.ofJson
  let addedAt ← fs.required "addedAt" asUInt64
  return ⟨key, trust, addedAt⟩

end Identity

namespace Identities

/-- The keys of all identities begin with this. -/
def keyPrefix : String := "v1/identity/"

/-- The key of the identity of a peer. -/
def key (peer : PeerId) : String := keyPrefix ++ toString peer

/-! ## Operations -/

variable {σ : Type} [Storage σ]

/-- The identity of a peer. -/
def get (redirects : Redirects) (peer : PeerId) : Op σ (Option Identity) :=
  Storage.getJson Identity.ofJson (key (redirects.follow peer))

/-- Stores the identity of a peer. -/
def put (redirects : Redirects) (peer : PeerId) (i : Identity) : Op σ Unit :=
  Storage.putJson (key (redirects.follow peer)) i.toJson

/-- Saves the key seen for a peer at a time, and answers whether it replaced another; if it did
it is not trusted. -/
def save (redirects : Redirects) (now : UInt64) (peer : PeerId) (identityKey : List UInt8) :
    Op σ Bool := do
  match ← get redirects peer with
  | none =>
    put redirects peer ⟨identityKey, .trustedUnverified, now⟩
    return false
  | some existing =>
    if existing.key = identityKey then
      return false
    else
      Op.note .info ("Identity key of recipient " ++ toString peer ++ " changed")
      put redirects peer ⟨identityKey, .untrusted, now⟩
      return true

/-- Changes the trust in a key, and answers whether it is the stored one. -/
def setTrust (redirects : Redirects) (peer : PeerId) (identityKey : List UInt8)
    (trust : TrustLevel) : Op σ Bool := do
  match ← get redirects peer with
  | none => return false
  | some existing =>
    if existing.key = identityKey then
      put redirects peer { existing with trust }
      return true
    else
      return false

/-- Whether a key may be used for a peer. -/
def isTrusted (redirects : Redirects) (peer : PeerId) (identityKey : List UInt8) : Op σ Bool := do
  match ← get redirects peer with
  | none => return true
  | some existing => return existing.key == identityKey && existing.trust.isTrusted

/-- Removes the identity of a peer. -/
def delete (redirects : Redirects) (peer : PeerId) : Op σ Unit :=
  Storage.del (key (redirects.follow peer))

/-! ## Merging -/

/-- Moves the identity of the absorbed peer to the surviving one, unless that has one. -/
def merge (surviving absorbed : PeerId) : Op σ Unit := do
  match ← Storage.get (key absorbed) with
  | none => return
  | some raw =>
    let existing ← Storage.get (key surviving)
    Storage.writeBatch (.del (key absorbed) ::
      (if existing.isNone then [.put (key surviving) raw] else []))

/-- The part that the identities take in merges. -/
def merger : Merger σ := ⟨"identities", merge⟩

end Identities

end PeerBook
