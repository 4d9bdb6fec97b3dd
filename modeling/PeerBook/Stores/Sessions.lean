import PeerBook.Account.Basic
import PeerBook.Text.Base64

/-!
# PeerBook.Stores.Sessions

Protocol sessions by peer and device. A session is an opaque record, and either
live or archived. When a peer is absorbed its sessions move to the survivor,
except for devices of which the survivor has a live session of its own; an
archived one gives way.

The device of a session is the last part of its key. A merge deletes a key whose
last part is no number, and moves the stored text of the others as it is, so a
session that cannot be read moves as well.
-/

namespace PeerBook

/-- A session of a device. -/
structure Session where
  record : List UInt8
  live : Bool
  deriving DecidableEq

/-- A session as it is stored: the record is in base 64. -/
structure StoredSession where
  record : String
  live : Bool
  deriving DecidableEq

namespace StoredSession

open Json

/-- The record of a stored session. -/
def toJson (s : StoredSession) : Json :=
  .record [("record", some (.text s.record)), ("live", some (.bool s.live))]

/-- Reads a stored session. -/
def ofJson : Decoder StoredSession := fun j => do
  let fs ← asFields [field "record" asText, field "live" asBool] j
  let record ← fs.required "record" asText
  let live ← fs.required "live" asBool
  return ⟨record, live⟩

end StoredSession

namespace Sessions

/-! ## Keys -/

/-- The keys of all sessions begin with this. -/
def keyPrefix : String := "v1/session/"

/-- The keys of the sessions of a peer begin with this. -/
def peerPrefix (peer : PeerId) : String := keyPrefix ++ toString peer ++ "/"

/-- The key of the session of a device. -/
def key (peer : PeerId) (device : UInt32) : String := peerPrefix peer ++ toString device

/-- The device of a key: its last part, if that is a number. -/
def deviceOf? (key : String) : Option UInt32 :=
  (Text.readUInt32 (Text.afterLast '/' key)).toOption

/-! ## Operations -/

variable {σ : Type} [Storage σ]

/-- Stores a live session. -/
def store (redirects : Redirects) (peer : PeerId) (device : UInt32) (record : List UInt8) :
    Op σ Unit :=
  Storage.putJson (key (redirects.follow peer) device)
    (StoredSession.mk (Text.Base64.encode record) true).toJson

/-- The session of a device. -/
def load (redirects : Redirects) (peer : PeerId) (device : UInt32) : Op σ (Option Session) := do
  match ← Storage.getJson StoredSession.ofJson (key (redirects.follow peer) device) with
  | none => return none
  | some stored =>
    match Text.Base64.decode? stored.record with
    | some record => return some ⟨record, stored.live⟩
    | none => Op.fail .base64

/-- Whether a device has a live session. -/
def contains (redirects : Redirects) (peer : PeerId) (device : UInt32) : Op σ Bool := do
  return (← load redirects peer device).any (·.live)

/-- The devices with a session other than the first, ascending. -/
def subDevices (redirects : Redirects) (peer : PeerId) : Op σ (List UInt32) := do
  let keys ← Storage.list (peerPrefix (redirects.follow peer))
  return ((keys.filterMap deviceOf?).filter (· != 1)).mergeSort

/-- Marks the sessions of a peer as no longer live. -/
def archive (redirects : Redirects) (peer : PeerId) : Op σ Unit := do
  Storage.forEach
    (fun key => do
      match ← Storage.getJson StoredSession.ofJson key with
      | none => return
      | some stored =>
        if stored.live then
          Storage.putJson key { stored with live := false }.toJson)
    (← Storage.list (peerPrefix (redirects.follow peer)))

/-- Removes the session of a device. -/
def delete (redirects : Redirects) (peer : PeerId) (device : UInt32) : Op σ Unit :=
  Storage.del (key (redirects.follow peer) device)

/-- Removes the sessions of a peer. -/
def deleteAll (redirects : Redirects) (peer : PeerId) : Op σ Unit := do
  let keys ← Storage.list (peerPrefix (redirects.follow peer))
  Storage.writeBatch (keys.map .del)

/-! ## Merging -/

/-- The writes that move one session of the absorbed peer. -/
def mergeKey (surviving absorbed : PeerId) (source : String) : Op σ (List Write) := do
  match deviceOf? source with
  | none => return [.del source]
  | some device =>
    match ← Storage.get source with
    | none => return [.del source]
    | some raw =>
      let target := key surviving device
      let existing ← Storage.getJson StoredSession.ofJson target
      if existing.any (·.live) then
        Op.note .debug ("Discarding session " ++ toString absorbed ++ "." ++ toString device ++
          " in favour of live session " ++ toString surviving ++ "." ++ toString device)
        return [.del source]
      else
        return [.del source, .put target raw]

/-- Moves the sessions of the absorbed peer to the surviving one. -/
def merge (surviving absorbed : PeerId) : Op σ Unit := do
  let keys ← Storage.list (peerPrefix absorbed)
  let writes ← Storage.collect (fun k => do return some (← mergeKey surviving absorbed k)) keys
  Storage.writeBatch writes.flatten

/-- The part that the sessions take in merges. -/
def merger : Merger σ := ⟨"sessions", merge⟩

end Sessions

end PeerBook
