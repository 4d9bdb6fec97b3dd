import PeerBook.Account.Basic
import PeerBook.Text.Base64

/-!
# PeerBook.Stores.SendLog

What was sent lately to each peer, so that a message that could not be
decrypted can be sent again. Every entry has an identifier of its own, which
whoever inserts it draws. When a peer is absorbed its entries move to the
survivor.

Entries are answered by their time, and those of one time by the device. Those
from before a given time can be deleted for all peers at once, which keeps the
log short; entries that cannot be read are passed over there, too.
-/

namespace PeerBook

/-- A message that was sent. -/
structure SentMessage where
  id : String
  peer : PeerId
  device : UInt32
  timestamp : UInt64
  /-- The content in base 64. -/
  content : String
  urgent : Bool
  deriving DecidableEq

namespace SentMessage

/-- The content as bytes. -/
def bytes (m : SentMessage) : Except Error (List UInt8) :=
  match Text.Base64.decode? m.content with
  | some bytes => .ok bytes
  | none => .error .base64

/-- Whether an entry comes before another: by time, then by device. -/
def le (a b : SentMessage) : Bool :=
  a.timestamp < b.timestamp || (a.timestamp == b.timestamp && a.device ≤ b.device)

open Json

/-- The record of an entry. -/
def toJson (m : SentMessage) : Json :=
  .record
    [("id", some (.text m.id)), ("recipient", some m.peer.toJson),
      ("deviceId", some (.nat m.device.toNat)), ("timestamp", some (.nat m.timestamp.toNat)),
      ("content", some (.text m.content)), ("urgent", some (.bool m.urgent))]

/-- The fields of an entry. -/
def jsonFields : List Field :=
  [field "id" asText, field "recipient" PeerId.ofJson, field "deviceId" asUInt32,
    field "timestamp" asUInt64, field "content" asText, field "urgent" asBool]

/-- Reads an entry. -/
def ofJson : Decoder SentMessage := fun j => do
  let fs ← asFields jsonFields j
  let id ← fs.required "id" asText
  let peer ← fs.required "recipient" PeerId.ofJson
  let device ← fs.required "deviceId" asUInt32
  let timestamp ← fs.required "timestamp" asUInt64
  let content ← fs.required "content" asText
  let urgent ← fs.required "urgent" asBool
  return ⟨id, peer, device, timestamp, content, urgent⟩

end SentMessage

namespace SendLog

/-! ## Keys -/

/-- The keys of all entries begin with this. -/
def keyPrefix : String := "v1/send-log/"

/-- The keys of the entries of a peer begin with this. -/
def peerPrefix (peer : PeerId) : String := keyPrefix ++ toString peer ++ "/"

/-- The key of an entry. -/
def key (peer : PeerId) (id : String) : String := peerPrefix peer ++ id

/-! ## Operations -/

variable {σ : Type} [Storage σ]

/-- Adds an entry under the identifier drawn for it. -/
def insert (redirects : Redirects) (id : String) (peer : PeerId) (device : UInt32)
    (timestamp : UInt64) (content : List UInt8) (urgent : Bool) : Op σ Unit :=
  let peer := redirects.follow peer
  Storage.putJson (key peer id)
    (SentMessage.mk id peer device timestamp (Text.Base64.encode content) urgent).toJson

/-- The entries under the keys of a peer, by time and device. -/
def entriesUnder (peer : PeerId) : Op σ (List SentMessage) := do
  let keys ← Storage.list (peerPrefix peer)
  return (← Storage.collect (Storage.getJson SentMessage.ofJson) keys).mergeSort SentMessage.le

/-- The entries of a peer, by time and device. -/
def entries (redirects : Redirects) (peer : PeerId) : Op σ (List SentMessage) :=
  entriesUnder (redirects.follow peer)

/-- The entry of a device and a time. -/
def get (redirects : Redirects) (peer : PeerId) (device : UInt32) (timestamp : UInt64) :
    Op σ (Option SentMessage) := do
  return (← entries redirects peer).find? fun m => m.timestamp == timestamp && m.device == device

/-- Removes the entries of a peer. -/
def delete (redirects : Redirects) (peer : PeerId) : Op σ Unit := do
  let keys ← Storage.list (peerPrefix (redirects.follow peer))
  Storage.writeBatch (keys.map .del)

/-- Removes the entries of all peers from before a time, and answers their number. -/
def deleteOlder (timestamp : UInt64) : Op σ Nat := do
  let old ← Storage.collect
    (fun key => do
      match ← Storage.getJson SentMessage.ofJson key with
      | some m => return if m.timestamp < timestamp then some (Write.del key) else none
      | none => return none)
    (← Storage.list keyPrefix)
  Storage.writeBatch old
  return old.length

/-! ## Merging -/

/-- Moves the entries of the absorbed peer to the surviving one. -/
def merge (surviving absorbed : PeerId) : Op σ Unit := do
  let moved ← entriesUnder absorbed
  Storage.writeBatch (moved.flatMap fun m =>
    [.del (key absorbed m.id),
      .put (key surviving m.id) { m with peer := surviving }.toJson.compact])

/-- The part that the log takes in merges. -/
def merger : Merger σ := ⟨"send-log", merge⟩

end SendLog

end PeerBook
