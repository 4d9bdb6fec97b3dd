import PeerBook.Account.Basic
import PeerBook.Text.Base64

/-!
# PeerBook.Stores.MessageCache

Envelopes that arrived and could not be processed yet, by peer. A cache has the
keys under a prefix of its own. Entries that cannot be read are passed over.
When a peer is absorbed its envelopes move to the survivor.

Whoever adds an envelope draws its identifier, which with the peer makes up its
key. The entries of a peer are answered by the time of their arrival; those that
arrived at one time stay in the order in which the storage lists them.
-/

namespace PeerBook

/-- An envelope that waits. -/
structure CachedMessage where
  id : String
  peer : PeerId
  /-- The envelope in base 64. -/
  envelope : String
  /-- When it arrived, in milliseconds. -/
  receivedAt : UInt64
  deriving DecidableEq

namespace CachedMessage

/-- The envelope as bytes. -/
def bytes (m : CachedMessage) : Except Error (List UInt8) :=
  match Text.Base64.decode? m.envelope with
  | some bytes => .ok bytes
  | none => .error .base64

/-- Whether an entry comes before another. -/
def le (a b : CachedMessage) : Bool := a.receivedAt ≤ b.receivedAt

open Json

/-- The record of an entry. -/
def toJson (m : CachedMessage) : Json :=
  .record
    [("id", some (.text m.id)), ("recipient", some m.peer.toJson),
      ("envelope", some (.text m.envelope)), ("receivedAt", some (.nat m.receivedAt.toNat))]

/-- The fields of an entry. -/
def jsonFields : List Field :=
  [field "id" asText, field "recipient" PeerId.ofJson, field "envelope" asText,
    field "receivedAt" asUInt64]

/-- Reads an entry. -/
def ofJson : Decoder CachedMessage := fun j => do
  let fs ← asFields jsonFields j
  let id ← fs.required "id" asText
  let peer ← fs.required "recipient" PeerId.ofJson
  let envelope ← fs.required "envelope" asText
  let receivedAt ← fs.required "receivedAt" asUInt64
  return ⟨id, peer, envelope, receivedAt⟩

end CachedMessage

/-- A cache, as the prefix of its keys. -/
structure MessageCache where
  keyPrefix : String := "v1/message-cache/"
  deriving DecidableEq

namespace MessageCache

/-! ## Keys -/

/-- The keys of the entries of a peer begin with this. -/
def peerPrefix (cache : MessageCache) (peer : PeerId) : String :=
  cache.keyPrefix ++ toString peer ++ "/"

/-- The key of an entry. -/
def key (cache : MessageCache) (peer : PeerId) (id : String) : String :=
  cache.peerPrefix peer ++ id

/-! ## Operations -/

variable {σ : Type} [Storage σ]

/-- Adds an envelope that arrived at a time, under the identifier drawn for it. -/
def add (cache : MessageCache) (redirects : Redirects) (id : String) (now : UInt64) (peer : PeerId)
    (envelope : List UInt8) : Op σ Unit :=
  let peer := redirects.follow peer
  Storage.putJson (cache.key peer id)
    (CachedMessage.mk id peer (Text.Base64.encode envelope) now).toJson

/-- The entries under the keys of a peer, by the time of their arrival. -/
def entriesUnder (cache : MessageCache) (peer : PeerId) : Op σ (List CachedMessage) := do
  let found ← Storage.collect
    (fun key => do
      match ← Storage.get key with
      | none => return none
      | some raw =>
        match Json.decode CachedMessage.ofJson raw with
        | .ok m => return some m
        | .error _ =>
          Op.note .warn ("Skipping unreadable cached message " ++ key)
          return none)
    (← Storage.list (cache.peerPrefix peer))
  return found.mergeSort CachedMessage.le

/-- The entries of a peer, by the time of their arrival. -/
def entries (cache : MessageCache) (redirects : Redirects) (peer : PeerId) :
    Op σ (List CachedMessage) :=
  cache.entriesUnder (redirects.follow peer)

/-- Removes an entry. -/
def remove (cache : MessageCache) (redirects : Redirects) (peer : PeerId) (id : String) :
    Op σ Unit :=
  Storage.del (cache.key (redirects.follow peer) id)

/-- Removes the entries of a peer. -/
def removeAll (cache : MessageCache) (redirects : Redirects) (peer : PeerId) : Op σ Unit := do
  let keys ← Storage.list (cache.peerPrefix (redirects.follow peer))
  Storage.writeBatch (keys.map .del)

/-! ## Merging -/

/-- Moves the entries of the absorbed peer to the surviving one. -/
def merge (cache : MessageCache) (surviving absorbed : PeerId) : Op σ Unit := do
  let moved ← cache.entriesUnder absorbed
  Storage.writeBatch (moved.flatMap fun m =>
    [.del (cache.key absorbed m.id),
      .put (cache.key surviving m.id) { m with peer := surviving }.toJson.compact])

/-- The part that the cache takes in merges. -/
def merger (cache : MessageCache) : Merger σ := ⟨"message-cache", cache.merge⟩

end MessageCache

end PeerBook
