import PeerBook.Json.Decoder
import PeerBook.Operation

/-!
# PeerBook.Storage.Basic

Storages of texts under text keys. A storage reads and writes single values,
lists its keys by prefix and applies batches of writes. A storage that has no
better way applies a batch one write after another and stops at the first that
fails; the writes before it stay.

The class `Storage` fixes what can be done and nothing of what is then the case.
What a proof asks of a storage is a structure of its own, in
`PeerBook.Proofs.Storage`: that what is read is what is held, and beyond that
that a batch is made as a whole or not at all, that a failed one leaves one of
its beginnings, or that nothing fails.
-/

namespace PeerBook

/-- A change to one key of a storage. -/
inductive Write where
  | put (key value : String)
  | del (key : String)
  deriving DecidableEq, Repr

/-- The key that a write is about. -/
def Write.key : Write → String
  | put key _ => key
  | del key => key

/-- Applies writes one after another. -/
def Write.applyEach {σ : Type} (put : String → String → Op σ Unit) (del : String → Op σ Unit) :
    List Write → Op σ Unit
  | [] => pure ()
  | .put key value :: ws => do
    put key value
    applyEach put del ws
  | .del key :: ws => do
    del key
    applyEach put del ws

/-- A storage of texts under text keys, as what can be done with it. -/
class Storage (σ : Type) where
  /-- The value under a key, if there is one. -/
  get : String → Op σ (Option String)
  /-- Stores a value under a key. -/
  put : String → String → Op σ Unit
  /-- Removes a key; a missing key is no failure. -/
  del : String → Op σ Unit
  /-- The keys that begin with a prefix. -/
  list : String → Op σ (List String)
  /-- Applies writes in order. -/
  writeBatch : List Write → Op σ Unit := Write.applyEach put del

namespace Storage

variable {σ α : Type} [Storage σ]

/-- Fails with a fault of the storage. -/
def fault {σ α : Type} (f : StorageFault) : Op σ α := Op.fail (.storage f)

/-- The value that the JSON text under a key stands for. -/
def getJson (decoder : Json.Decoder α) (key : String) : Op σ (Option α) := do
  match ← get key with
  | none => return none
  | some raw => Op.ofExcept (((Json.decode decoder raw).map some).mapError .json)

/-- Stores a value under a key as compact JSON. -/
def putJson (key : String) (value : Json) : Op σ Unit := put key value.compact

/-- Runs an operation on each member of a list in order. -/
def forEach {σ α : Type} (f : α → Op σ Unit) : List α → Op σ Unit
  | [] => pure ()
  | a :: as => do
    f a
    forEach f as

/-- Runs an operation on each member of a list in order and keeps what is answered. -/
def collect {σ α β : Type} (f : α → Op σ (Option β)) : List α → Op σ (List β)
  | [] => pure []
  | a :: as => do
    let b ← f a
    let bs ← collect f as
    return b.toList ++ bs

end Storage

end PeerBook
