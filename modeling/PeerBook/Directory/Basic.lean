import PeerBook.Peer
import PeerBook.Redirects
import PeerBook.Storage.Basic
import PeerBook.Text.Blank

/-!
# PeerBook.Directory.Basic

The directory of an account: an address for each live handle, a redirect for
each handle that a merge absorbed, the last handle that was given out, and the
handle of the account itself. It is read once from storage
(`Directory.load`); rows that cannot be read are passed over.

- Look-ups go by the order of the handles, so of several peers that match alike
  the one with the lowest handle is answered.
- A handle is followed through the redirects before it is looked up, so one
  that was absorbed still leads to a peer.
- Each row and each redirect has a key of its own in the storage; the counter
  and the account's handle have one each.

An identifier that several rows carry is reported when it is read, not mended:
a later trusted resolution may merge the rows.
-/

namespace PeerBook

/-- The peers of an account. -/
structure Directory where
  rows : Table PeerId Address
  redirects : Redirects
  lastId : PeerId
  self : Option PeerId
  deriving DecidableEq

namespace Directory

/-- The directory of a new account. -/
def empty : Directory := ⟨∅, ∅, ⟨0⟩, none⟩

/-! ## Look-ups -/

/-- The peers of a table of addresses, by ascending handle. -/
def peersOf (rows : Table PeerId Address) : List Peer := rows.entries.map fun (id, a) => ⟨id, a⟩

/-- All peers, by ascending handle. -/
def all (d : Directory) : List Peer := peersOf d.rows

/-- The number of peers. -/
def size (d : Directory) : Nat := d.rows.size

/-- The handle that a handle stands for now. -/
def follow (d : Directory) (id : PeerId) : PeerId := d.redirects.follow id

/-- The peer that a handle stands for now. -/
def get? (d : Directory) (id : PeerId) : Option Peer :=
  (d.rows.get? (d.follow id)).map (⟨d.follow id, ·⟩)

/-- The handle that stands for the account itself. -/
def selfId (d : Directory) : Option PeerId := d.self.map d.follow

/-- The first peer with a given account identity. -/
def findAci? (d : Directory) (aci : Aci) : Option Peer := d.all.find? (·.address.aci == some aci)

/-- The first peer with a given phone-number identity. -/
def findPni? (d : Directory) (pni : Pni) : Option Peer := d.all.find? (·.address.pni == some pni)

/-- The first peer with a given phone number. -/
def findNumber? (d : Directory) (number : String) : Option Peer :=
  d.all.find? fun p => p.address.number.any (·.text == number)

/-- The first peer with a given username. -/
def findUsername? (d : Directory) (username : String) : Option Peer :=
  d.all.find? fun p => p.address.username.any (·.text == username)

/-- Of a list of ranked peers the first with the highest rank. -/
def highest? : List (Kind × Peer) → Option (Kind × Peer)
  | [] => none
  | c :: cs =>
    match highest? cs with
    | none => some c
    | some d => if c.1 < d.1 then some d else some c

/-- The peer that agrees with an address on the strongest kind; of several the one with the
lowest handle. -/
def bestMatch? (d : Directory) (a : Address) : Option Peer :=
  (highest? (d.all.filterMap fun p => (p.address.rank a).map (·, p))).map (·.2)

/-! ## Shared identifiers -/

/-- The handles whose address carries an identifier, ascending. -/
def owners (rows : Table PeerId Address) (x : Identifier) : List PeerId :=
  (rows.filter fun _ a => a.identifiers.contains x).keys

/-- The identifiers of a table, each once. -/
def identifiersOf (rows : Table PeerId Address) : List Identifier :=
  (rows.values.flatMap Address.identifiers).eraseDups

/-- The identifiers that more than one row carries. -/
def sharedIdentifiers (rows : Table PeerId Address) : List Identifier :=
  (identifiersOf rows).filter fun x => 1 < (owners rows x).length

/-! ## Stored form -/

/-- The keys of the rows begin with this. -/
def rowPrefix : String := "v1/recipient/"

/-- The keys of the redirects begin with this. -/
def mergedPrefix : String := "v1/recipient-merged/"

/-- The key of the last handle. -/
def lastIdKey : String := "v1/recipient-last-id"

/-- The key of the account's own handle. -/
def selfKey : String := "v1/recipient-self"

/-- The key of a row. -/
def rowKey (id : PeerId) : String := rowPrefix ++ toString id

/-- The key of a redirect. -/
def mergedKey (id : PeerId) : String := mergedPrefix ++ toString id

/-- A redirect as it is stored. -/
structure Merge where
  absorbed : PeerId
  surviving : PeerId
  deriving DecidableEq

namespace Merge

open Json

/-- The record of the two handles. -/
def toJson (m : Merge) : Json :=
  .record [("absorbed", m.absorbed.toJson), ("surviving", m.surviving.toJson)]

/-- Reads a redirect. -/
def ofJson : Decoder Merge := fun j => do
  let fs ← asFields [field "absorbed" PeerId.ofJson, field "surviving" PeerId.ofJson] j
  let absorbed ← fs.required "absorbed" PeerId.ofJson
  let surviving ← fs.required "surviving" PeerId.ofJson
  return ⟨absorbed, surviving⟩

end Merge

/-! ## Reading it from storage -/

variable {σ α : Type} [Storage σ]

/-- Reads the values under a prefix; those that cannot be read are named in the log. -/
def loadRows (keyPrefix what : String) (decoder : Json.Decoder α) : Op σ (List α) := do
  Storage.collect
    (fun key => do
      match ← Storage.get key with
      | none => return none
      | some raw =>
        match Json.decode decoder raw with
        | .ok a => return some a
        | .error _ =>
          Op.note .warn ("Skipping unreadable " ++ what ++ " row " ++ key)
          return none)
    (← Storage.list keyPrefix)

/-- The last handle that was given out, as it was stored. -/
def loadLastId : Op σ PeerId := do
  match ← Storage.get lastIdKey with
  | none => return ⟨0⟩
  | some raw =>
    Op.ofExcept (((Text.readUInt64 (Text.trimBlank raw)).map PeerId.mk).mapError .counter)

/-- The account's own handle, as it was stored. -/
def loadSelf : Op σ (Option PeerId) := do
  match ← Storage.get selfKey with
  | none => return none
  | some raw => Op.ofExcept ((PeerId.parse (Text.trimBlank raw)).map some)

/-- The line about an identifier that several rows carry. -/
def sharedNotice (rows : Table PeerId Address) (x : Identifier) : String :=
  "Recipients " ++ String.intercalate ", " ((owners rows x).map toString) ++ " share the same " ++
    toString x.kind ++ "; the next trusted resolve of it will reconcile them"

/-- Reads a directory. The last handle is at least as high as every handle that was read. -/
def load : Op σ Directory := do
  let peers ← loadRows rowPrefix "recipient" Peer.ofJson
  let merges ← loadRows mergedPrefix "merge" Merge.ofJson
  let stored ← loadLastId
  let self ← loadSelf
  let rows := Table.ofList (peers.map fun p => (p.id, p.address))
  let redirects := Table.ofList (merges.map fun m => (m.absorbed, m.surviving))
  let seen := rows.keys ++ redirects.keys ++ redirects.values
  Storage.forEach (fun x => Op.note .warn (sharedNotice rows x)) (sharedIdentifiers rows)
  return ⟨rows, redirects, seen.foldl PeerId.max stored, self⟩

end Directory

end PeerBook
