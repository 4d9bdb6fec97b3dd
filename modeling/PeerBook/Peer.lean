import PeerBook.Address.Codec

/-!
# PeerBook.Peer

A peer as the directory knows it: its handle and its address. The record of a
peer is what the directory stores for each of its rows; the handle stands in it
as well as in the key, so that a row can be read without its key.

`Peer.meeting` is the search that every table of addresses offers: the peers of
a list whose address shares an identifier with a request, in the order of the
list. That a record is read back as the peer it was written from is proved in
`PeerBook.Proofs.Directory.Codec`.
-/

namespace PeerBook

/-- A handle and the address of the peer it stands for. -/
structure Peer where
  id : PeerId
  address : Address
  deriving DecidableEq

namespace Peer

open Json

/-- The record of the two. -/
def toJson (p : Peer) : Json :=
  .record [("id", p.id.toJson), ("address", p.address.toJson)]

/-- The fields of the record. -/
def jsonFields : List Field := [field "id" PeerId.ofJson, field "address" Address.ofJson]

/-- Reads a peer. -/
def ofJson : Decoder Peer := fun j => do
  let fs ← asFields jsonFields j
  let id ← fs.required "id" PeerId.ofJson
  let address ← fs.required "address" Address.ofJson
  return ⟨id, address⟩

/-- The peers whose address meets a request, in the order of the list. -/
def meeting (peers : List Peer) (request : Address) : List Peer :=
  peers.filter (·.address.sharesWith request)

end Peer

end PeerBook
