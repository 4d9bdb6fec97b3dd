import PeerBook.Operation
import PeerBook.Peer

/-!
# PeerBook.AddressTable

What a resolution needs of a table of addresses: to find the peers that share
an identifier with an address, and to add, replace and remove addresses. A
resolution is written against the class `AddressTable` alone, so it runs on the
directory's own transaction as well as on the plain table `Rows`, which is a
list of peers in the order they came.

`Rows` is the table that a resolution is specified on: the four `run_` lemmas
say what each operation answers and leaves there, and none of them can fail.
What is asked of other tables, and that they then behave like this one, is in
`PeerBook.Proofs.AddressTable`.
-/

namespace PeerBook

/-- A table of addresses, as what can be done with it. -/
class AddressTable (τ : Type) where
  /-- The peers whose address shares an identifier with the given one. -/
  find : Address → Op τ (List Peer)
  /-- Stores an address under a new handle. -/
  add : Address → Op τ PeerId
  /-- Replaces the address of a handle. -/
  update : PeerId → Address → Op τ Unit
  /-- Removes a handle and its address. -/
  remove : PeerId → Op τ Unit

/-- A plain table: the peers in the order they came, and the handle for the next one. -/
structure Rows where
  peers : List Peer
  nextId : PeerId
  deriving DecidableEq

namespace Rows

/-- Adds a peer at the end. -/
def add (rows : Rows) (a : Address) : Rows :=
  ⟨rows.peers ++ [⟨rows.nextId, a⟩], rows.nextId.next⟩

/-- Replaces the address of a handle, if it is there. -/
def update (rows : Rows) (id : PeerId) (a : Address) : Rows :=
  { rows with peers := rows.peers.map fun p => if p.id = id then { p with address := a } else p }

/-- Removes a handle, if it is there. -/
def remove (rows : Rows) (id : PeerId) : Rows :=
  { rows with peers := rows.peers.filter fun p => p.id != id }

instance : AddressTable Rows where
  find request := do return Peer.meeting (← Op.state).peers request
  add a := do
    let rows ← Op.state
    Op.update (·.add a)
    return rows.nextId
  update id a := Op.update (·.update id a)
  remove id := Op.update (·.remove id)

/-! ## What each operation does -/

/-- Finding answers the peers that meet the request, in the order they came, and changes nothing. -/
@[simp] theorem run_find (request : Address) (rows : Rows) :
    (AddressTable.find request : Op Rows _).run rows =
      ⟨.ok (Peer.meeting rows.peers request), rows, []⟩ := rfl

/-- Adding answers the handle that was next, and puts the address at the end under it. -/
@[simp] theorem run_add (a : Address) (rows : Rows) :
    (AddressTable.add a : Op Rows _).run rows = ⟨.ok rows.nextId, rows.add a, []⟩ := rfl

@[simp] theorem run_update (id : PeerId) (a : Address) (rows : Rows) :
    (AddressTable.update id a : Op Rows _).run rows = ⟨.ok (), rows.update id a, []⟩ := rfl

/-- Removing takes the row of a handle away; a handle without a row is left alone. -/
@[simp] theorem run_remove (id : PeerId) (rows : Rows) :
    (AddressTable.remove id : Op Rows _).run rows = ⟨.ok (), rows.remove id, []⟩ := rfl

end Rows

end PeerBook
