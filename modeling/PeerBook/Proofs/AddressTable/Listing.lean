import PeerBook.Proofs.Directory.Edits
import PeerBook.Proofs.Reconcile.Simulation

/-!
# PeerBook.Proofs.AddressTable.Listing

A plain table in memory: addresses by handle and the handle for the next one,
with nothing in between. A transaction shows such a table (`Transaction.listing`),
and stands for it in full: what is asked of the transaction is answered from the
plain table, and leaves a transaction that shows the plain table after the same
(`Transaction.reflects_simulates`). So it is with edits one after another
(`Transaction.Reflects.editAll`).

The overlay of a transaction is compared here with the simplest thing that it
could be mistaken for. Everything that a transaction answers is covered, the
refusals and the log lines included; what a commit then writes is in
`PeerBook.Proofs.Directory`.
-/

namespace PeerBook

/-- A plain table: addresses by handle, and the handle for the next one. -/
structure Listing where
  rows : Table PeerId Address
  nextId : PeerId
  deriving DecidableEq

namespace Listing

/-- The peers that meet a request, by ascending handle. -/
def meeting (l : Listing) (request : Address) : List Peer :=
  Peer.meeting (Directory.peersOf l.rows) request

/-- Stores an address under the next handle. -/
def add (l : Listing) (a : Address) : Listing := ⟨l.rows.insert l.nextId a, l.nextId.next⟩

/-- Sets or removes the address of a handle. -/
def change (l : Listing) (id : PeerId) : Option Address → Listing
  | some a => { l with rows := l.rows.insert id a }
  | none => { l with rows := l.rows.erase id }

/-- Sets or removes the address of a handle that is there; another is refused. -/
def amend (id : PeerId) (x : Option Address) : Op Listing Unit := do
  if (← Op.state).rows.contains id then
    Op.update (·.change id x)
  else
    Op.fail (.unknownPeer id)

instance : AddressTable Listing where
  find request := do return (← Op.state).meeting request
  add a := do
    let l ← Op.state
    Op.update (·.add a)
    return l.nextId
  update id a := amend id (some a)
  remove id := amend id none

variable (l : Listing)

/-- Amending changes the row of a handle that is there, and refuses a handle that is not; nothing is
logged. -/
theorem run_amend (id : PeerId) (x : Option Address) : (amend id x).run l =
    if l.rows.contains id then ⟨.ok (), l.change id x, []⟩
    else ⟨.error (.unknownPeer id), l, []⟩ := by
  by_cases hc : l.rows.contains id = true
  · simp [amend, hc]
  · simp [amend, hc]

/-- The plain table after an edit. An edit of a handle that is not there does nothing, and
redirects and the account's own handle are none of its business. -/
def edit (l : Listing) : Edit → Listing
  | .add a => l.add a
  | .update id a => if l.rows.contains id then l.change id (some a) else l
  | .remove id => if l.rows.contains id then l.change id none else l
  | .recordMerged _ _ => l
  | .setSelf _ => l

/-- The plain table after edits in order. -/
def editAll (l : Listing) (es : List Edit) : Listing := es.foldl edit l

/-- The peers that meet a request are those rows that share an identifier with it. -/
theorem mem_meeting {request : Address} {p : Peer} : p ∈ l.meeting request ↔
    l.rows.get? p.id = some p.address ∧ p.address.sharesWith request = true :=
  Directory.mem_meeting_peersOf

/-- The peers that meet a request come by ascending handle, each once. -/
theorem ascending_meeting (request : Address) :
    (l.meeting request).Pairwise fun p q => compare p.id q.id = .lt :=
  (Directory.ascending_peersOf l.rows).filter _

end Listing

/-! ## The plain table that a transaction shows -/

/-- The rows of a directory, and the handle for the next one. -/
def Directory.listing (d : Directory) : Listing := ⟨d.rows, d.lastId.next⟩

namespace Transaction

/-- The rows as the transaction sees them, and the handle for the next one. -/
def listing (tx : Transaction) : Listing := ⟨tx.rows, tx.lastId.next⟩

variable {tx : Transaction} {d : Directory} {l : Listing}

theorem listing_begin (d : Directory) : d.begin.listing = d.listing := by
  unfold listing Directory.listing
  rw [rows_begin]
  rfl

/-- A change made in the overlay is one made to the rows. -/
theorem listing_change (tx : Transaction) (id : PeerId) (x : Option Address) :
    (tx.change id x).listing = tx.listing.change id x := by
  have hrows : (tx.change id x).rows = (tx.listing.change id x).rows := by
    refine Table.ext_get? fun i => ?_
    rw [get?_rows_change]
    cases x with
    | some a => exact (Table.get?_insert tx.rows id a i).symm
    | none => exact (Table.get?_erase tx.rows id i).symm
  unfold listing at hrows ⊢
  rw [hrows]
  cases x <;> rfl

/-- An address inserted in the overlay is one added to the rows. -/
theorem listing_insert (tx : Transaction) (a : Address) :
    (tx.insert a).listing = tx.listing.add a :=
  listing_change { tx with lastId := tx.lastId.next } tx.lastId.next (some a)

/-- A transaction on a directory shows a plain table. -/
def Reflects (d : Directory) (tx : Transaction) (l : Listing) : Prop :=
  tx.base = d ∧ tx.listing = l

theorem reflects_begin (d : Directory) : Reflects d d.begin d.listing := ⟨rfl, listing_begin d⟩

/-- A change behind the check of the handle: it is made where the handle has a row and refused where
it has none. -/
theorem run_known_change (tx : Transaction) (id : PeerId) (x : Option Address) :
    (known id >>= fun _ => Op.update (·.change id x)).run tx =
      if tx.rows.contains id then ⟨.ok (), tx.change id x, []⟩
      else ⟨.error (.unknownPeer id), tx, []⟩ := by
  rw [Op.run_bind, run_known]
  split
  · rfl
  · rfl

/-- A change behind that check goes as an amendment of the plain table. -/
theorem known_change_simulates (id : PeerId) (x : Option Address) :
    (known id >>= fun _ => Op.update (·.change id x)).Simulates (Listing.amend id x)
      (Reflects d) := by
  rintro tx l ⟨hb, rfl⟩
  rw [run_known_change, Listing.run_amend]
  show Outcome.Matches _ _ (if tx.rows.contains id then _ else _)
  split
  · exact ⟨rfl, ⟨hb, listing_change tx id x⟩, rfl⟩
  · exact ⟨rfl, ⟨hb, rfl⟩, rfl⟩

/-- **A transaction answers as the plain table that it shows**, and goes on showing it. -/
theorem reflects_simulates (d : Directory) : AddressTable.Simulates (Reflects d) where
  find request := by
    rintro tx l ⟨hb, rfl⟩
    exact ⟨rfl, ⟨hb, rfl⟩, rfl⟩
  add a := by
    rintro tx l ⟨hb, rfl⟩
    exact ⟨rfl, ⟨hb, listing_insert tx a⟩, rfl⟩
  update id a := known_change_simulates id (some a)
  remove id := known_change_simulates id none

/-! ## Edits -/

/-- After an edit of both, a transaction shows the plain table again. An edit that is refused leaves
both as they were, since they have the same rows to refuse it by. -/
theorem Reflects.edit (h : Reflects d tx l) (e : Edit) : Reflects d (tx.edit e) (l.edit e) := by
  obtain ⟨hb, rfl⟩ := h
  cases e with
  | add a => exact ⟨hb, listing_insert tx a⟩
  | update id a =>
      rw [edit_update, Listing.edit]
      show Reflects d _ (if tx.rows.contains id then _ else _)
      split
      · exact ⟨hb, listing_change tx id (some a)⟩
      · exact ⟨hb, rfl⟩
  | remove id =>
      rw [edit_remove, Listing.edit]
      show Reflects d _ (if tx.rows.contains id then _ else _)
      split
      · exact ⟨hb, listing_change tx id none⟩
      · exact ⟨hb, rfl⟩
  | recordMerged absorbed surviving => exact ⟨hb, rfl⟩
  | setSelf id => exact ⟨hb, rfl⟩

/-- **Whatever is asked of a transaction**, it shows the rows of its directory after the same
edits. -/
theorem Reflects.editAll (h : Reflects d tx l) (es : List Edit) :
    Reflects d (tx.editAll es) (l.editAll es) := by
  induction es generalizing tx l with
  | nil => exact h
  | cons e es ih => exact ih (h.edit e)

/-- Edits do not touch the directory that a transaction began on. -/
theorem base_editAll_begin (d : Directory) (es : List Edit) : (d.begin.editAll es).base = d :=
  ((reflects_begin d).editAll es).1

/-- The rows that a transaction shows are those of the plain table after the same edits. -/
theorem rows_editAll_begin (d : Directory) (es : List Edit) :
    (d.begin.editAll es).rows = (d.listing.editAll es).rows :=
  congrArg Listing.rows ((reflects_begin d).editAll es).2

end Transaction

end PeerBook
