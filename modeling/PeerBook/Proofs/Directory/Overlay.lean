import PeerBook.Directory.Transaction
import PeerBook.Proofs.AddressTable.Lawful

/-!
# PeerBook.Proofs.Directory.Overlay

A transaction is a lawful table: its rows are those of the directory it began
on, with its own changes over them. So what is proved of a resolution on lawful
tables holds inside a transaction.

The laws come down to two equations, `Transaction.get?_rows_change` for a change
and the same for an insertion, and to what is found in a table of rows
(`Directory.mem_meeting_peersOf`): peers are listed by ascending handle, so none
of them twice. A transaction is sound when the next handle has no row, which is
what lets it insert one.
-/

namespace PeerBook

namespace Directory

/-- The peers of a table are its rows with their handles. -/
theorem mem_peersOf {rows : Table PeerId Address} {p : Peer} :
    p ∈ peersOf rows ↔ rows.get? p.id = some p.address := by
  rw [Table.get?_eq_some_iff, peersOf, List.mem_map]
  constructor
  · rintro ⟨e, he, rfl⟩
    exact he
  · intro h
    exact ⟨_, h, rfl⟩

/-- The handles of the peers are the keys of the table. -/
theorem map_id_peersOf (rows : Table PeerId Address) : (peersOf rows).map Peer.id = rows.keys := by
  rw [peersOf, List.map_map]
  rfl

/-- The peers are listed by ascending handle. -/
theorem ascending_peersOf (rows : Table PeerId Address) :
    (peersOf rows).Pairwise fun p q => compare p.id q.id = .lt := by
  rw [peersOf, List.pairwise_map]
  exact rows.sorted

/-- The peers that meet a request are the rows that share an identifier with it. -/
theorem mem_meeting_peersOf {rows : Table PeerId Address} {request : Address} {p : Peer} :
    p ∈ Peer.meeting (peersOf rows) request ↔
      rows.get? p.id = some p.address ∧ p.address.sharesWith request = true := by
  rw [Peer.meeting, List.mem_filter, mem_peersOf]

/-- No peer meets a request twice. -/
theorem nodup_meeting_peersOf (rows : Table PeerId Address) (request : Address) :
    ((Peer.meeting (peersOf rows) request).map Peer.id).Nodup := by
  refine List.Nodup.sublist (List.filter_sublist.map Peer.id) ?_
  rw [map_id_peersOf]
  exact rows.nodup_keys

end Directory

namespace Transaction

/-! ## The rows after a change -/

/-- A row is as the transaction changed it, or as it was in the directory. -/
theorem get?_rows (tx : Transaction) (i : PeerId) :
    tx.rows.get? i = (tx.changes.get? i).getD (tx.base.rows.get? i) := by
  rw [rows, Table.get?_overlay]
  cases tx.changes.get? i <;> rfl

/-- A change shows at its handle and nowhere else. -/
theorem get?_rows_change (tx : Transaction) (id : PeerId) (x : Option Address) (i : PeerId) :
    (tx.change id x).rows.get? i = if i = id then x else tx.rows.get? i := by
  rw [get?_rows, get?_rows, change, Table.get?_insert]
  split <;> rfl

theorem rows_begin (d : Directory) : d.begin.rows = d.rows :=
  Table.ext_get? fun i => get?_rows d.begin i

/-! ## The laws -/

/-- The next handle has no row. -/
def Sound (tx : Transaction) : Prop := tx.rows.get? tx.lastId.next = none

/-- Stores an address under the next handle. -/
def insert (tx : Transaction) (a : Address) : Transaction :=
  { tx with lastId := tx.lastId.next }.change tx.lastId.next (some a)

/-- A handle with a row passes the check. -/
theorem known_returns {tx : Transaction} {id : PeerId} (h : tx.rows.get? id ≠ none) :
    (known id).run tx = ⟨.ok (), tx, []⟩ := by
  have hc : tx.rows.contains id = true := by
    rw [Table.contains, Option.isSome_iff_ne_none]
    exact h
  simp [known, hc]

/-- A change of a handle that has a row leaves the next handle free. -/
theorem sound_change {tx : Transaction} (h : tx.Sound) {id : PeerId} (x : Option Address)
    (hid : tx.rows.get? id ≠ none) : (tx.change id x).Sound := by
  have hne : tx.lastId.next ≠ id := by
    rintro rfl
    exact hid h
  show (tx.change id x).rows.get? tx.lastId.next = none
  rw [get?_rows_change, if_neg hne]
  exact h

instance : LawfulAddressTable Transaction where
  row tx := tx.rows.get?
  nextId tx := tx.lastId.next
  found tx := Peer.meeting (Directory.peersOf tx.rows)
  change := change
  insert := insert
  Sound := Sound
  run_find _ _ := rfl
  run_add _ _ := rfl
  run_update a hid := by
    rw [AddressTable.update, instAddressTable]
    dsimp only
    rw [Op.run_bind, known_returns hid]
    rfl
  run_remove hid := by
    rw [AddressTable.remove, instAddressTable]
    dsimp only
    rw [Op.run_bind, known_returns hid]
    rfl
  row_nextId h := h
  mem_found _ := Directory.mem_meeting_peersOf
  nodup_found {tx} _ := Directory.nodup_meeting_peersOf tx.rows
  sound_change x h hid := sound_change h x hid
  nextId_change _ _ _ := rfl
  row_change x _ _ := get?_rows_change _ _ x
  row_insert {tx} a _ := get?_rows_change { tx with lastId := tx.lastId.next } _ (some a)

end Transaction

end PeerBook
