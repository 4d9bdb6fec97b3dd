import PeerBook.Directory.Basic
import PeerBook.Reconcile

/-!
# PeerBook.Directory.Transaction

Changes to a directory that take effect together. A transaction is an overlay
over the directory it began on: it reads its own changes, and nothing else sees
them before it is committed. A commit first refuses identifiers that would get
a second owner, then writes one batch, and only then publishes the new
directory. The batch is ordered so that no part of it, cut off anywhere, lets
two rows carry one identifier: rows that only lose come first, then removals
and redirects, then rows that gain.
-/

namespace PeerBook

/-- Changes over a directory. -/
structure Transaction where
  base : Directory
  /-- The new address of a handle, or none for a removed one. -/
  changes : Table PeerId (Option Address)
  /-- The absorbed and the surviving handle of each merge, the oldest first. -/
  merged : List (PeerId × PeerId)
  self : Option PeerId
  lastId : PeerId
  deriving DecidableEq

/-- A transaction without changes. -/
def Directory.begin (d : Directory) : Transaction := ⟨d, ∅, [], none, d.lastId⟩

namespace Transaction

/-! ## The overlay -/

/-- The rows as the transaction sees them. -/
def rows (tx : Transaction) : Table PeerId Address := tx.base.rows.overlay tx.changes

/-- Sets or removes the address of a handle. -/
def change (tx : Transaction) (id : PeerId) (address : Option Address) : Transaction :=
  { tx with changes := tx.changes.insert id address }

/-- Fails unless a handle has a row. -/
def known (id : PeerId) : Op Transaction Unit := do
  unless (← Op.state).rows.contains id do
    Op.fail (.unknownPeer id)

instance : AddressTable Transaction where
  find request := do return Peer.meeting (Directory.peersOf (← Op.state).rows) request
  add a := do
    let id := (← Op.state).lastId.next
    Op.update fun tx => { tx with lastId := id }.change id (some a)
    return id
  update id a := do
    known id
    Op.update (·.change id (some a))
  remove id := do
    known id
    Op.update (·.change id none)

/-- Redirects a handle to another. -/
def recordMerged (tx : Transaction) (absorbed surviving : PeerId) : Transaction :=
  { tx with merged := tx.merged ++ [(absorbed, surviving)] }

/-- Makes a handle that of the account itself. -/
def setSelf (tx : Transaction) (id : PeerId) : Transaction := { tx with self := some id }

/-- Whether there is anything to commit. -/
def hasChanges (tx : Transaction) : Bool :=
  !tx.changes.entries.isEmpty || !tx.merged.isEmpty || tx.self.isSome

/-- The handle that a handle will stand for. -/
def follow (tx : Transaction) (id : PeerId) : PeerId :=
  tx.merged.foldl (fun id (absorbed, surviving) => if absorbed = id then surviving else id)
    (tx.base.follow id)

/-! ## What a commit checks -/

/-- Whether an identifier gets an owner too many: a changed row carries it, another does too, and
not all of these carried it before. -/
def overshares (tx : Transaction) (x : Identifier) : Bool :=
  let after := Directory.owners tx.rows x
  let before := Directory.owners tx.base.rows x
  1 < after.length && after.any tx.changes.contains && !after.all before.contains

/-- The refusal of an identifier that gets an owner too many. -/
def ownershipFault (tx : Transaction) (x : Identifier) : StorageFault :=
  let owners := Directory.owners tx.rows x
  .alreadyOwned x.kind (owners.getLast?.getD default) (owners.head?.getD default)

/-- Why a commit is refused, if it is. -/
def violation? (tx : Transaction) : Option StorageFault :=
  ((Directory.identifiersOf tx.rows).find? tx.overshares).map tx.ownershipFault

/-! ## What a commit writes -/

/-- Whether a change leaves a row only identifiers that it had before. -/
def onlyLoses (tx : Transaction) (id : PeerId) (a : Address) : Bool :=
  (tx.base.rows.get? id).any (·.covers a)

/-- The write of a row. -/
def rowWrite (id : PeerId) (a : Address) : Write :=
  .put (Directory.rowKey id) (Peer.mk id a).toJson.compact

/-- The write of a redirect. -/
def mergeWrite (m : PeerId × PeerId) : Write :=
  .put (Directory.mergedKey m.1) (Directory.Merge.mk m.1 m.2).toJson.compact

/-- The rows that only lose identifiers. -/
def strips (tx : Transaction) : List Write :=
  tx.changes.entries.filterMap fun (id, change) =>
    change.bind fun a => if tx.onlyLoses id a then some (rowWrite id a) else none

/-- The rows that go, and the redirects of merges. -/
def removals (tx : Transaction) : List Write :=
  tx.changes.entries.filterMap (fun (id, change) =>
    if change.isNone then some (.del (Directory.rowKey id)) else none) ++
    tx.merged.map mergeWrite

/-- The rows that are new or gain identifiers. -/
def gains (tx : Transaction) : List Write :=
  tx.changes.entries.filterMap fun (id, change) =>
    change.bind fun a => if tx.onlyLoses id a then none else some (rowWrite id a)

/-- The last handle and the account's own, if they changed. -/
def trailer (tx : Transaction) : List Write :=
  (if tx.lastId = tx.base.lastId then [] else [.put Directory.lastIdKey (toString tx.lastId)]) ++
    (tx.self.map fun id => .put Directory.selfKey (toString id)).toList

/-- The batch of a commit. -/
def writes (tx : Transaction) : List Write :=
  tx.strips ++ tx.removals ++ tx.gains ++ tx.trailer

/-! ## Committing -/

/-- The directory with the changes made. -/
def published (tx : Transaction) : Directory where
  rows := tx.rows
  redirects := tx.base.redirects.insertAll tx.merged
  lastId := tx.lastId
  self := tx.self.or tx.base.self

/-- Writes the changes and answers the directory that holds after them. -/
def commit {σ : Type} [Storage σ] (tx : Transaction) : Op σ Directory := do
  if tx.hasChanges then
    match tx.violation? with
    | some f => Storage.fault f
    | none =>
      Storage.writeBatch tx.writes
      return tx.published
  else
    return tx.base

end Transaction

end PeerBook
