import PeerBook.Storage.Basic
import PeerBook.Text.Affix

/-!
# PeerBook.Storage.Guarded

A storage that refuses some accesses by rule, as a full disk would. A rule
names a way of access and a prefix of keys. A refused access does nothing, and
a batch is refused as a whole if one of its keys is: the rules for single
writes do not look into it.

The rules may be changed between operations, so failures can be made to begin
and to end; the storage inside is any storage.
-/

namespace PeerBook

/-- The ways to access a storage. -/
inductive Access where
  | get
  | put
  | del
  | list
  | writeBatch
  deriving DecidableEq, Repr

/-- Refuses one way of access to the keys with a prefix. -/
structure Rule where
  access : Access
  keyPrefix : String
  deriving DecidableEq, Repr

/-- A storage with rules in front of it. -/
structure Guarded (σ : Type) where
  inner : σ
  rules : List Rule

namespace Guarded

variable {σ α : Type}

/-- Whether a rule refuses an access to a key. -/
def refuses (g : Guarded σ) (access : Access) (key : String) : Bool :=
  g.rules.any fun r => r.access == access && Text.hasPrefix r.keyPrefix key

/-- Runs an operation on the storage inside, unless one of the keys is refused. -/
def guarded (access : Access) (keys : List String) (op : Op σ α) : Op (Guarded σ) α := do
  if keys.any ((← Op.state).refuses access) then
    Storage.fault (.refused "disk full")
  else
    op.zoom inner fun s g => { g with inner := s }

instance [Storage σ] : Storage (Guarded σ) where
  get key := guarded .get [key] (Storage.get key)
  put key value := guarded .put [key] (Storage.put key value)
  del key := guarded .del [key] (Storage.del key)
  list keyPrefix := guarded .list [keyPrefix] (Storage.list keyPrefix)
  writeBatch ws := guarded .writeBatch (ws.map Write.key) (Storage.writeBatch ws)

end Guarded

end PeerBook
