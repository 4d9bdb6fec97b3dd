import PeerBook.Storage.Basic
import PeerBook.Table
import PeerBook.Text.Affix

/-!
# PeerBook.Storage.Memory

A storage in memory: a table of values by key. It never fails, and a batch is
applied as a whole.

Its content, `Contents`, is also what the other storages are compared with: a
storage holds a content when reading and listing it answers what the table
answers, and `Contents.apply` says what a write makes of it. The five `run_`
lemmas say that this storage does just that.
-/

namespace PeerBook

/-- The content of a storage. -/
abbrev Contents := Table String String

namespace Contents

/-- The content after a write. -/
def apply (c : Contents) : Write → Contents
  | .put key value => c.insert key value
  | .del key => c.erase key

/-- The content after writes in order. -/
def applyAll (c : Contents) (ws : List Write) : Contents := ws.foldl apply c

/-- The keys that begin with a prefix, ascending. -/
def keysUnder (c : Contents) (keyPrefix : String) : List String :=
  c.keys.filter (Text.hasPrefix keyPrefix)

end Contents

/-- A storage in memory. -/
structure Memory where
  contents : Contents := ∅
  deriving DecidableEq

namespace Memory

/-- Changes the content and cannot fail. -/
def change (f : Contents → Contents) : Op Memory Unit := Op.update fun m => ⟨f m.contents⟩

instance : Storage Memory where
  get key := do return (← Op.state).contents.get? key
  put key value := change (·.insert key value)
  del key := change (·.erase key)
  list keyPrefix := do return (← Op.state).contents.keysUnder keyPrefix
  writeBatch ws := change (·.applyAll ws)

/-! ## What each operation does -/

/-- Reading answers what the table has under the key. -/
@[simp] theorem run_get (key : String) (m : Memory) :
    (Storage.get key : Op Memory _).run m = ⟨.ok (m.contents.get? key), m, []⟩ := rfl

/-- Writing stores a value in the table. -/
@[simp] theorem run_put (key value : String) (m : Memory) :
    (Storage.put key value : Op Memory _).run m =
      ⟨.ok (), ⟨m.contents.insert key value⟩, []⟩ := rfl

/-- Deleting erases a key from the table, whether it was there or not. -/
@[simp] theorem run_del (key : String) (m : Memory) :
    (Storage.del key : Op Memory _).run m = ⟨.ok (), ⟨m.contents.erase key⟩, []⟩ := rfl

/-- Listing answers the keys with the prefix, in ascending order. -/
@[simp] theorem run_list (keyPrefix : String) (m : Memory) :
    (Storage.list keyPrefix : Op Memory _).run m =
      ⟨.ok (m.contents.keysUnder keyPrefix), m, []⟩ := rfl

/-- A batch is its writes, all of them, in order. -/
@[simp] theorem run_writeBatch (ws : List Write) (m : Memory) :
    (Storage.writeBatch ws : Op Memory _).run m =
      ⟨.ok (), ⟨m.contents.applyAll ws⟩, []⟩ := rfl

end Memory

end PeerBook
