import PeerBook.Storage.Basic

/-!
# PeerBook.Storage.Sequential

A storage whose batches are not atomic: whatever the storage inside could do,
a batch reaches it as single writes in order, and a failure in the middle
leaves the writes before it.

This is the storage on which a change of several keys may be torn, so it is the
one to ask what is left in between. With rules inside (`Guarded`) a chosen write
of a batch can be made to fail.
-/

namespace PeerBook

/-- A storage that applies batches one write after another. -/
structure Sequential (σ : Type) where
  inner : σ

namespace Sequential

variable {σ α : Type}

/-- Runs an operation on the storage inside. -/
def lift (op : Op σ α) : Op (Sequential σ) α := op.zoom inner fun s _ => ⟨s⟩

instance [Storage σ] : Storage (Sequential σ) where
  get key := lift (Storage.get key)
  put key value := lift (Storage.put key value)
  del key := lift (Storage.del key)
  list keyPrefix := lift (Storage.list keyPrefix)

/-- A batch is its writes, one after another; nothing is taken back when one of them fails. -/
theorem writeBatch_eq [Storage σ] (ws : List Write) :
    (Storage.writeBatch ws : Op (Sequential σ) Unit) =
      Write.applyEach Storage.put Storage.del ws := rfl

end Sequential

end PeerBook
