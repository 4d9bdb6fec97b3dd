import PeerBook.Storage.Basic

/-!
# PeerBook.Storage.Journaled

A storage that keeps a journal of what was written to it: single writes that
succeeded, and batches as they were begun. Whoever holds an older copy of the
content can bring it up to date by doing what the journal says.

The program runs on a snapshot of its data directory and hands out the journal
at its end. The batches among the entries (`Journaled.batches`) are for whoever
watches a storage from outside: each stands there from when it is begun.
-/

namespace PeerBook

/-- An entry of a journal. -/
inductive JournalEntry where
  | write (w : Write)
  | batch (ws : List Write)
  deriving DecidableEq, Repr

/-- A storage and the journal of its writes, the oldest first. -/
structure Journaled (σ : Type) where
  inner : σ
  journal : List JournalEntry

namespace Journaled

variable {σ α : Type}

/-- Runs an operation on the storage inside. -/
def lift (op : Op σ α) : Op (Journaled σ) α := op.zoom inner fun s j => { j with inner := s }

/-- Adds an entry to the journal. -/
def record (e : JournalEntry) : Op (Journaled σ) Unit :=
  Op.update fun j => { j with journal := j.journal ++ [e] }

instance [Storage σ] : Storage (Journaled σ) where
  get key := lift (Storage.get key)
  put key value := do
    lift (Storage.put key value)
    record (.write (.put key value))
  del key := do
    lift (Storage.del key)
    record (.write (.del key))
  list keyPrefix := lift (Storage.list keyPrefix)
  writeBatch ws := do
    record (.batch ws)
    lift (Storage.writeBatch ws)

/-- The batches of a journal, for whoever watches a storage from outside. -/
def batches (j : Journaled σ) : List (List Write) :=
  j.journal.filterMap fun
    | .batch ws => some ws
    | .write _ => none

/-- A batch stands in the journal from when it is begun, whether it is made then or fails. -/
theorem batches_writeBatch [Storage σ] (ws : List Write) (j : Journaled σ) :
    ((Storage.writeBatch ws : Op (Journaled σ) Unit).run j).state.batches = j.batches ++ [ws] :=
  List.filterMap_append

end Journaled

end PeerBook
