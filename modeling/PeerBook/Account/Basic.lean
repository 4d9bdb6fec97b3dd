import PeerBook.Directory.Transaction

/-!
# PeerBook.Account.Basic

An account: its storage, its directory, the stores that follow merges of peers,
and the events that were sent. A store takes part in merges through its merger,
which moves what it has under the absorbed handle to the surviving one. A
merger that fails does not stop the others.

A merger gets the handles and the storage, and nothing of the directory, so it
cannot have a say in who was merged. What it answers is a failure or nothing;
failures are collected with the name of the store, told in the log, and handed
to whoever asked for the resolution.
-/

namespace PeerBook

/-- What an account tells those who listen. -/
inductive Event where
  | created (peer : PeerId)
  | addressChanged (peer : PeerId)
  | merged (surviving absorbed : PeerId)
  | cascadeFailed (failure : CascadeFailure)
  deriving DecidableEq

/-- A store's part in a merge: the surviving handle comes first, then the absorbed one. -/
structure Merger (σ : Type) where
  name : String
  merge : PeerId → PeerId → Op σ Unit

/-- An account on a storage. -/
structure Account (σ : Type) where
  storage : σ
  directory : Directory
  mergers : List (Merger σ)
  /-- The events sent so far, the oldest first. -/
  events : List Event

namespace Account

variable {σ α : Type}

/-- Runs an operation on the storage of an account. -/
def onStorage (op : Op σ α) : Op (Account σ) α :=
  op.zoom storage fun s account => { account with storage := s }

/-- Sends events. -/
def send (events : List Event) : Op (Account σ) Unit :=
  Op.update fun account => { account with events := account.events ++ events }

/-- The account on a storage, with its directory read anew. -/
def load [Storage σ] (mergers : List (Merger σ)) : Op σ (Account σ) := do
  let directory ← Directory.load
  return ⟨← Op.state, directory, mergers, []⟩

/-- Adds a merger after the others. -/
def register (account : Account σ) (m : Merger σ) : Account σ :=
  { account with mergers := account.mergers ++ [m] }

end Account

/-! ## Cascades -/

/-- Lets one merger follow a merge, and answers its failure if it fails. -/
def Merger.follow {σ : Type} (surviving absorbed : PeerId) (m : Merger σ) :
    Op σ (Option CascadeFailure) := do
  match ← (m.merge surviving absorbed).attempt with
  | .ok () => return none
  | .error e =>
    Op.note .warn ("Failed to merge recipient " ++ toString absorbed ++ " into " ++
      toString surviving ++ " in " ++ m.name ++ ": " ++ e.message)
    return some ⟨m.name, surviving, absorbed, e.message⟩

/-- Lets every merger follow a merge, in order, and answers the failures. -/
def mergeAll {σ : Type} (mergers : List (Merger σ)) (surviving absorbed : PeerId) :
    Op σ (List CascadeFailure) :=
  Storage.collect (Merger.follow surviving absorbed) mergers

end PeerBook
