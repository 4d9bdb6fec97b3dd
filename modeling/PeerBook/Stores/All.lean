import PeerBook.Stores.Identities
import PeerBook.Stores.MessageCache
import PeerBook.Stores.Preferences
import PeerBook.Stores.Profiles
import PeerBook.Stores.SendLog
import PeerBook.Stores.Sessions

/-!
# PeerBook.Stores.All

The six stores of an account, in the order in which they follow a merge:
sessions, identities, profiles, the send log, the message cache and the
preferences.

Each store brings a merger, and no store knows of another, so the order shows
only in the log and in the failures that are reported. `allMergers` is what an
account of the program registers; what is proved about merges in general allows
any other mergers beside these.
-/

namespace PeerBook

/-- The mergers of all stores, given the message cache. -/
def allMergers {σ : Type} [Storage σ] (cache : MessageCache) : List (Merger σ) :=
  [Sessions.merger, Identities.merger, Profiles.merger, SendLog.merger, cache.merger,
    Preferences.merger]

end PeerBook
