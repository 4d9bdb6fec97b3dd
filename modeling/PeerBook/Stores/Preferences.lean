import PeerBook.Account.Basic

/-!
# PeerBook.Stores.Preferences

Local settings by peer, and the set of peers whose settings have to be
uploaded. A changed setting marks its peer. When a peer is absorbed its
settings fill the gaps of the survivor's, which is marked in any case, since
its record now describes both.

Settings and marks are two families of keys; an update writes both in one
batch, the settings first and then the mark. Settings that did not change are
not written again, and their peer is not marked either.
-/

namespace PeerBook

/-- The settings of a peer; an absent one has its default. -/
structure Preferences where
  mutedUntil : Option UInt64
  expirationTimerSecs : Option UInt32
  blocked : Option Bool
  archived : Option Bool
  deriving DecidableEq

namespace Preferences

/-- The default settings. -/
def empty : Preferences := ⟨none, none, none, none⟩

/-- The settings with their gaps filled from others. -/
def or (p q : Preferences) : Preferences where
  mutedUntil := p.mutedUntil.or q.mutedUntil
  expirationTimerSecs := p.expirationTimerSecs.or q.expirationTimerSecs
  blocked := p.blocked.or q.blocked
  archived := p.archived.or q.archived

open Json

/-- The record of the settings that are present. -/
def toJson (p : Preferences) : Json :=
  .record
    [("mutedUntil", p.mutedUntil.map fun t => .nat t.toNat),
      ("expirationTimerSecs", p.expirationTimerSecs.map fun t => .nat t.toNat),
      ("blocked", p.blocked.map .bool), ("archived", p.archived.map .bool)]

/-- The fields of the record; each may be left out. -/
def jsonFields : List Field :=
  [fieldOr "mutedUntil" (asOptional asUInt64), fieldOr "expirationTimerSecs" (asOptional asUInt32),
    fieldOr "blocked" (asOptional asBool), fieldOr "archived" (asOptional asBool)]

/-- Reads settings. -/
def ofJson : Decoder Preferences := fun j => do
  let fs ← asFields jsonFields j
  let mutedUntil ← fs.getD "mutedUntil" (asOptional asUInt64) none
  let expirationTimerSecs ← fs.getD "expirationTimerSecs" (asOptional asUInt32) none
  let blocked ← fs.getD "blocked" (asOptional asBool) none
  let archived ← fs.getD "archived" (asOptional asBool) none
  return ⟨mutedUntil, expirationTimerSecs, blocked, archived⟩

/-! ## Keys -/

/-- The keys of all settings begin with this. -/
def keyPrefix : String := "v1/preferences/"

/-- The keys of all marks begin with this. -/
def syncPrefix : String := "v1/storage-sync/"

/-- The key of the settings of a peer. -/
def key (peer : PeerId) : String := keyPrefix ++ toString peer

/-- The key of the mark of a peer. -/
def syncKey (peer : PeerId) : String := syncPrefix ++ toString peer

/-- What is stored for a mark. -/
def mark : String := (Json.bool true).compact

/-! ## Operations -/

variable {σ : Type} [Storage σ]

/-- The settings under the key of a peer. -/
def load (peer : PeerId) : Op σ Preferences := do
  return (← Storage.getJson ofJson (key peer)).getD .empty

/-- The settings of a peer. -/
def get (redirects : Redirects) (peer : PeerId) : Op σ Preferences := load (redirects.follow peer)

/-- Saves the settings of a peer, and marks it if they changed. -/
def update (redirects : Redirects) (peer : PeerId) (preferences : Preferences) : Op σ Unit := do
  let peer := redirects.follow peer
  unless (← load peer) = preferences do
    Storage.writeBatch
      [.put (key peer) preferences.toJson.compact, .put (syncKey peer) mark]

/-- Marks a peer. -/
def markForSync (redirects : Redirects) (peer : PeerId) : Op σ Unit :=
  Storage.put (syncKey (redirects.follow peer)) mark

/-- Removes the mark of a peer. -/
def clearSync (redirects : Redirects) (peer : PeerId) : Op σ Unit :=
  Storage.del (syncKey (redirects.follow peer))

/-- The marked peers, ascending. -/
def needSync : Op σ (List PeerId) := do
  let keys ← Storage.list syncPrefix
  return (keys.filterMap fun k => (Text.afterPrefix? syncPrefix k).bind PeerId.parse?).mergeSort
    fun a b => (compare a b).isLE

/-! ## Merging -/

/-- Fills the gaps of the survivor's settings from those of the absorbed peer, which go, and
moves the mark. -/
def merge (surviving absorbed : PeerId) : Op σ Unit := do
  let settings : List Write ←
    match ← Storage.getJson ofJson (key absorbed) with
    | none => pure []
    | some theirs =>
      let merged := (← load surviving).or theirs
      pure [.put (key surviving) merged.toJson.compact, .del (key absorbed)]
  Storage.writeBatch (settings ++ [.put (syncKey surviving) mark, .del (syncKey absorbed)])

/-- The part that the settings take in merges. -/
def merger : Merger σ := ⟨"preferences", merge⟩

end Preferences

end PeerBook
