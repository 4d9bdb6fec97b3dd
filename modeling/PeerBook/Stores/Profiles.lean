import PeerBook.Account.Basic
import PeerBook.Text.Base64

/-!
# PeerBook.Stores.Profiles

The profile key of each peer and the profile that was last fetched with it. A
new key makes the profile stale: it is kept, but without the time of its fetch.
When a peer is absorbed its key and the fields of its profile fill the gaps of
the survivor's.

Filling gaps (`Profile.or`, `ProfileEntry.or`) goes field by field and leaves
alone what the survivor has; the time of the fetch is a field like the others.
-/

namespace PeerBook

/-- A profile. -/
structure Profile where
  givenName : Option String
  familyName : Option String
  about : Option String
  /-- The names of capabilities. -/
  capabilities : Table String Unit
  /-- When the profile was fetched, in milliseconds; none if it has to be fetched again. -/
  lastUpdate : Option UInt64
  deriving DecidableEq

namespace Profile

/-- The profile that says nothing. -/
def empty : Profile := ⟨none, none, none, ∅, none⟩

/-- The profile with its gaps filled from another; no capabilities are a gap. -/
def or (p q : Profile) : Profile where
  givenName := p.givenName.or q.givenName
  familyName := p.familyName.or q.familyName
  about := p.about.or q.about
  capabilities := if p.capabilities.entries.isEmpty then q.capabilities else p.capabilities
  lastUpdate := p.lastUpdate.or q.lastUpdate

open Json

/-- The record of what the profile says. -/
def toJson (p : Profile) : Json :=
  .record
    [("givenName", p.givenName.map .text), ("familyName", p.familyName.map .text),
      ("about", p.about.map .text),
      ("capabilities",
        if p.capabilities.entries.isEmpty then none
        else some (.array (p.capabilities.keys.map .text))),
      ("lastUpdate", p.lastUpdate.map fun t => .nat t.toNat)]

/-- A set of texts. -/
def setOf (texts : List String) : Table String Unit := Table.ofList (texts.map fun s => (s, ()))

/-- Reads a set of texts. -/
def setOfJson : Decoder (Table String Unit) := fun j => (asList asText j).map setOf

/-- The fields of a profile; each may be left out. -/
def jsonFields : List Field :=
  [fieldOr "givenName" (asOptional asText), fieldOr "familyName" (asOptional asText),
    fieldOr "about" (asOptional asText), fieldOr "capabilities" setOfJson,
    fieldOr "lastUpdate" (asOptional asUInt64)]

/-- Reads a profile. -/
def ofJson : Decoder Profile := fun j => do
  let fs ← asFields jsonFields j
  let givenName ← fs.getD "givenName" (asOptional asText) none
  let familyName ← fs.getD "familyName" (asOptional asText) none
  let about ← fs.getD "about" (asOptional asText) none
  let capabilities ← fs.getD "capabilities" setOfJson ∅
  let lastUpdate ← fs.getD "lastUpdate" (asOptional asUInt64) none
  return ⟨givenName, familyName, about, capabilities, lastUpdate⟩

end Profile

/-- What is stored of a peer: the profile key in base 64, and the profile. -/
structure ProfileEntry where
  profileKey : Option String
  profile : Option Profile
  deriving DecidableEq

namespace ProfileEntry

/-- The entry of a peer of whom nothing is known. -/
def empty : ProfileEntry := ⟨none, none⟩

/-- The entry with its gaps filled from another. -/
def or (e f : ProfileEntry) : ProfileEntry where
  profileKey := e.profileKey.or f.profileKey
  profile :=
    match e.profile, f.profile with
    | some p, some q => some (p.or q)
    | p, q => p.or q

open Json

/-- The record of an entry. -/
def toJson (e : ProfileEntry) : Json :=
  .record [("profileKey", e.profileKey.map .text), ("profile", e.profile.map Profile.toJson)]

/-- Reads an entry. -/
def ofJson : Decoder ProfileEntry := fun j => do
  let fs ← asFields [fieldOr "profileKey" (asOptional asText),
    fieldOr "profile" (asOptional Profile.ofJson)] j
  let profileKey ← fs.getD "profileKey" (asOptional asText) none
  let profile ← fs.getD "profile" (asOptional Profile.ofJson) none
  return ⟨profileKey, profile⟩

end ProfileEntry

namespace Profiles

/-- The keys of all profiles begin with this. -/
def keyPrefix : String := "v1/profile/"

/-- The key of the entry of a peer. -/
def key (peer : PeerId) : String := keyPrefix ++ toString peer

/-! ## Operations -/

variable {σ : Type} [Storage σ]

/-- The entry under the key of a peer. -/
def load (peer : PeerId) : Op σ (Option ProfileEntry) :=
  Storage.getJson ProfileEntry.ofJson (key peer)

/-- The profile key of a peer. -/
def profileKey (redirects : Redirects) (peer : PeerId) : Op σ (Option (List UInt8)) := do
  match (← load (redirects.follow peer)).bind (·.profileKey) with
  | none => return none
  | some encoded =>
    match Text.Base64.decode? encoded with
    | some bytes => return some bytes
    | none => Op.fail .base64

/-- Stores the profile key of a peer; another key than before makes its profile stale. -/
def storeKey (redirects : Redirects) (peer : PeerId) (profileKey : List UInt8) : Op σ Unit := do
  let peer := redirects.follow peer
  let encoded := Text.Base64.encode profileKey
  let entry := (← load peer).getD .empty
  unless entry.profileKey = some encoded do
    let stale := entry.profile.map fun p => { p with lastUpdate := none }
    Storage.putJson (key peer) (ProfileEntry.mk (some encoded) stale).toJson

/-- The profile of a peer. -/
def profile (redirects : Redirects) (peer : PeerId) : Op σ (Option Profile) := do
  return (← load (redirects.follow peer)).bind (·.profile)

/-- Stores the profile of a peer. -/
def store (redirects : Redirects) (peer : PeerId) (profile : Profile) : Op σ Unit := do
  let peer := redirects.follow peer
  let entry := (← load peer).getD .empty
  Storage.putJson (key peer) { entry with profile := some profile }.toJson

/-! ## Merging -/

/-- Fills the gaps of the survivor's entry from that of the absorbed peer, which goes. -/
def merge (surviving absorbed : PeerId) : Op σ Unit := do
  match ← load absorbed with
  | none => return
  | some theirs =>
    let merged :=
      match ← load surviving with
      | some mine => mine.or theirs
      | none => theirs
    Storage.writeBatch [.put (key surviving) merged.toJson.compact, .del (key absorbed)]

/-- The part that the profiles take in merges. -/
def merger : Merger σ := ⟨"profiles", merge⟩

end Profiles

end PeerBook
