import PeerBook.Account.Basic

/-!
# PeerBook.Account.Resolve

Finding the peer of an address. A trusted resolution takes it as proven that
the identifiers belong together: it may merge peers, and then every store of
the account follows. An untrusted look-up proves nothing: it answers the peer
with the strongest agreeing identifier, or creates one, and changes no other.

A trusted resolution commits its transaction first, then sends its events, then
lets the stores follow, so nobody hears of a merge that was not stored. A batch
(`Account.resolveBatch`) is its members in turn and stops at the first failure.
What a look-up may record of an address is `Account.recordable`: an ACI alone,
else a PNI alone.
-/

namespace PeerBook

/-- The answer of a trusted resolution. -/
structure Resolution where
  peer : PeerId
  /-- The peers absorbed into it. -/
  merged : List PeerId
  /-- The stores that failed to follow a merge. -/
  failures : List CascadeFailure
  deriving DecidableEq

/-- The resolved peer, unless a store failed to follow a merge. -/
def Resolution.toExcept (r : Resolution) : Except Error PeerId :=
  match r.failures with
  | [] => .ok r.peer
  | f :: _ => .error (.cascade f)

/-- The events of a reconciliation: what became of the peer, then the others that changed. -/
def Reconciliation.events (r : Reconciliation) : List Event :=
  (if r.created then [.created r.peer] else if r.changed then [.addressChanged r.peer] else []) ++
    r.stripped.map .addressChanged

namespace Account

variable {σ : Type} [Storage σ]

/-- Reconciles the directory with a trusted request in one transaction. -/
def reconcileDirectory (markSelf : Bool) (request : Address) : Op (Account σ) Reconciliation := do
  let directory := (← Op.state).directory
  let (outcome, tx) ← (reconcile request).within directory.begin
  let tx := outcome.merged.foldl (fun tx absorbed => tx.recordMerged absorbed outcome.peer) tx
  let isNews := markSelf && directory.selfId != some outcome.peer
  let tx := if isNews then tx.setSelf outcome.peer else tx
  let directory ← onStorage tx.commit
  Op.update fun account => { account with directory }
  return outcome

/-- Lets the stores follow the merge of one peer into another. -/
def cascade (surviving absorbed : PeerId) : Op (Account σ) (List CascadeFailure) := do
  Op.note .debug ("Merging recipient " ++ toString absorbed ++ " into " ++ toString surviving)
  let failures ← onStorage (mergeAll (← Op.state).mergers surviving absorbed)
  send (.merged surviving absorbed :: failures.map .cascadeFailed)
  return failures

/-- Lets the stores follow the merges of several peers into one, in order. -/
def cascadeAll (surviving : PeerId) : List PeerId → Op (Account σ) (List CascadeFailure)
  | [] => pure []
  | absorbed :: rest => do
    let failures ← cascade surviving absorbed
    return failures ++ (← cascadeAll surviving rest)

/-- Resolves a trusted request, and remembers the result as the account's own if asked to. -/
def resolveWith (markSelf : Bool) (request : Address) : Op (Account σ) Resolution := do
  let outcome ← reconcileDirectory markSelf request
  send outcome.events
  let failures ← cascadeAll outcome.peer outcome.merged
  return ⟨outcome.peer, outcome.merged, failures⟩

/-- Resolves identifiers that were verified together. -/
def resolve (request : Address) : Op (Account σ) Resolution := resolveWith false request

/-- Resolves the account's own address and remembers the result. -/
def resolveSelf (request : Address) : Op (Account σ) Resolution := resolveWith true request

/-- Resolves several addresses in order and stops at the first failure; what was resolved before
it stays resolved. -/
def resolveBatch : List Address → Op (Account σ) (List Resolution)
  | [] => pure []
  | request :: rest => do
    let r ← resolve request
    return r :: (← resolveBatch rest)

/-- Resolves identifiers of a directory service, which proves that they belong together. -/
def resolveService (aci : Option Aci) (pni : Option Pni) (number : Option String) :
    Op (Account σ) Resolution := do
  resolve (← Op.ofExcept ((Address.create aci pni number none).mapError .address))

/-- Resolves a username that a look-up proved to belong to an account identity. -/
def resolveUsername (aci : Aci) (username : String) : Op (Account σ) Resolution := do
  resolve (← Op.ofExcept (((Address.ofAci aci).withUsername username).mapError .address))

/-- What an untrusted look-up may record of an address that no peer matches: its ACI alone, else
its PNI alone. An address with neither is kept as it is. -/
def recordable (a : Address) : Address :=
  match a.aci, a.pni with
  | some aci, _ => .ofAci aci
  | none, some pni => .ofPni pni
  | none, none => a

/-- Looks up identifiers that were not verified together, and creates a peer if none matches. -/
def lookup (request : Address) : Op (Account σ) PeerId := do
  let directory := (← Op.state).directory
  match directory.bestMatch? request with
  | some p => return p.id
  | none =>
    let address := recordable request
    Op.note .debug ("Got new recipient " ++ toString address ++ " from untrusted lookup")
    let (id, tx) ← (AddressTable.add address).within directory.begin
    let directory ← onStorage tx.commit
    Op.update fun account => { account with directory }
    send [.created id]
    return id

end Account

end PeerBook
