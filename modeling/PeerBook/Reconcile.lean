import PeerBook.AddressTable

/-!
# PeerBook.Reconcile

Trusted resolution. A trusted request asserts that all its identifiers belong
to one peer, and afterwards one row of the table carries them all. Every other
row that shares an identifier with the request is either absorbed (it shares an
ACI or PNI, or would be left with nothing) or stripped of what it shares. Two
different ACIs never come to lie on one row, and an ACI is never taken from the
row that carries it except by absorbing the whole row.

The decision is a pure function of the request and the rows found (`Plan.of`):

- `Plan.target?` is the row that survives, the owner of the request's ACI or
  else the best of those that may (`Plan.eligible`, `Peer.best?`);
- `Plan.remainder?` is what is left of another row, and nothing where that row
  is to be absorbed;
- `Plan.finalAddress` is what the surviving row holds in the end.

Carrying it out touches the table in an order that never lets two rows carry one
identifier: first rows lose, then rows go, then one row gains.
-/

namespace PeerBook

/-- How a resolution ended. -/
structure Reconciliation where
  /-- The peer that the request belongs to. -/
  peer : PeerId
  /-- The peers absorbed into it, whose state elsewhere has to follow. -/
  merged : List PeerId
  /-- The peers that kept their handle and gave up identifiers. -/
  stripped : List PeerId
  /-- Whether the peer is new. -/
  created : Bool
  /-- Whether the table changed. -/
  changed : Bool
  deriving DecidableEq

/-! ## The decision -/

/-- Whether `a` is a better choice than `b`: it agrees on a stronger kind, or on an equal one and
has the lower handle. -/
def Peer.better (a b : Kind × Peer) : Bool :=
  b.1 < a.1 || (a.1 == b.1 && compare a.2.id b.2.id == .lt)

/-- The best of a list of choices; of two that are equally good the later. -/
def Peer.best? : List (Kind × Peer) → Option (Kind × Peer)
  | [] => none
  | c :: cs =>
    match best? cs with
    | none => some c
    | some d => if Peer.better c d then some c else some d

/-- What a trusted request is to change. -/
structure Plan where
  /-- The row that survives, if one may. -/
  target : Option Peer
  /-- The rows to be absorbed. -/
  absorb : List Peer
  /-- The rows to be stripped, with the address that each keeps. -/
  strip : List Peer

namespace Plan

/-- Whether a row may survive although the request does not prove the same account: it shares a
PNI or more, or has nothing that the request lacks. -/
def eligible (request : Address) (p : Peer) : Option (Kind × Peer) :=
  if p.address.conflictsWith request.aci then none
  else
    match p.address.rank request with
    | none => none
    | some kind =>
      if Kind.pni ≤ kind || !p.address.exceeds request then some (kind, p) else none

/-- The row that survives: the owner of the request's ACI, else the best of the eligible. -/
def target? (request : Address) (found : List Peer) : Option Peer :=
  match request.aci.bind fun aci => found.find? (·.address.aci == some aci) with
  | some owner => some owner
  | none => (Peer.best? (found.filterMap (eligible request))).map (·.2)

/-- What is left of a row that is not absorbed, given the account identity that the surviving row
will have. -/
def remainder? (request : Address) (aci : Option Aci) (p : Peer) : Option Address :=
  let rest := p.address.without? request
  if p.address.conflictsWith aci then rest
  else
    match p.address.rank request with
    | some kind => if Kind.pni ≤ kind then none else rest
    | none => rest

/-- What a trusted request is to change, given the rows that share an identifier with it. -/
def of (request : Address) (found : List Peer) : Plan :=
  let target := target? request found
  let aci := request.aci.or (target.bind (·.address.aci))
  let others := found.filter fun p => !(target.any (·.id == p.id))
  { target
    absorb := others.filter fun p => (remainder? request aci p).isNone
    strip := others.filterMap fun p => (remainder? request aci p).map (⟨p.id, ·⟩) }

/-- What the surviving row gathers from the absorbed ones, in order; its own values and those of
earlier rows count before those of later ones. -/
def gather (current : Option Address) : List Peer → Option Address
  | [] => current
  | p :: ps =>
    gather
      (match current with
      | some a => some (p.address.updatedWith a)
      | none => some p.address)
      ps

/-- The address of the surviving row: what it gathered, under the request's values. -/
def finalAddress (plan : Plan) (request : Address) : Address :=
  match gather (plan.target.map (·.address)) plan.absorb with
  | some a => a.updatedWith request
  | none => request

end Plan

/-! ## Carrying it out -/

variable {τ : Type} [AddressTable τ]

/-- Gives the stripped rows their remaining addresses. -/
def stripAll : List Peer → Op τ Unit
  | [] => pure ()
  | p :: ps => do
    AddressTable.update p.id p.address
    stripAll ps

/-- Removes the absorbed rows. -/
def removeAll : List Peer → Op τ Unit
  | [] => pure ()
  | p :: ps => do
    AddressTable.remove p.id
    removeAll ps

/-- Handles with commas between them. -/
def showIds (peers : List Peer) : String :=
  String.intercalate ", " (peers.map fun p => toString p.id)

/-- Says in the log which rows are to be merged and which to be stripped, if any are. -/
def Plan.announce (plan : Plan) (request : Address) : Op τ Unit :=
  if plan.absorb.isEmpty && plan.strip.isEmpty then
    pure ()
  else
    Op.note .debug ("Got separate recipients for high trust identifiers " ++ toString request ++
      ", need to merge (" ++ showIds plan.absorb ++ ") and strip (" ++ showIds plan.strip ++ ")")

/-- Gives a row a new address, unless it has it already. -/
def replaceAddress (p : Peer) (address : Address) : Op τ Unit :=
  if p.address = address then
    pure ()
  else do
    Op.note .debug ("Updating recipient " ++ toString p.id ++ " with high trust address " ++
      toString address)
    AddressTable.update p.id address

/-- Stores the final address, on the surviving row or a new one. -/
def Plan.settle (plan : Plan) (request : Address) : Op τ Reconciliation :=
  let address := plan.finalAddress request
  let merged := plan.absorb.map (·.id)
  let stripped := plan.strip.map (·.id)
  match plan.target with
  | some target => do
    replaceAddress target address
    return ⟨target.id, merged, stripped, false,
      target.address != address || !merged.isEmpty || !stripped.isEmpty⟩
  | none => do
    Op.note .debug ("No existing recipient can take over " ++ toString request ++
      ", adding new recipient")
    let id ← AddressTable.add address
    return ⟨id, merged, stripped, true, true⟩

/-- Changes the table as planned. -/
def Plan.carryOut (plan : Plan) (request : Address) : Op τ Reconciliation := do
  plan.announce request
  stripAll plan.strip
  removeAll plan.absorb
  plan.settle request

/-- Resolves a trusted request to one row of the table. -/
def reconcile (request : Address) : Op τ Reconciliation := do
  match ← AddressTable.find request with
  | [] =>
    Op.note .debug ("Got new recipient, no identifier of " ++ toString request ++ " is known")
    let id ← AddressTable.add request
    return ⟨id, [], [], true, true⟩
  | [p] =>
    if p.address.covers request then
      return ⟨p.id, [], [], false, false⟩
    else
      (Plan.of request [p]).carryOut request
  | found => (Plan.of request found).carryOut request

end PeerBook
