import PeerBook.Proofs.Operation.Simulates
import PeerBook.Reconcile

/-!
# PeerBook.Proofs.Reconcile.Simulation

Trusted resolutions that go the same way on tables of different kinds. A table
of addresses simulates another when its four operations do
(`AddressTable.Simulates`), and then a trusted resolution goes on the one as it
goes on the other, whatever the tables are (`AddressTable.Simulates.reconcile`).

No law of a table is needed for this: a resolution is made of the four operations,
and the rules for composed operations carry the relation through. So also a
failure, or what is logged, is the same on both sides.
-/

namespace PeerBook

variable {σ τ : Type} [AddressTable σ] [AddressTable τ] {R : σ → τ → Prop}

/-- The operations of one table of addresses go as those of another. -/
structure AddressTable.Simulates (R : σ → τ → Prop) : Prop where
  find (request : Address) : (find request : Op σ _).Simulates (find request) R
  add (a : Address) : (add a : Op σ _).Simulates (add a) R
  update (id : PeerId) (a : Address) : (update id a : Op σ _).Simulates (update id a) R
  remove (id : PeerId) : (remove id : Op σ _).Simulates (remove id) R

namespace AddressTable.Simulates

variable (h : AddressTable.Simulates R)

include h

theorem stripAll (ps : List Peer) : (stripAll ps : Op σ _).Simulates (stripAll ps) R := by
  induction ps with
  | nil => exact .pure ()
  | cons p ps ih => exact .bind (h.update p.id p.address) fun _ => ih

theorem removeAll (ps : List Peer) : (removeAll ps : Op σ _).Simulates (removeAll ps) R := by
  induction ps with
  | nil => exact .pure ()
  | cons p ps ih => exact .bind (h.remove p.id) fun _ => ih

omit h [AddressTable σ] [AddressTable τ] in
theorem announce (plan : Plan) (request : Address) :
    (plan.announce request : Op σ _).Simulates (plan.announce request) R := by
  unfold Plan.announce
  split
  · exact .pure ()
  · exact .note _ _

theorem replaceAddress (p : Peer) (a : Address) :
    (replaceAddress p a : Op σ _).Simulates (replaceAddress p a) R := by
  unfold PeerBook.replaceAddress
  split
  · exact .pure ()
  · exact .bind (.note _ _) fun _ => h.update p.id a

theorem settle (plan : Plan) (request : Address) :
    (plan.settle request : Op σ _).Simulates (plan.settle request) R := by
  unfold Plan.settle
  dsimp only
  split
  · exact .bind (h.replaceAddress _ _) fun _ => .pure _
  · exact .bind (.note _ _) fun _ => .bind (h.add _) fun _ => .pure _

theorem carryOut (plan : Plan) (request : Address) :
    (plan.carryOut request : Op σ _).Simulates (plan.carryOut request) R :=
  .bind (announce plan request) fun _ => .bind (h.stripAll _) fun _ =>
    .bind (h.removeAll _) fun _ => h.settle plan request

/-- **A trusted resolution goes on one table as on the other.** -/
theorem reconcile (request : Address) :
    (reconcile request : Op σ _).Simulates (reconcile request) R := by
  refine .bind (h.find request) fun found => ?_
  match found with
  | [] => exact .bind (.note _ _) fun _ => .bind (h.add request) fun _ => .pure _
  | [p] =>
      dsimp only
      split
      · exact .pure _
      · exact h.carryOut _ request
  | p :: q :: ps => exact h.carryOut _ request

end AddressTable.Simulates

end PeerBook
