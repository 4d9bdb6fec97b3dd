import PeerBook.Proofs.AddressTable.Lawful
import PeerBook.Proofs.Operation
import PeerBook.Proofs.Reconcile.Plan

/-!
# PeerBook.Proofs.Reconcile.Run

What a trusted resolution does to a lawful table. It never fails, and its
answer and the table after it are functions of the request and the table
(`reconcile_returns`): the rows that lose and go are changed as planned, and the
surviving row gets the final address (`Plan.applyTo`).

From here on a resolution is the function `settled`, and the program that carries
it out is not looked at again. Its three steps, stripping, removing and settling,
answer one by one; the laws of the table make each of them an equation, and they
do not fail because every row that a plan is about was found in the table
(`admits_losses`).
-/

namespace PeerBook

open LawfulAddressTable

variable {τ : Type} [LawfulAddressTable τ]

namespace Plan

/-- The answer of a resolution that carries out a plan; a new row gets the handle `next`. -/
def outcome (plan : Plan) (request : Address) (next : PeerId) : Reconciliation :=
  let merged := plan.absorb.map (·.id)
  let stripped := plan.strip.map (·.id)
  match plan.target with
  | some target =>
    ⟨target.id, merged, stripped, false,
      target.address != plan.finalAddress request || !merged.isEmpty || !stripped.isEmpty⟩
  | none => ⟨next, merged, stripped, true, true⟩

/-- The table with a plan carried out. -/
def applyTo (plan : Plan) (request : Address) (t : τ) : τ :=
  match plan.target with
  | some target =>
    if target.address = plan.finalAddress request then changeAll t plan.losses
    else change (changeAll t plan.losses) target.id (some (plan.finalAddress request))
  | none => insert (changeAll t plan.losses) (plan.finalAddress request)

end Plan

/-! ## The run -/

/-- Stripping makes its changes one after another and does not fail, if they are admitted: each
handle still has a row when its turn comes. -/
theorem stripAll_returns {t : τ} {ps : List Peer} (ht : Sound t)
    (h : Admits t (ps.map fun p => (p.id, some p.address))) :
    (stripAll ps).Returns t () (changeAll t (ps.map fun p => (p.id, some p.address))) := by
  induction ps generalizing t with
  | nil => exact Op.returns_pure () t
  | cons p ps ih =>
      have hp := h.2 (p.id, some p.address) List.mem_cons_self
      have hu : (AddressTable.update p.id p.address).Returns t ()
          (change t p.id (some p.address)) := by
        unfold Op.Returns
        rw [run_update p.address hp]
        exact ⟨rfl, rfl⟩
      exact hu.bind (ih (sound_change _ ht hp) (h.tail ht))

/-- Removing makes its changes one after another and does not fail, if they are admitted. -/
theorem removeAll_returns {t : τ} {ps : List Peer} (ht : Sound t)
    (h : Admits t (ps.map fun p => (p.id, none))) :
    (removeAll ps).Returns t () (changeAll t (ps.map fun p => (p.id, none))) := by
  induction ps generalizing t with
  | nil => exact Op.returns_pure () t
  | cons p ps ih =>
      have hp := h.2 (p.id, none) List.mem_cons_self
      have hr : (AddressTable.remove p.id).Returns t () (change t p.id none) := by
        unfold Op.Returns
        rw [run_remove hp]
        exact ⟨rfl, rfl⟩
      exact hr.bind (ih (sound_change _ ht hp) (h.tail ht))

omit [LawfulAddressTable τ] in
/-- What a plan says in the log changes nothing. -/
theorem Plan.announce_returns [AddressTable τ] (plan : Plan) (request : Address) (t : τ) :
    (plan.announce request).Returns t () t := by
  unfold Plan.announce
  split
  · exact Op.returns_pure () t
  · exact Op.returns_note _ _ t

/-- An address is replaced only by another one, so a row that has it already is not written. -/
theorem replaceAddress_returns {t : τ} (p : Peer) (a : Address) (hp : row t p.id ≠ none) :
    (replaceAddress p a).Returns t () (if p.address = a then t else change t p.id (some a)) := by
  unfold replaceAddress
  split
  · exact Op.returns_pure () t
  · refine (Op.returns_note _ _ t).bind ?_
    unfold Op.Returns
    rw [run_update a hp]
    exact ⟨rfl, rfl⟩

/-- A plan is carried out without failure when its rows are there: first those that lose, then those
that go, and at the end the surviving one, which the losses leave alone. -/
theorem Plan.carryOut_returns {plan : Plan} {t : τ} (request : Address) (ht : Sound t)
    (h : Admits t plan.losses)
    (htarget : ∀ p, plan.target = some p → row (changeAll t plan.losses) p.id ≠ none) :
    (plan.carryOut request).Returns t (plan.outcome request (nextId t))
      (plan.applyTo request t) := by
  have hs := stripAll_returns ht h.append_left
  have hr := removeAll_returns (sound_changeAll ht h.append_left) (h.append_right ht)
  rw [← changeAll_append] at hr
  refine (plan.announce_returns request t).bind (hs.bind (hr.bind ?_))
  unfold Plan.settle Plan.outcome Plan.applyTo
  cases hp : plan.target with
  | none =>
      have ha : (AddressTable.add (plan.finalAddress request)).Returns (changeAll t plan.losses)
          (nextId t) (insert (changeAll t plan.losses) (plan.finalAddress request)) := by
        unfold Op.Returns
        rw [run_add, nextId_changeAll]
        exact ⟨rfl, rfl⟩
      exact (Op.returns_note _ _ _).bind (ha.bind (Op.returns_pure _ _))
  | some target =>
      exact (replaceAddress_returns target _ (htarget target hp)).bind (Op.returns_pure _ _)

/-! ## The decision and its effect -/

/-- Whether one row is found and carries the whole request. -/
def coveredBy? (request : Address) : List Peer → Option Peer
  | [p] => if p.address.covers request then some p else none
  | _ => none

/-- The answer of a resolution and the table after it. -/
def settled (request : Address) (t : τ) : Reconciliation × τ :=
  let plan := Plan.of request (found t request)
  match coveredBy? request (found t request) with
  | some p => (⟨p.id, [], [], false, false⟩, t)
  | none => (plan.outcome request (nextId t), plan.applyTo request t)

/-- Every row that a plan is about is in the table. -/
theorem admits_losses {t : τ} (request : Address) (ht : Sound t) :
    Admits t (Plan.of request (found t request)).losses := by
  refine ⟨Plan.nodup_losses (nodup_found ht request), fun c hc => ?_⟩
  obtain ⟨p, hp, hid, -⟩ := Plan.exists_found_of_mem_losses hc
  rw [← hid, ((mem_found ht).mp hp).1]
  exact nofun

/-- The losses of a plan leave the surviving row as it is, as they are about other rows. -/
theorem row_losses_target {t : τ} {request : Address} (ht : Sound t) {p : Peer}
    (hp : Plan.target? request (found t request) = some p) :
    row (changeAll t (Plan.of request (found t request)).losses) p.id = some p.address := by
  have hn : p.id ∉ (Plan.of request (found t request)).losses.map Prod.fst := by
    intro hm
    obtain ⟨c, hc, hid⟩ := List.mem_map.mp hm
    obtain ⟨q, -, hq, hne⟩ := Plan.exists_found_of_mem_losses hc
    exact hne p hp (hq.trans hid)
  rw [row_changeAll_of_not_mem ht (admits_losses request ht) hn]
  exact ((mem_found ht).mp (Plan.mem_of_target? hp)).1

/-- **A trusted resolution succeeds on every lawful table**, with the answer and the table that the
request and the rows found determine. -/
theorem reconcile_returns {t : τ} (request : Address) (ht : Sound t) :
    (reconcile request).Returns t (settled request t).1 (settled request t).2 := by
  have hf : (AddressTable.find request).Returns t (found t request) t := by
    unfold Op.Returns
    rw [run_find]
    exact ⟨rfl, rfl⟩
  have hplan := Plan.carryOut_returns request ht (admits_losses request ht) fun p hp => by
    rw [row_losses_target ht hp]
    exact nofun
  refine hf.bind ?_
  unfold settled
  generalize found t request = fs at hplan ⊢
  match fs with
  | [] =>
      have ha : (AddressTable.add request).Returns t (nextId t) (insert t request) := by
        unfold Op.Returns
        rw [run_add]
        exact ⟨rfl, rfl⟩
      have hp : Plan.of request [] = ⟨none, [], []⟩ := by
        have ht0 : Plan.target? request [] = none := by
          unfold Plan.target?
          cases request.aci <;> rfl
        rw [Plan.of, ht0]
        rfl
      rw [hp]
      exact (Op.returns_note _ _ t).bind (ha.bind (Op.returns_pure _ _))
  | [p] =>
      dsimp only [coveredBy?]
      split
      · exact Op.returns_pure _ t
      · exact hplan
  | p :: q :: fs => exact hplan

end PeerBook
