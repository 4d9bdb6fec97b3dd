import PeerBook.Proofs.Directory.Coherent

/-!
# PeerBook.Proofs.Directory.Own

The account's own handle. A resolution of the account's own address stores its
peer only where the stored handle does not stand for it already, and no other
request stores one; so the handle that is stored may have been absorbed, once or
many times over. What is kept is that it stands for the same peer as the handle
that was answered last (`Directory.OwnIs`), through every merge of either.

- `SamePeer` relates handles whose chains end at one row; a resolution never
  comes between them (`SamePeer.resolved`).
- `OwnIs.resolved_self` is for the requests that set the handle, `OwnIs.resolved`
  and `OwnIs.added` for all others.
- What is answered for the account follows from it (`OwnIs.selfId_eq`).
-/

namespace PeerBook.Directory

variable {d : Directory} {n : Nat} {i j : PeerId} {request : Address}

/-! ## Handles of one peer -/

/-- Two handles stand for the same peer. -/
def SamePeer (d : Directory) (i j : PeerId) : Prop :=
  ∃ k, d.redirects.EndsAt i k ∧ d.redirects.EndsAt j k ∧ d.rows.get? k ≠ none

/-- Handles of one peer are followed to one handle. -/
theorem SamePeer.follow_eq (h : d.SamePeer i j) : d.follow i = d.follow j := by
  obtain ⟨k, hi, hj, -⟩ := h
  exact (Redirects.follow_of_endsAt hi).trans (Redirects.follow_of_endsAt hj).symm

/-- Handles of one peer stand for a peer. -/
theorem SamePeer.knows_left (h : d.SamePeer i j) : d.Knows i := by
  obtain ⟨k, hi, -, hk⟩ := h
  exact ⟨k, hi, hk⟩

/-- A handle that stands for a peer is one of the handles of that peer. -/
theorem Knows.samePeer_self (h : d.Knows i) : d.SamePeer i i := by
  obtain ⟨k, hi, hk⟩ := h
  exact ⟨k, hi, hi, hk⟩

/-- Merges do not come between the handles of one peer: both lead to its row, or to where that was
absorbed. -/
theorem SamePeer.resolved (h : d.SamePeer i j) (hc : d.Coherent n) (hn : n + 1 < UInt64.size)
    (markSelf : Bool) (request : Address) : (d.resolved markSelf request).SamePeer i j := by
  obtain ⟨k, hi, hj, hk⟩ := h
  exact ⟨_, hc.endsAt_resolved hn markSelf request hi, hc.endsAt_resolved hn markSelf request hj,
    hc.row_resolved_of_row hn markSelf request hk⟩

/-- A look-up does not come between them either, as it changes no redirect. -/
theorem SamePeer.added (h : d.SamePeer i j) (request : Address) : (d.added request).SamePeer i j := by
  obtain ⟨k, hi, hj, hk⟩ := h
  exact ⟨k, hi, hj, row_added_of_row hk request⟩

/-! ## The stored handle -/

/-- The account's own handle goes back to an answer, if there was one: what is stored stands for the
same peer as the handle that was answered. -/
def OwnIs (d : Directory) : Option PeerId → Prop
  | none => d.self = none
  | some i => ∃ j, d.self = some j ∧ d.SamePeer i j

variable {own : Option PeerId}

theorem ownIs_empty : empty.OwnIs none := rfl

/-- The account's own handle is followed to where the answered one is. -/
theorem OwnIs.selfId_eq (h : d.OwnIs own) : d.selfId = own.map d.follow := by
  cases own with
  | none =>
      rw [OwnIs] at h
      rw [selfId, h]
  | some i =>
      obtain ⟨j, hj, hsame⟩ := h
      rw [selfId, hj, Option.map_some, Option.map_some, hsame.follow_eq]

/-- The account's own handle leads to a row that was never absorbed. -/
theorem OwnIs.selfId_live (h : d.OwnIs own) (hi : d.selfId = some i) :
    (∃ a, d.rows.get? i = some a) ∧ d.redirects.get? i = none := by
  rw [h.selfId_eq] at hi
  obtain ⟨j, rfl, rfl⟩ := Option.map_eq_some_iff.mp hi
  obtain ⟨_, -, hsame⟩ := h
  obtain ⟨a, ha, hr, -⟩ := hsame.knows_left.resolves
  exact ⟨⟨a, ha⟩, hr⟩

/-! ## Requests -/

/-- The stored handle after a resolution: the peer if it was asked for and is news, else the one
from before. -/
theorem self_resolved_eq (d : Directory) (markSelf : Bool) (request : Address) :
    (d.resolved markSelf request).self =
      (if markSelf && d.selfId != some (d.outcome request).peer then
        some (d.outcome request).peer else none).or d.self := by
  show (d.draft markSelf request).self.or (d.draft markSelf request).base.self = _
  rw [base_draft, draft_eq]

/-- A request that is not for the account leaves it its handle. -/
theorem OwnIs.resolved (h : d.OwnIs own) (hc : d.Coherent n) (hn : n + 1 < UInt64.size)
    (request : Address) : (d.resolved false request).OwnIs own := by
  have hself : (d.resolved false request).self = d.self := self_resolved_eq d false request
  cases own with
  | none => exact hself.trans h
  | some i =>
      obtain ⟨j, hj, hsame⟩ := h
      exact ⟨j, hself.trans hj, hsame.resolved hc hn false request⟩

/-- A request for the account makes its peer the account's own: the peer is stored, or what is
stored stands for it already. -/
theorem OwnIs.resolved_self (h : d.OwnIs own) (hc : d.Coherent n) (hn : n + 1 < UInt64.size)
    (request : Address) : (d.resolved true request).OwnIs (some (d.outcome request).peer) := by
  have hrow := row_resolved_peer_ne_none (hc.hasNext hn) true request
  have hc' := hc.resolved hn true request
  have hself := self_resolved_eq d true request
  by_cases hs : d.selfId = some (d.outcome request).peer
  · rw [hs, Bool.true_and, bne_self_eq_false, if_neg Bool.false_ne_true, Option.none_or] at hself
    rw [h.selfId_eq] at hs
    obtain ⟨i, rfl, hi⟩ := Option.map_eq_some_iff.mp hs
    obtain ⟨j, hj, k, hik, hjk, hk⟩ := h
    -- what is stored leads to the peer, which is not absorbed
    have hkp : k = (d.outcome request).peer := (Redirects.follow_of_endsAt hik).symm.trans hi
    have hends := hc.endsAt_resolved hn true request hjk
    rw [hkp, if_neg (not_mem_merged_peer (hc.hasNext hn) request)] at hends
    exact ⟨j, hself.trans hj, _, Redirects.endsAt_self (hc'.no_redirect hrow), hends, hrow⟩
  · rw [Bool.true_and, if_pos (bne_iff_ne.mpr hs), Option.some_or] at hself
    exact ⟨_, hself, (hc'.knows_of_row hrow).samePeer_self⟩

/-- A look-up leaves the account its handle. -/
theorem OwnIs.added (h : d.OwnIs own) (request : Address) : (d.added request).OwnIs own := by
  cases own with
  | none => exact h
  | some i =>
      obtain ⟨j, hj, hsame⟩ := h
      exact ⟨j, hj, hsame.added request⟩

end PeerBook.Directory
