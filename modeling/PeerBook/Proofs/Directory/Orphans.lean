import PeerBook.Proofs.Directory.Interrupted
import PeerBook.Proofs.Directory.Standing

/-!
# PeerBook.Proofs.Directory.Orphans

Which handles part of a batch leaves without a peer. A resolution hands over its
writes in this order:

    rows that lose                      (`Transaction.strips`)
    rows that go, redirects of handles  (`Transaction.removals`)
    rows that gain                      (`Transaction.gains`)
    the last handle, the account's own  (`Transaction.trailer`)

The rows of absorbed handles are deleted before any of their redirects is
written, so a handle whose deletion was made and whose redirect was not leads
nowhere, and so do those that are redirected to it (`Directory.Orphaned`); every
other one is found as before, or at the peer that it was absorbed into
(`Knows.get?_interrupted_iff`). The account's own handle is written last, when
nothing is orphaned any more (`Coherent.get?_peer_interrupted`).

Most of this holds of any writes of the batch, not only of its beginnings; that
they are one is used for the account's own handle (`body_subset_of_self`). A
resolution that absorbs has a surviving row from before, so no redirect leads to
a row that is still to be written (`row_peer_interrupted`).
-/

namespace PeerBook

open LawfulAddressTable

namespace Transaction

open Directory

variable {tx : Transaction} {stored i : PeerId} {w : Write} {ws : List Write}

/-- The write about a row has what the row is afterwards. -/
theorem eq_changeWrite_of_key (hw : w ∈ tx.writes) (hk : w.key = (Slot.row i).key) :
    w = changeWrite i (tx.rows.get? i) := by
  obtain ⟨j, change, hc, rfl⟩ | ⟨m, -, rfl⟩ | ⟨-, rfl⟩ | ⟨j, -, rfl⟩ := mem_writes.mp hw
  · rw [key_changeWrite] at hk
    cases Slot.key_inj hk
    rw [get?_rows, hc, Option.getD_some]
  · cases Slot.key_inj (x := .merged m.1) hk
  · cases Slot.key_inj (x := .lastId) hk
  · cases Slot.key_inj (x := .self) hk

/-- A row is deleted when there is a write about it and it is none afterwards, so a deletion can be
told from the two tables and the keys that were written. -/
theorem del_mem_iff (hws : ws ⊆ tx.writes) :
    .del (rowKey i) ∈ ws ↔ (Slot.row i).Among ws ∧ tx.rows.get? i = none := by
  constructor
  · intro hd
    have hw := eq_changeWrite_of_key (hws hd) (i := i) rfl
    refine ⟨List.mem_map.mpr ⟨_, hd, rfl⟩, ?_⟩
    cases hr : tx.rows.get? i with
    | none => rfl
    | some a =>
        rw [hr] at hw
        contradiction
  · rintro ⟨hi, hr⟩
    obtain ⟨w, hw, hk⟩ := List.mem_map.mp hi
    rw [eq_changeWrite_of_key (hws hw) hk, hr] at hw
    exact hw

/-- Only what was merged is redirected by a batch. -/
theorem mem_merged_of_among (hws : ws ⊆ tx.writes) (hi : (Slot.merged i).Among ws) :
    i ∈ tx.merged.map Prod.fst := by
  obtain ⟨w, hw, hk⟩ := List.mem_map.mp hi
  obtain ⟨j, change, -, rfl⟩ | ⟨m, hm, rfl⟩ | ⟨-, rfl⟩ | ⟨j, -, rfl⟩ := mem_writes.mp (hws hw)
  · rw [key_changeWrite] at hk
    cases Slot.key_inj hk
  · cases Slot.key_inj (x := .merged m.1) hk
    exact List.mem_map_of_mem hm
  · cases Slot.key_inj (x := .lastId) hk
  · cases Slot.key_inj (x := .self) hk

/-- By the time that the account's own handle is written all rows and redirects are. -/
theorem body_subset_of_self (hws : ws <+: tx.writes) (hs : Slot.self.Among ws) :
    tx.strips ++ tx.removals ++ tx.gains ⊆ ws := by
  obtain hbefore | hafter := List.prefix_or_prefix_of_prefix hws (List.prefix_append _ tx.trailer)
  · obtain ⟨w, hw, hk⟩ := List.mem_map.mp hs
    obtain ⟨j, change, -, rfl⟩ | ⟨m, -, rfl⟩ := mem_body.mp (hbefore.subset hw)
    · rw [key_changeWrite] at hk
      cases Slot.key_inj hk
    · cases Slot.key_inj (x := .merged m.1) hk
  · exact hafter.subset

end Transaction

namespace Directory

variable {d d' : Directory} {n : Nat} {i k l : PeerId} {made : List Write} {markSelf : Bool}
  {request : Address} {fs : List Finding}

/-- Writes delete the row of a handle and do not redirect it. -/
def Orphaned (made : List Write) (k : PeerId) : Prop :=
  .del (rowKey k) ∈ made ∧ ¬(Slot.merged k).Among made

instance (made : List Write) (k : PeerId) : Decidable (Orphaned made k) :=
  inferInstanceAs (Decidable (_ ∧ _))

/-! ## What is redirected -/

/-- Only what was merged is redirected by part of the batch of a resolution. -/
theorem mem_merged_outcome_of_among (hm : made ⊆ (d.draft markSelf request).writes)
    (hk : (Slot.merged k).Among made) : k ∈ (d.outcome request).merged := by
  have hk' := Transaction.mem_merged_of_among hm hk
  rw [merged_draft, List.map_map] at hk'
  simpa using hk'

/-- Redirects that led to a handle lead to it still, or to the peer that it was absorbed into if
that was written. -/
theorem Coherent.endsAt_interrupted (h : d.Coherent n) (hn : n + 1 < UInt64.size)
    (hm : made ⊆ (d.draft markSelf request).writes) (hk : d.redirects.EndsAt i k) :
    ((d.draft markSelf request).interrupted l made).redirects.EndsAt i
      (if (Slot.merged k).Among made then (d.outcome request).peer else k) := by
  have hnext := h.hasNext hn
  let written := (d.outcome request).merged.filter fun a => (Slot.merged a).Among made
  have hmem {a : PeerId} : a ∈ written ↔ (Slot.merged a).Among made := by
    rw [List.mem_filter, decide_eq_true_eq]
    exact ⟨And.right, fun ha => ⟨mem_merged_outcome_of_among hm ha, ha⟩⟩
  have hredirects : ((d.draft markSelf request).interrupted l made).redirects =
      d.redirects.insertAll (written.map (·, (d.outcome request).peer)) := by
    rw [Transaction.interrupted, merged_draft, base_draft, List.filter_map]
    rfl
  have hend : Redirects.EndsAt
      (d.redirects.insertAll (written.map (·, (d.outcome request).peer))) i _ := hk.insertAll
    (fun a ha => h.no_redirect
      ((mem_merged_outcome_iff hnext markSelf).mp (List.mem_filter.mp ha).1).2.1)
    (h.no_redirect_peer hn request)
    fun hp => not_mem_merged_peer hnext request (List.mem_filter.mp hp).1
  rw [hredirects]
  simpa only [hmem] using hend

/-! ## What is found -/

/-- The row of the peer is there as soon as something is redirected to it. -/
theorem row_peer_interrupted (h : d.HasNext) (hk : k ∈ (d.outcome request).merged) :
    ((d.draft markSelf request).interrupted l made).rows.get? (d.outcome request).peer ≠ none := by
  rw [Transaction.get?_rows_interrupted, base_draft]
  split
  · exact row_resolved_peer_ne_none h markSelf request
  · exact row_peer_of_mem_merged h hk

/-- The row that a handle led to is still there unless its deletion was written and its redirect was
not. -/
theorem row_interrupted_iff (hm : made ⊆ (d.draft markSelf request).writes)
    (hk : d.rows.get? k ≠ none) :
    ((d.draft markSelf request).interrupted l made).rows.get? k ≠ none ↔
      .del (rowKey k) ∉ made := by
  rw [Transaction.get?_rows_interrupted, base_draft, Transaction.del_mem_iff hm]
  by_cases hi : (Slot.row k).Among made <;> simp [hi, hk]

/-- **A handle is lost exactly when part of a batch orphans what it stands for.** Any made writes of
the batch will do, not only its beginnings. -/
theorem Knows.get?_interrupted_iff (hi : d.Knows i) (h : d.Coherent n) (hn : n + 1 < UInt64.size)
    (hm : made ⊆ (d.draft markSelf request).writes) :
    ((d.draft markSelf request).interrupted l made).get? i ≠ none ↔
      ¬Orphaned made (d.follow i) := by
  obtain ⟨k, hk, hr⟩ := hi
  have hbefore : d.follow i = k := Redirects.follow_of_endsAt hk
  have hafter : ((d.draft markSelf request).interrupted l made).follow i = _ :=
    Redirects.follow_of_endsAt (h.endsAt_interrupted hn hm hk)
  rw [get?, hafter, hbefore, ne_eq, Option.map_eq_none_iff]
  by_cases hred : (Slot.merged k).Among made
  · rw [if_pos hred]
    exact iff_of_true
      (row_peer_interrupted (h.hasNext hn) (mem_merged_outcome_of_among hm hred))
      fun ho => ho.2 hred
  · rw [if_neg hred]
    exact (row_interrupted_iff hm hr).trans
      ⟨fun hd ho => hd ho.1, fun ho hd => ho ⟨hd, hred⟩⟩

/-! ## The account's own handle -/

/-- The account's own handle goes on standing for a peer. -/
theorem Leads.knows_self (hl : d.Leads fs d') (h : d.Coherent n)
    (hn : n + Finding.creations fs + 1 < UInt64.size) (hs : ∀ i, d.self = some i → d.Knows i) :
    ∀ i, d'.self = some i → d'.Knows i := by
  refine hl.invariant (P := fun _ d => ∀ i, d.self = some i → d.Knows i) h hn hs ?_
  intro _ f d₁ d₂ m hc hm _ hstep hknows i hi
  cases hstep with
  | found _ => exact hknows i hi
  | added _ => exact (hknows i hi).added _
  | resolved markSelf request =>
      obtain rfl | hold := self_resolved hi
      · exact hc.knows_found (.resolved d₁ markSelf request) hm (.inl rfl)
      · exact (hknows i hold).resolved hc hm markSelf request

/-- The account's own handle is the one from before, or the peer's if that was written. -/
theorem self_interrupted
    (hi : ((d.draft markSelf request).interrupted l made).self = some i) :
    d.self = some i ∨ i = (d.outcome request).peer ∧ Slot.self.Among made := by
  rw [Transaction.interrupted, base_draft] at hi
  dsimp only at hi
  split at hi
  · rename_i hs
    exact (self_resolved hi).symm.imp_right (⟨·, hs⟩)
  · exact .inl hi

/-- Where the account's own handle is written the peer that it is found for is there: that write
comes last, after all rows and redirects. -/
theorem Coherent.get?_peer_interrupted (h : d.Coherent n) (hn : n + 1 < UInt64.size)
    (hws : made <+: (d.draft markSelf request).writes) (hs : Slot.self.Among made) :
    ((d.draft markSelf request).interrupted l made).get? (d.outcome request).peer ≠ none ∧
      ¬Orphaned made (d.follow (d.outcome request).peer) := by
  have hend := Redirects.endsAt_self (h.no_redirect_peer hn request)
  have hbefore : d.follow (d.outcome request).peer = _ := Redirects.follow_of_endsAt hend
  have hafter := Redirects.follow_of_endsAt (h.endsAt_interrupted (l := l) hn hws.subset hend)
  rw [ite_self] at hafter
  obtain ⟨a, ha, -⟩ := row_resolved_peer (h.hasNext hn) markSelf request
  have hrow : (d.draft markSelf request).rows.get? (d.outcome request).peer = some a := ha
  constructor
  · rw [get?, follow, hafter, Transaction.get?_rows_interrupted_of_mem, hrow]
    · exact Option.some_ne_none _
    · intro change hc
      exact Transaction.body_subset_of_self hws hs
        (Transaction.mem_body.mpr (.inl ⟨_, change, hc, rfl⟩))
  · rw [hbefore, Orphaned, Transaction.del_mem_iff hws.subset, hrow]
    exact fun ho => Option.some_ne_none a ho.1.2

/-- What is found of a peer that was known, or that is the account's own now. -/
theorem Coherent.get?_interrupted_iff (h : d.Coherent n) (hn : n + 1 < UInt64.size)
    (hself : ∀ i, d.self = some i → d.Knows i)
    (hws : made <+: (d.draft markSelf request).writes)
    (hi : d.Knows i ∨ ((d.draft markSelf request).interrupted l made).self = some i) :
    ((d.draft markSelf request).interrupted l made).get? i ≠ none ↔
      ¬Orphaned made (d.follow i) := by
  rcases hi with hi | hi
  · exact hi.get?_interrupted_iff h hn hws.subset
  · obtain hold | ⟨rfl, hs⟩ := self_interrupted hi
    · exact (hself i hold).get?_interrupted_iff h hn hws.subset
    · obtain ⟨hfound, hnot⟩ := h.get?_peer_interrupted (l := l) hn hws hs
      exact iff_of_true hfound hnot

end Directory

end PeerBook
