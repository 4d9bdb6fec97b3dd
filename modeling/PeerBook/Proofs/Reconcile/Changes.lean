import PeerBook.Proofs.Reconcile.Ownership

/-!
# PeerBook.Proofs.Reconcile.Changes

What a trusted resolution answers about the table is what became of the table.
The stripped rows are the other rows whose address is another than before
(`mem_stripped_iff`), since each of them met the request and gave up what they
share. And in a table where no identifier is on two rows the surviving row has
another address than before exactly if the resolution says that something
changed (`changed_settled_iff`): whatever is merged or stripped meets the
request in an identifier that the surviving row did not have.

The events of an account are made of this answer, so these lemmas are what lets
them be read off the tables before and after. Absorbed and stripped handles are
answered in the order in which the rows were found (`merged_sublist`,
`stripped_sublist`).
-/

namespace PeerBook

open LawfulAddressTable

namespace Plan

@[simp] theorem stripped_outcome (plan : Plan) (request : Address) (next : PeerId) :
    (plan.outcome request next).stripped = plan.strip.map Peer.id := by
  unfold outcome
  split <;> rfl

/-- The absorbed rows come in the order in which they were found. -/
theorem absorb_sublist (request : Address) (found : List Peer) :
    ((Plan.of request found).absorb.map Peer.id).Sublist (found.map Peer.id) :=
  (List.filter_sublist.trans List.filter_sublist).map Peer.id

/-- The stripped rows come in the order in which they were found. -/
theorem strip_sublist (request : Address) (found : List Peer) :
    ((Plan.of request found).strip.map Peer.id).Sublist (found.map Peer.id) := by
  unfold Plan.of
  dsimp only
  rw [map_id_filterMap]
  exact (List.filter_sublist.trans List.filter_sublist).map Peer.id

end Plan

variable {τ : Type} [LawfulAddressTable τ] {t : τ} {request : Address} {i : PeerId}

/-! ## In the order of the rows -/

/-- A resolution answers the absorbed handles in the order in which the table finds them. -/
theorem merged_sublist (request : Address) (t : τ) :
    (settled request t).1.merged.Sublist ((found t request).map Peer.id) := by
  obtain ⟨p, -, -, hs⟩ | hs := settled_cases request t
  · rw [hs]
    exact List.nil_sublist _
  · rw [hs, Plan.merged_outcome]
    exact Plan.absorb_sublist request _

/-- A resolution answers the stripped handles in the order in which the table finds them. -/
theorem stripped_sublist (request : Address) (t : τ) :
    (settled request t).1.stripped.Sublist ((found t request).map Peer.id) := by
  obtain ⟨p, -, -, hs⟩ | hs := settled_cases request t
  · rw [hs]
    exact List.nil_sublist _
  · rw [hs, Plan.stripped_outcome]
    exact Plan.strip_sublist request _

/-! ## Stripped rows -/

/-- A row that met the request is another without what they share. -/
theorem Address.ne_of_without? {a b : Address} (h : a.sharesWith request = true)
    (hb : a.without? request = some b) : a ≠ b := by
  obtain ⟨x, hxa, hxr⟩ := Address.sharesWith_iff.mp h
  rintro rfl
  exact ((Address.mem_without? hb).mp hxa).2 hxr

/-- **The stripped rows are the other rows whose address changed.** A row that is stripped met the
request and loses what they share, which is something; a row that is not found is not touched. -/
theorem mem_stripped_iff (ht : Sound t) :
    i ∈ (settled request t).1.stripped ↔ i ≠ (settled request t).1.peer ∧
      ∃ a b, row t i = some a ∧ row (settled request t).2 i = some b ∧ a ≠ b := by
  obtain ⟨p, -, -, hs⟩ | hs := settled_cases request t
  · rw [hs]
    constructor
    · intro h
      exact absurd h List.not_mem_nil
    · rintro ⟨-, a, b, ha, hb, hne⟩
      exact absurd (Option.some.inj (ha.symm.trans hb)) hne
  · have hrow {j : PeerId} (hj : j ≠ (settled request t).1.peer) := row_settled_of_ne ht hj
    rw [hs] at hrow ⊢
    rw [Plan.stripped_outcome, List.mem_map]
    constructor
    · rintro ⟨q, hq, rfl⟩
      obtain ⟨p, hf, hid, hne, hrest⟩ := Plan.mem_strip.mp hq
      obtain ⟨hr, hsh⟩ := (mem_found ht).mp hf
      rw [← hid]
      have hi := Plan.ne_peer_outcome ht hf hne
      refine ⟨hi, p.address, q.address, hr, ?_,
        Address.ne_of_without? hsh (Plan.without?_of_remainder? hrest)⟩
      rw [Plan.row_applyTo_of_ne ht hi, ← hrest]
      exact row_changeAll_of_mem ht (admits_losses request ht) (Plan.mem_losses_of_found hf hne)
    · rintro ⟨hi, a, b, ha, hb, hab⟩
      obtain ⟨he, -⟩ | ⟨a', ha', hsh, he⟩ := hrow hi
      · exact absurd (Option.some.inj (ha.symm.trans (he.symm.trans hb))) hab
      · have hf : (⟨i, a'⟩ : Peer) ∈ found t request := (mem_found ht).mpr ⟨ha', hsh⟩
        exact ⟨⟨i, b⟩, Plan.mem_strip.mpr ⟨⟨i, a'⟩, hf, rfl, Plan.ne_target_of_ne hi,
          he.symm.trans hb⟩, rfl⟩

/-! ## The surviving row -/

/-- A row that has the final address already is alone in meeting the request, where no identifier is
on two rows, so nothing is lost anywhere. -/
theorem Plan.losses_eq_nil (ht : Sound t) (hu : Unambiguous (row t)) {p : Peer}
    (hp : target? request (found t request) = some p)
    (ha : p.address = (Plan.of request (found t request)).finalAddress request) :
    (Plan.of request (found t request)).losses = [] := by
  rw [List.eq_nil_iff_forall_not_mem]
  intro c hc
  obtain ⟨q, hq, -, hne⟩ := exists_found_of_mem_losses hc
  obtain ⟨hqr, hqs⟩ := (mem_found ht).mp hq
  obtain ⟨x, hxq, hxr⟩ := Address.sharesWith_iff.mp hqs
  have hxp : x ∈ p.address.identifiers := by
    rw [ha]
    exact mem_finalAddress_of_mem _ hxr
  have hpr := ((mem_found ht).mp (mem_of_target? hp)).1
  exact hne p hp (hu q.id p.id x ⟨_, hqr, hxq⟩ ⟨_, hpr, hxp⟩)

/-- **A resolution says that something changed exactly if the surviving row did**, where that is not
new. -/
theorem changed_settled_iff (ht : Sound t) (hu : Unambiguous (row t))
    (hc : (settled request t).1.created = false) :
    (settled request t).1.changed = true ↔
      row t (settled request t).1.peer ≠ row (settled request t).2 (settled request t).1.peer := by
  obtain ⟨p, -, -, hs⟩ | hs := settled_cases request t
  · rw [hs]
    exact ⟨nofun, fun h => absurd rfl h⟩
  · rw [hs] at hc ⊢
    rw [Plan.row_applyTo_survivor request ht]
    cases hp : Plan.target? request (found t request) with
    | none =>
        rw [Plan.outcome, Plan.target_of, hp] at hc
        contradiction
    | some p =>
        have hpr := ((mem_found ht).mp (Plan.mem_of_target? hp)).1
        rw [Plan.peer_outcome_of_target hp, hpr, ne_eq, Option.some.injEq]
        have hchanged : ((Plan.of request (found t request)).outcome request (nextId t)).changed =
            (p.address != (Plan.of request (found t request)).finalAddress request ||
              !((Plan.of request (found t request)).absorb.map Peer.id).isEmpty ||
              !((Plan.of request (found t request)).strip.map Peer.id).isEmpty) := by
          rw [Plan.outcome, Plan.target_of, hp]
        rw [hchanged]
        constructor
        · intro h ha
          have hnil := Plan.losses_eq_nil ht hu hp ha
          rw [Plan.losses, List.append_eq_nil_iff, List.map_eq_nil_iff, List.map_eq_nil_iff] at hnil
          rw [hnil.1, hnil.2, bne_eq_false_iff_eq.mpr ha] at h
          contradiction
        · intro ha
          rw [bne_iff_ne.mpr ha]
          rfl

end PeerBook
