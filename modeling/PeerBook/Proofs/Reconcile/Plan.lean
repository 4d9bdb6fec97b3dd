import PeerBook.Proofs.Peer.Lookup
import PeerBook.Proofs.Reconcile.Choice

/-!
# PeerBook.Proofs.Reconcile.Plan

What a plan does with each row that was found: one row may survive, and every
other is either absorbed or stripped, never both (`nodup_losses`). A stripped
row loses what it shares with the request (`mem_strip`), and the surviving row
holds, kind by kind, the request's value, else its own, else that of the first
absorbed row that has one (`at?_finalAddress`).

A plan is a value, so all of this is about lists of peers and needs no table.
`Plan.losses` puts both kinds of loss into the one form of a change, which is
how the table is told; `mem_losses_some` and `mem_losses_none` read it back.
-/

namespace PeerBook.Plan

/-! ## Absorbed or stripped -/

/-- A row goes when the request has all of it, or when it shares an ACI or PNI with the request and
carries no other ACI than the surviving row will have. -/
theorem remainder?_eq_none_iff {request : Address} {aci : Option Aci} {p : Peer} :
    remainder? request aci p = none ↔
      request.covers p.address = true ∨
        ¬p.address.conflictsWith aci = true ∧
          (p.address.AgreeAt request .aci ∨ p.address.AgreeAt request .pni) := by
  rw [← Address.pni_le_rank_iff]
  unfold remainder?
  split
  · rename_i hc
    simp [hc, Address.without?_eq_none_iff]
  · rename_i hc
    split
    · rename_i k hk
      split
      · rename_i hle
        simp [hc, hk, hle]
      · rename_i hle
        simp [hk, hle, Address.without?_eq_none_iff]
    · rename_i hn
      simp [hn, Address.without?_eq_none_iff]

/-- What is left of a stripped row is what the request does not carry. -/
theorem without?_of_remainder? {request : Address} {aci : Option Aci} {p : Peer} {rest : Address}
    (h : remainder? request aci p = some rest) : p.address.without? request = some rest := by
  unfold remainder? at h
  split at h
  · exact h
  · split at h
    · split at h
      · contradiction
      · exact h
    · exact h

/-- The account identity that the surviving row will have, as far as it is known beforehand. -/
def expectedAci (request : Address) (found : List Peer) : Option Aci :=
  request.aci.or ((target? request found).bind (·.address.aci))

variable {request : Address} {found : List Peer}

@[simp] theorem target_of : (Plan.of request found).target = target? request found := rfl

/-- Whether a row is another than the surviving one, as the plan tests it by handles. Where no row
survives the test lets every row pass. -/
theorem not_target_iff {p : Peer} :
    (!((target? request found).any (·.id == p.id))) = true ↔
      ∀ t, target? request found = some t → p.id ≠ t.id := by
  cases target? request found with
  | none => simp
  | some t =>
      rw [Option.any_some, Bool.not_eq_true', beq_eq_false_iff_ne]
      constructor
      · intro h u hu
        cases hu
        exact Ne.symm h
      · intro h
        exact Ne.symm (h t rfl)

/-- The absorbed rows are those found, other than the target, of which nothing is left. -/
theorem mem_absorb {p : Peer} :
    p ∈ (Plan.of request found).absorb ↔
      p ∈ found ∧ (∀ t, target? request found = some t → p.id ≠ t.id) ∧
        remainder? request (expectedAci request found) p = none := by
  simp only [Plan.of, List.mem_filter, not_target_iff, Option.isNone_iff_eq_none, and_assoc]
  rfl

/-- The stripped rows are those found, other than the target, of which something is left, each with
what is left. -/
theorem mem_strip {q : Peer} :
    q ∈ (Plan.of request found).strip ↔
      ∃ p ∈ found, p.id = q.id ∧ (∀ t, target? request found = some t → p.id ≠ t.id) ∧
        remainder? request (expectedAci request found) p = some q.address := by
  simp only [Plan.of, List.mem_filterMap, List.mem_filter, not_target_iff,
    Option.map_eq_some_iff]
  constructor
  · rintro ⟨p, ⟨hp, ht⟩, rest, hr, rfl⟩
    exact ⟨p, hp, rfl, ht, hr⟩
  · rintro ⟨p, hp, hid, ht, hr⟩
    refine ⟨p, ⟨hp, ht⟩, q.address, hr, ?_⟩
    rw [hid]

/-- Where no row may survive none is absorbed: a row that could be absorbed could survive. It shares
an ACI or PNI with the request or has nothing beyond it, and carries no ACI but the request's. -/
theorem absorb_of_new (h : target? request found = none)
    (hf : ∀ p ∈ found, p.address.sharesWith request = true) :
    (Plan.of request found).absorb = [] := by
  rw [List.eq_nil_iff_forall_not_mem]
  intro p hp
  obtain ⟨hpf, -, hr⟩ := mem_absorb.mp hp
  obtain ⟨k, hk⟩ := Option.isSome_iff_exists.mp (hf p hpf)
  have hexpected : expectedAci request found = request.aci := by
    rw [expectedAci, h, Option.bind_none, Option.or_none]
  have heligible : eligible request p = some (k, p) := by
    rw [eligible_iff]
    rcases remainder?_eq_none_iff.mp hr with hcov | ⟨hc, hs⟩
    · have hn := Address.not_conflictsWith_of_covers hcov none
      rw [Option.or_none] at hn
      exact ⟨rfl, hk, hn, .inr hcov⟩
    · rw [hexpected] at hc
      obtain ⟨j, hj, hle⟩ := Address.pni_le_rank_iff.mpr hs
      cases hk.symm.trans hj
      exact ⟨rfl, hk, hc, .inl hle⟩
  obtain ⟨t, ht⟩ := exists_target?_of_eligible hpf heligible
  rw [h] at ht
  contradiction

/-- The changes of the rows that lose or go. -/
def losses (plan : Plan) : List (PeerId × Option Address) :=
  plan.strip.map (fun p => (p.id, some p.address)) ++ plan.absorb.map fun p => (p.id, none)

/-- A plan gives new addresses to the rows that it strips. -/
theorem mem_losses_some {plan : Plan} {i : PeerId} {a : Address} :
    (i, some a) ∈ plan.losses ↔ ⟨i, a⟩ ∈ plan.strip := by
  rw [losses, List.mem_append, List.mem_map, List.mem_map]
  constructor
  · rintro (⟨p, hp, he⟩ | ⟨p, hp, he⟩)
    · cases p
      cases he
      exact hp
    · cases he
  · intro h
    exact .inl ⟨_, h, rfl⟩

/-- A plan takes away the rows that it absorbs. -/
theorem mem_losses_none {plan : Plan} {i : PeerId} :
    (i, none) ∈ plan.losses ↔ i ∈ plan.absorb.map Peer.id := by
  rw [losses, List.mem_append, List.mem_map, List.mem_map, List.mem_map]
  constructor
  · rintro (⟨p, hp, he⟩ | ⟨p, hp, he⟩)
    · cases he
    · cases he
      exact ⟨p, hp, rfl⟩
  · rintro ⟨p, hp, rfl⟩
    exact .inr ⟨p, hp, rfl⟩

/-- Only rows that were found lose or go, and the survivor is none of them, so it keeps its row. -/
theorem exists_found_of_mem_losses {c : PeerId × Option Address}
    (h : c ∈ (Plan.of request found).losses) :
    ∃ p ∈ found, p.id = c.1 ∧ ∀ t, target? request found = some t → p.id ≠ t.id := by
  obtain ⟨i, x⟩ := c
  cases x with
  | some a =>
      obtain ⟨p, hp, hid, ht, -⟩ := mem_strip.mp (mem_losses_some.mp h)
      exact ⟨p, hp, hid, ht⟩
  | none =>
      obtain ⟨p, hp, hid⟩ := List.mem_map.mp (mem_losses_none.mp h)
      obtain ⟨hf, ht, -⟩ := mem_absorb.mp hp
      exact ⟨p, hf, hid, ht⟩

/-- A found row other than the survivor either loses or goes. -/
theorem mem_losses_of_found {p : Peer} (hp : p ∈ found)
    (ht : ∀ t, target? request found = some t → p.id ≠ t.id) :
    (p.id, remainder? request (expectedAci request found) p) ∈
      (Plan.of request found).losses := by
  cases hr : remainder? request (expectedAci request found) p with
  | some rest => exact mem_losses_some.mpr (mem_strip.mpr ⟨p, hp, rfl, ht, hr⟩)
  | none => exact mem_losses_none.mpr (List.mem_map_of_mem (mem_absorb.mpr ⟨hp, ht, hr⟩))

/-- The handles of what is kept of a list of peers are those of the peers that are kept. -/
theorem map_id_filterMap (g : Peer → Option Address) (ps : List Peer) :
    (ps.filterMap fun p => (g p).map (Peer.mk p.id)).map Peer.id =
      (ps.filter fun p => (g p).isSome).map Peer.id := by
  induction ps with
  | nil => rfl
  | cons p ps ih => cases h : g p <;> simp [h, ih]

/-- No handle is changed twice: the rows found have handles of their own, and of each either
something is left or nothing. -/
theorem nodup_losses (h : (found.map Peer.id).Nodup) :
    ((Plan.of request found).losses.map Prod.fst).Nodup := by
  have hs : (Plan.of request found).strip.map Peer.id =
      ((found.filter fun p => !(target? request found).any (·.id == p.id)).filter fun p =>
        (remainder? request (expectedAci request found) p).isSome).map Peer.id :=
    map_id_filterMap _ _
  have hl : (Plan.of request found).losses.map Prod.fst =
      (Plan.of request found).strip.map Peer.id ++ (Plan.of request found).absorb.map Peer.id := by
    rw [losses, List.map_append, List.map_map, List.map_map]
    rfl
  rw [hl, List.nodup_append]
  refine ⟨?_, ?_, ?_⟩
  · rw [hs]
    exact h.sublist ((List.filter_sublist.trans List.filter_sublist).map Peer.id)
  · exact h.sublist ((List.filter_sublist.trans List.filter_sublist).map Peer.id)
  · intro i hi j hj hij
    obtain ⟨q, hq, rfl⟩ := List.mem_map.mp hi
    obtain ⟨p, hp, rfl⟩ := List.mem_map.mp hj
    obtain ⟨p', hp', hid, -, hr⟩ := mem_strip.mp hq
    obtain ⟨hf, -, hn⟩ := mem_absorb.mp hp
    obtain rfl := Peer.eq_of_id_eq h hp' hf (hid.trans hij)
    rw [hn] at hr
    contradiction

/-! ## The address of the surviving row -/

/-- What the survivor gathers of a kind: what it has, else what the first row has that has one. A
row that survives from before thus counts before those that it absorbs. -/
theorem at?_gather (current : Option Address) (ps : List Peer) (k : Kind) :
    (gather current ps).bind (·.at? k) =
      (current.bind (·.at? k)).or (ps.findSome? (·.address.at? k)) := by
  induction ps generalizing current with
  | nil => simp [gather]
  | cons p ps ih =>
      rw [List.findSome?_cons]
      cases current with
      | none =>
          rw [gather.eq_def]
          dsimp only
          rw [ih, Option.bind_some, Option.bind_none, Option.none_or]
          cases p.address.at? k <;> rfl
      | some a =>
          rw [gather.eq_def]
          dsimp only
          rw [ih, Option.bind_some, Option.bind_some, Address.at?_updatedWith]
          cases a.at? k with
          | some x => rfl
          | none => cases p.address.at? k <;> rfl

/-- Of each kind the surviving row holds the request's identifier, else its own, else that of the
first absorbed row that has one. -/
theorem at?_finalAddress (plan : Plan) (request : Address) (k : Kind) :
    (plan.finalAddress request).at? k =
      (request.at? k).or ((plan.target.bind (·.address.at? k)).or
        (plan.absorb.findSome? (·.address.at? k))) := by
  have hg := at?_gather (plan.target.map (·.address)) plan.absorb k
  rw [Option.bind_map] at hg
  have ht : (plan.target.bind ((·.at? k) ∘ (·.address))) = plan.target.bind (·.address.at? k) := rfl
  rw [← ht, ← hg, finalAddress]
  cases gather (plan.target.map (·.address)) plan.absorb with
  | none => rw [Option.bind_none, Option.or_none]
  | some a => rw [Option.bind_some, Address.at?_updatedWith]

/-- The surviving row carries the request. -/
theorem mem_finalAddress_of_mem (plan : Plan) {x : Identifier} (h : x ∈ request.identifiers) :
    x ∈ (plan.finalAddress request).identifiers := by
  rw [Address.mem_identifiers_iff] at h ⊢
  rw [at?_finalAddress, h, Option.some_or]

/-- The final address has everything of the request. -/
theorem covers_finalAddress (plan : Plan) :
    (plan.finalAddress request).covers request = true :=
  Address.covers_iff.mpr fun _ hx => mem_finalAddress_of_mem plan hx

/-- What the surviving row carries was in the request, or on it or an absorbed row before. -/
theorem mem_of_mem_finalAddress {plan : Plan} {x : Identifier}
    (h : x ∈ (plan.finalAddress request).identifiers) :
    x ∈ request.identifiers ∨ ∃ p, (plan.target = some p ∨ p ∈ plan.absorb) ∧
      x ∈ p.address.identifiers := by
  rw [Address.mem_identifiers_iff, at?_finalAddress, Option.or_eq_some_iff] at h
  rcases h with h | ⟨-, h⟩
  · exact .inl (Address.mem_of_at? h)
  rw [Option.or_eq_some_iff, Option.bind_eq_some_iff] at h
  rcases h with ⟨p, hp, hx⟩ | ⟨-, h⟩
  · exact .inr ⟨p, .inl hp, Address.mem_of_at? hx⟩
  · obtain ⟨p, hp, hx⟩ := List.exists_of_findSome?_eq_some h
    exact .inr ⟨p, .inr hp, Address.mem_of_at? hx⟩

end PeerBook.Plan
