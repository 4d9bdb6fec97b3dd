import PeerBook.Proofs.Address.ByKind
import PeerBook.Proofs.PeerId.Order
import PeerBook.Reconcile

/-!
# PeerBook.Proofs.Reconcile.Choice

Which row survives a trusted request. `Peer.best?` finds a choice that no other
beats, so the survivor (`Plan.target?`) is the owner of the request's ACI where
there is one, and otherwise the row of the strongest agreement and the lowest
handle among those that may survive (`eligible_iff`).

- `target?_cases` has the two cases as one statement, `target?_of_owner` and
  `target?_of_pni` say for two kinds of request which row it is.
- `exists_target?_of_eligible` is the other direction: a new row is made only
  where none may survive.
-/

namespace PeerBook

/-! ## The best of several choices -/

namespace Peer

/-- One choice beats another when it agrees on a stronger kind, or on one as strong and has the
lower handle. -/
theorem better_iff {a b : Kind × Peer} :
    better a b = true ↔
      b.1.strength < a.1.strength ∨
        a.1.strength = b.1.strength ∧ a.2.id.toNat < b.2.id.toNat := by
  rw [better, Bool.or_eq_true, Bool.and_eq_true, beq_iff_eq, beq_iff_eq, decide_eq_true_iff,
    PeerId.compare_eq_lt_iff]
  constructor
  · rintro (h | ⟨h, hid⟩)
    · exact .inl h
    · exact .inr ⟨congrArg Kind.strength h, hid⟩
  · rintro (h | ⟨h, hid⟩)
    · exact .inl h
    · exact .inr ⟨Kind.strength_inj h, hid⟩

/-- Beating is transitive, so the best of a list can be found in one pass. -/
theorem better_trans {a b c : Kind × Peer} (hab : better a b = true) (hbc : better b c = true) :
    better a c = true := by
  rw [better_iff] at *
  omega

/-- There is a best choice wherever there is any. -/
theorem best?_eq_none_iff {cs : List (Kind × Peer)} : best? cs = none ↔ cs = [] := by
  cases cs with
  | nil => simp [best?]
  | cons c cs =>
      simp only [best?]
      split
      · simp
      · split <;> simp

/-- The best choice is one of the list, so the survivor is a row that was found. -/
theorem mem_of_best? {cs : List (Kind × Peer)} {c : Kind × Peer} (h : best? cs = some c) :
    c ∈ cs := by
  induction cs with
  | nil => contradiction
  | cons d ds ih =>
      simp only [best?] at h
      split at h
      · cases h
        exact List.mem_cons_self
      · rename_i e he
        split at h
        · cases h
          exact List.mem_cons_self
        · cases h
          exact List.mem_cons_of_mem d (ih he)

/-- No choice beats the best one, by induction on the list: the best of the rest is compared with
the first, and beating is transitive. -/
theorem not_better_best? {cs : List (Kind × Peer)} {c d : Kind × Peer} (h : best? cs = some c)
    (hd : d ∈ cs) : ¬better d c = true := by
  induction cs generalizing c with
  | nil => contradiction
  | cons e es ih =>
      simp only [best?] at h
      split at h
      · rename_i hn
        cases h
        rw [best?_eq_none_iff.mp hn, List.mem_singleton] at hd
        rw [hd, better_iff]
        omega
      · rename_i f hf
        split at h
        · rename_i hb
          cases h
          rcases List.mem_cons.mp hd with rfl | hd
          · rw [better_iff]
            omega
          · exact fun hde => ih hf hd (better_trans hde hb)
        · rename_i hb
          cases h
          rcases List.mem_cons.mp hd with rfl | hd
          · exact hb
          · exact ih hf hd

end Peer

/-! ## The surviving row -/

namespace Plan

/-- A row may survive when it does not carry another ACI than the request, and shares an ACI or a
PNI with it or has nothing that it lacks. -/
theorem eligible_iff {request : Address} {p : Peer} {c : Kind × Peer} :
    eligible request p = some c ↔
      c.2 = p ∧ p.address.rank request = some c.1 ∧ ¬p.address.conflictsWith request.aci = true ∧
        (.pni ≤ c.1 ∨ request.covers p.address = true) := by
  have hs (k : Kind) : (decide (.pni ≤ k) || !p.address.exceeds request) = true ↔
      .pni ≤ k ∨ request.covers p.address = true := by
    rw [Address.exceeds, Bool.not_not, Bool.or_eq_true, decide_eq_true_iff]
  obtain ⟨k, q⟩ := c
  unfold eligible
  split
  · rename_i hc
    simp [hc]
  · rename_i hc
    split
    · rename_i hr
      simp [hr]
    · rename_i j hr
      split
      · rename_i he
        rw [Option.some.injEq, Prod.mk.injEq, hr, Option.some.injEq]
        constructor
        · rintro ⟨rfl, rfl⟩
          exact ⟨rfl, rfl, hc, (hs j).mp he⟩
        · rintro ⟨rfl, rfl, -⟩
          exact ⟨rfl, rfl⟩
      · rename_i he
        constructor
        · intro h
          contradiction
        · rintro ⟨-, hk, -, h⟩
          rw [hr, Option.some.injEq] at hk
          exact absurd ((hs j).mpr (hk ▸ h)) he

/-- The survivor is the owner of the request's ACI, or there is none and it is the best of the rows
that may survive. -/
theorem target?_cases {request : Address} {found : List Peer} {t : Peer}
    (h : target? request found = some t) :
    t ∈ found ∧ ((∃ z, request.aci = some z ∧ t.address.aci = some z) ∨
      (∀ z, request.aci = some z → ∀ p ∈ found, p.address.aci ≠ some z) ∧
        ∃ k, eligible request t = some (k, t) ∧
          ∀ p ∈ found, ∀ j, eligible request p = some (j, p) →
            ¬Peer.better (j, p) (k, t) = true) := by
  unfold target? at h
  split at h
  · rename_i owner ho
    cases h
    obtain ⟨z, hz, hf⟩ := Option.bind_eq_some_iff.mp ho
    exact ⟨List.mem_of_find?_eq_some hf, .inl ⟨z, hz, by simpa using List.find?_some hf⟩⟩
  · rename_i ho
    obtain ⟨⟨k, q⟩, hb, rfl⟩ := Option.map_eq_some_iff.mp h
    obtain ⟨p, hp, he⟩ := List.mem_filterMap.mp (Peer.mem_of_best? hb)
    obtain rfl : q = p := (eligible_iff.mp he).1
    refine ⟨hp, .inr ⟨fun z hz p hp hpz => ?_, k, he, fun p hp j hj => ?_⟩⟩
    · rw [hz, Option.bind_some, List.find?_eq_none] at ho
      exact ho p hp (by simpa using hpz)
    · exact Peer.not_better_best? hb (List.mem_filterMap.mpr ⟨p, hp, hj⟩)

/-- The survivor is one of the rows found. -/
theorem mem_of_target? {request : Address} {found : List Peer} {t : Peer}
    (h : target? request found = some t) : t ∈ found := (target?_cases h).1

/-- Where a row may survive, one does: either the owner of the request's ACI or the best of the
rest. -/
theorem exists_target?_of_eligible {request : Address} {found : List Peer} {p : Peer} {k : Kind}
    (hp : p ∈ found) (he : eligible request p = some (k, p)) :
    ∃ t, target? request found = some t := by
  unfold target?
  split
  · exact ⟨_, rfl⟩
  · cases hb : Peer.best? (found.filterMap (eligible request)) with
    | none =>
        have hm := List.mem_filterMap.mpr ⟨p, hp, he⟩
        rw [Peer.best?_eq_none_iff.mp hb] at hm
        contradiction
    | some c => exact ⟨c.2, rfl⟩

/-- Where the request's ACI has an owner, the survivor owns it. -/
theorem target?_of_owner {request : Address} {found : List Peer} {p : Peer} {z : Aci}
    (hz : request.aci = some z) (hp : p ∈ found) (hpz : p.address.aci = some z) :
    ∃ t, target? request found = some t ∧ t.address.aci = some z := by
  unfold target?
  rw [hz, Option.bind_some]
  cases hf : found.find? (·.address.aci == some z) with
  | none =>
      rw [List.find?_eq_none] at hf
      exact absurd (by simpa using hpz) (hf p hp)
  | some t => exact ⟨t, rfl, by simpa using List.find?_some hf⟩

/-- Where the request proves no account and a row shares its PNI, the survivor is the row of the
lowest handle that does. -/
theorem target?_of_pni {request : Address} {found : List Peer} {p : Peer}
    (hn : request.aci = none) (hp : p ∈ found) (ha : p.address.AgreeAt request .pni) :
    ∃ t, target? request found = some t ∧ t.address.AgreeAt request .pni ∧
      t.id.toNat ≤ p.id.toNat := by
  -- without an ACI in the request nothing conflicts, and no rank exceeds that of a PNI
  have hfree (q : Peer) : ¬q.address.conflictsWith request.aci = true := by
    rw [hn, Address.conflictsWith_iff]
    simp
  have hrank (q : Peer) (k : Kind) (hk : q.address.rank request = some k) :
      k.strength ≤ Kind.pni.strength := by
    cases k with
    | aci =>
        obtain ⟨z, -, hz⟩ := Address.agree_eq_true.mp
          (Address.agreeAt_aci.mp (Address.agreeAt_of_rank hk))
        rw [hn] at hz
        contradiction
    | pni | number | username => decide
  obtain ⟨k, hk, hle⟩ := Address.le_rank_of_agreeAt ha
  have he : eligible request p = some (k, p) :=
    eligible_iff.mpr ⟨rfl, hk, hfree p, .inl hle⟩
  obtain ⟨t, ht⟩ := exists_target?_of_eligible hp he
  refine ⟨t, ht, ?_⟩
  obtain ⟨-, ⟨z, hz, -⟩ | ⟨-, j, hj, hbest⟩⟩ := target?_cases ht
  · rw [hn] at hz
    contradiction
  · have hb := hbest p hp k he
    rw [Peer.better_iff] at hb
    dsimp only at hb
    obtain ⟨-, hjr, -⟩ := eligible_iff.mp hj
    have hjle := hrank t j hjr
    have hkle := hrank p k hk
    have hpk : Kind.pni.strength ≤ k.strength := hle
    have hjp : j = .pni := Kind.strength_inj (by omega)
    refine ⟨Address.agreeAt_of_rank (hjp ▸ hjr), ?_⟩
    omega

end Plan

end PeerBook
