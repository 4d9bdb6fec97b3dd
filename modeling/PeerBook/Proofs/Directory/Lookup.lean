import PeerBook.Account.Resolve
import PeerBook.Proofs.Address.ByKind
import PeerBook.Proofs.Directory.Overlay
import PeerBook.Proofs.PeerId.Order

/-!
# PeerBook.Proofs.Directory.Lookup

What an untrusted look-up finds: a peer that agrees with the address on a kind
such that none agrees with it on a stronger one (`bestMatch?_spec`), the lowest
of those that agree on this kind (`le_of_bestMatch?`), and no peer only when
none shares anything with it (`bestMatch?_eq_none_iff`).

The choice is a fold over the peers by ascending handle that keeps the first of
the highest rank, so that it is lowest among equals comes from the order of the
rows (`highest?_first`). What is recorded where nothing is found is part of the
address (`mem_of_mem_recordable`).
-/

namespace PeerBook.Directory

/-- There is a highest choice wherever there is any. -/
theorem highest?_eq_none_iff {cs : List (Kind × Peer)} : highest? cs = none ↔ cs = [] := by
  cases cs with
  | nil => simp [highest?]
  | cons c cs =>
      simp only [highest?]
      split
      · simp
      · split <;> simp

/-- The choice is one of the list, and none of the list is higher, by induction on the list from its
end. -/
theorem highest?_spec {cs : List (Kind × Peer)} {c : Kind × Peer} (h : highest? cs = some c) :
    c ∈ cs ∧ ∀ e ∈ cs, e.1.strength ≤ c.1.strength := by
  induction cs generalizing c with
  | nil => contradiction
  | cons b bs ih =>
      simp only [highest?] at h
      split at h
      · rename_i hn
        cases h
        rw [highest?_eq_none_iff.mp hn]
        simp
      · rename_i d hd
        obtain ⟨hm, hmax⟩ := ih hd
        split at h
        · rename_i hlt
          cases h
          refine ⟨List.mem_cons_of_mem b hm, fun e he => ?_⟩
          rcases List.mem_cons.mp he with rfl | he
          · exact Nat.le_of_lt hlt
          · exact hmax e he
        · rename_i hlt
          cases h
          refine ⟨List.mem_cons_self, fun e he => ?_⟩
          rcases List.mem_cons.mp he with rfl | he
          · exact Nat.le_refl _
          · exact Nat.le_trans (hmax e he) (Nat.le_of_not_lt hlt)

/-- What stands before the choice is lower: of choices of one rank the first is kept, which is the
one of the lowest handle where the list ascends. -/
theorem highest?_first {cs : List (Kind × Peer)} {c : Kind × Peer} (h : highest? cs = some c) :
    ∃ before after, cs = before ++ c :: after ∧ ∀ e ∈ before, e.1.strength < c.1.strength := by
  induction cs generalizing c with
  | nil => contradiction
  | cons b bs ih =>
      simp only [highest?] at h
      split at h
      · cases h
        exact ⟨[], bs, rfl, nofun⟩
      · rename_i d hd
        split at h
        · rename_i hlt
          cases h
          obtain ⟨before, after, rfl, hbefore⟩ := ih hd
          refine ⟨b :: before, after, rfl, fun e he => ?_⟩
          rcases List.mem_cons.mp he with rfl | he
          · exact hlt
          · exact hbefore e he
        · cases h
          exact ⟨[], bs, rfl, nofun⟩

/-- The peer found has a row that agrees with the address on some kind, and no row agrees with it on
a stronger one. -/
theorem bestMatch?_spec {d : Directory} {a : Address} {p : Peer} (h : d.bestMatch? a = some p) :
    d.rows.get? p.id = some p.address ∧ ∃ k, p.address.rank a = some k ∧
      ∀ i b j, d.rows.get? i = some b → b.rank a = some j → j.strength ≤ k.strength := by
  obtain ⟨⟨k, q⟩, hq, rfl⟩ := Option.map_eq_some_iff.mp h
  obtain ⟨hm, hmax⟩ := highest?_spec hq
  obtain ⟨r, hr, hkr⟩ := List.mem_filterMap.mp hm
  obtain ⟨k', hk', hk⟩ := Option.map_eq_some_iff.mp hkr
  cases hk
  refine ⟨mem_peersOf.mp hr, k, hk', fun i b j hb hj => ?_⟩
  refine hmax (j, ⟨i, b⟩) (List.mem_filterMap.mpr ⟨⟨i, b⟩, mem_peersOf.mpr hb, ?_⟩)
  rw [hj, Option.map_some]

/-- The peer found shares an identifier with the address. -/
theorem sharesWith_of_bestMatch? {d : Directory} {a : Address} {p : Peer}
    (h : d.bestMatch? a = some p) :
    d.rows.get? p.id = some p.address ∧ p.address.sharesWith a = true := by
  obtain ⟨hp, k, hk, -⟩ := bestMatch?_spec h
  exact ⟨hp, Option.isSome_iff_exists.mpr ⟨k, hk⟩⟩

/-- Of the rows that agree with the address on the same kind the lowest is found. The choices stand
by ascending handle like the rows, so one that was passed over comes later. -/
theorem le_of_bestMatch? {d : Directory} {a b : Address} {p : Peer} {i : PeerId}
    (h : d.bestMatch? a = some p) (hi : d.rows.get? i = some b)
    (hr : b.rank a = p.address.rank a) : p.id.toNat ≤ i.toNat := by
  obtain ⟨⟨k, q⟩, hq, rfl⟩ := Option.map_eq_some_iff.mp h
  obtain ⟨r, -, hk⟩ := List.mem_filterMap.mp (highest?_spec hq).1
  obtain ⟨k', hk', hkq⟩ := Option.map_eq_some_iff.mp hk
  cases hkq
  -- the choices stand by ascending handle, like the rows
  have hasc : (d.all.filterMap fun p => (p.address.rank a).map (·, p)).Pairwise
      fun e f => compare e.2.id f.2.id = .lt := by
    refine (ascending_peersOf d.rows).filterMap _ fun p q hpq e he f hf => ?_
    obtain ⟨-, -, rfl⟩ := Option.map_eq_some_iff.mp he
    obtain ⟨-, -, rfl⟩ := Option.map_eq_some_iff.mp hf
    exact hpq
  have hm : (k, ⟨i, b⟩) ∈ d.all.filterMap fun p => (p.address.rank a).map (·, p) :=
    List.mem_filterMap.mpr ⟨⟨i, b⟩, mem_peersOf.mpr hi, by rw [hr, hk']; rfl⟩
  obtain ⟨before, after, heq, hbefore⟩ := highest?_first hq
  rw [heq] at hasc hm
  rcases List.mem_append.mp hm with hm | hm
  · exact absurd (hbefore _ hm) (Nat.lt_irrefl _)
  rcases List.mem_cons.mp hm with hm | hm
  · cases hm
    exact Nat.le_refl _
  · have hlt := List.rel_of_pairwise_cons (List.pairwise_append.mp hasc).2.1 hm
    exact Nat.le_of_lt (PeerId.compare_eq_lt_iff.mp hlt)

/-- No peer is found when no row shares an identifier with the address: every agreement, however
weak, makes a row a choice. -/
theorem bestMatch?_eq_none_iff {d : Directory} {a : Address} :
    d.bestMatch? a = none ↔ ∀ i b, d.rows.get? i = some b → ¬b.sharesWith a = true := by
  rw [bestMatch?, Option.map_eq_none_iff, highest?_eq_none_iff, List.filterMap_eq_nil_iff]
  constructor
  · intro h i b hb hs
    have hn := h ⟨i, b⟩ (mem_peersOf.mpr hb)
    rw [Option.map_eq_none_iff] at hn
    rw [Address.sharesWith, hn] at hs
    contradiction
  · intro h p hp
    have hs := h p.id p.address (mem_peersOf.mp hp)
    rw [Address.sharesWith, Bool.not_eq_true, Option.isSome_eq_false_iff,
      Option.isNone_iff_eq_none] at hs
    rw [hs, Option.map_none]

/-- What a look-up records is part of the address, and shares an identifier with it. -/
theorem mem_of_mem_recordable {a : Address} {x : Identifier}
    (h : x ∈ (Account.recordable a).identifiers) : x ∈ a.identifiers := by
  rw [Address.mem_identifiers_iff] at h ⊢
  unfold Account.recordable at h
  split at h
  · rename_i z hz _
    cases x <;> simp_all [Address.at?, Address.ofAci, Identifier.kind]
  · rename_i z hz hn
    cases x <;> simp_all [Address.at?, Address.ofPni, Identifier.kind]
  · exact h

end PeerBook.Directory
