import PeerBook.Proofs.Reconcile.Ownership
import PeerBook.Proofs.Samples

/-!
# PeerBook.Proofs.Reconcile.Conflation

Whether a trusted resolution keeps two accounts apart on any table, also one
whose rows share identifiers. An absorbed row with an account identity is one
that the surviving row was already expected to have, with one exception: a
request without an ACI whose survivor has none either absorbs every other row
with its PNI, whatever their account identities are
(`expectedAci_of_mem_absorb`). So accounts are kept apart on every table but
those where two such rows carry different ones.

`MixesAccounts` says this of the rows before the resolution, and
`reconcile_keepsAccounts_iff` that it is the exact condition. It takes a PNI on
at least three rows, so a table in which no identifier is shared never meets it;
`mixedRows` is the least table that does.
-/

namespace PeerBook

open LawfulAddressTable

/-- Whether every account identity has a row afterwards, and no row with one was absorbed into a
row that ends up with another. -/
def KeepsAccounts (before after : PeerId → Option Address) (r : Reconciliation) : Prop :=
  (∀ z, (∃ i, Carries before i (.aci z)) → ∃ i, Carries after i (.aci z)) ∧
    ∀ i ∈ r.merged, ∀ y z, Carries before i (.aci y) → Carries after r.peer (.aci z) → y = z

/-- Whether a request without an ACI names a PNI that rows of two accounts carry, while the row of
the lowest handle that carries it has no account identity. -/
def MixesAccounts (rows : PeerId → Option Address) (request : Address) : Prop :=
  request.aci = none ∧ ∃ q, request.pni = some q ∧
    (∃ i a, rows i = some a ∧ a.pni = some q ∧ a.aci = none ∧
      ∀ j, Carries rows j (.pni q) → i.toNat ≤ j.toNat) ∧
    ∃ i j y z, Carries rows i (.pni q) ∧ Carries rows i (.aci y) ∧
      Carries rows j (.pni q) ∧ Carries rows j (.aci z) ∧ y ≠ z

namespace Plan

variable {request : Address} {found : List Peer}

/-- The account identity that the surviving row was expected to have it has, whatever was
absorbed. -/
theorem aci_finalAddress_of_expected {z : Aci} (h : expectedAci request found = some z) :
    ((Plan.of request found).finalAddress request).aci = some z := by
  rw [expectedAci, Option.or_eq_some_iff] at h
  rcases h with hr | ⟨hr, ht⟩
  · rw [← Address.aci_mem_identifiers]
    exact mem_finalAddress_of_mem _ (Address.aci_mem_identifiers.mpr hr)
  · obtain ⟨p, hp, hz⟩ := Option.bind_eq_some_iff.mp ht
    exact aci_finalAddress_of_target hp hz

/-- Where none was expected, the surviving row has that of the first absorbed row with one, if there
is any. -/
theorem aci_finalAddress_of_unexpected (h : expectedAci request found = none) :
    ((Plan.of request found).finalAddress request).aci =
      (Plan.of request found).absorb.findSome? (·.address.aci) := by
  rw [expectedAci, Option.or_eq_none_iff, Option.bind_eq_none_iff] at h
  obtain ⟨hr, ht⟩ := h
  have hz (a : Address) (z : Aci) : a.aci = some z ↔ a.at? .aci = some (.aci z) :=
    Address.at?_aci_eq_some.symm
  have hrn : request.at? .aci = none := by rw [Address.at?, hr, Option.map_none]
  have htn : ((Plan.of request found).target.bind (·.address.at? .aci)) = none := by
    rw [Option.bind_eq_none_iff]
    intro p hp
    rw [Address.at?, ht p hp, Option.map_none]
  have hf : (Plan.of request found).absorb.findSome? (·.address.at? .aci) =
      ((Plan.of request found).absorb.findSome? (·.address.aci)).map Identifier.aci := by
    rw [List.map_findSome?]
    rfl
  apply Option.ext
  intro z
  rw [hz, at?_finalAddress, hrn, htn, Option.none_or, Option.none_or, hf]
  simp only [Option.map_eq_some_iff, Identifier.aci.injEq, exists_eq_right]

/-- An absorbed row with an account identity has the expected one, or none is expected and the
request, the survivor and the row meet in a PNI. -/
theorem expectedAci_of_mem_absorb {p : Peer} {y : Aci} (hp : p ∈ (Plan.of request found).absorb)
    (hy : p.address.aci = some y) :
    expectedAci request found = some y ∨
      expectedAci request found = none ∧ request.aci = none ∧ ∃ q, request.pni = some q ∧
        p.address.pni = some q ∧ ∃ t, target? request found = some t ∧
          t.address.aci = none ∧ t.address.pni = some q := by
  obtain ⟨hf, -, hn⟩ := mem_absorb.mp hp
  have hcov : request.aci = some y → expectedAci request found = some y := by
    intro hr
    rw [expectedAci, hr, Option.some_or]
  rcases remainder?_eq_none_iff.mp hn with hc | ⟨hc, hs⟩
  · have := Address.covers_iff.mp hc _ (Address.aci_mem_identifiers.mpr hy)
    exact .inl (hcov (Address.aci_mem_identifiers.mp this))
  cases he : expectedAci request found with
  | some z =>
      refine .inl (congrArg some ?_)
      by_cases hyz : z = y
      · exact hyz
      · exact absurd (Address.conflictsWith_iff.mpr ⟨y, z, hy, he, Ne.symm hyz⟩) hc
  | none =>
      have he' := he
      rw [expectedAci, Option.or_eq_none_iff, Option.bind_eq_none_iff] at he'
      obtain ⟨hr, ht⟩ := he'
      rcases hs with hs | hs
      · obtain ⟨z, -, hz⟩ := Address.agree_eq_true.mp (Address.agreeAt_aci.mp hs)
        rw [hr] at hz
        contradiction
      · obtain ⟨t, htg, hst, -⟩ := target?_of_pni hr hf hs
        obtain ⟨q, hpq, hq⟩ := Address.agree_eq_true.mp (Address.agreeAt_pni.mp hs)
        obtain ⟨q', htq, hq'⟩ := Address.agree_eq_true.mp (Address.agreeAt_pni.mp hst)
        cases hq.symm.trans hq'
        exact .inr ⟨rfl, hr, q, hq, hpq, t, htg, ht t htg, htq⟩

end Plan

variable {τ : Type} [LawfulAddressTable τ] {t : τ} {request : Address}

/-- Carrying an account identity is having it at its place. -/
theorem carries_aci_iff {rows : PeerId → Option Address} {i : PeerId} {z : Aci} :
    Carries rows i (.aci z) ↔ ∃ a, rows i = some a ∧ a.aci = some z := by
  simp only [Carries, Address.aci_mem_identifiers]

/-- Carrying a phone-number identity is having it at its place. -/
theorem carries_pni_iff {rows : PeerId → Option Address} {i : PeerId} {q : Pni} :
    Carries rows i (.pni q) ↔ ∃ a, rows i = some a ∧ a.pni = some q := by
  simp only [Carries, Address.pni_mem_identifiers]

/-- Absorbed rows of two accounts, of which none was expected, are mixed accounts. Where none was
expected the request and the survivor have no ACI, so the rows can only have met it in the PNI. -/
theorem mixesAccounts_of_absorb (ht : Sound t) {p p' : Peer} {y z : Aci}
    (hp : p ∈ (Plan.of request (found t request)).absorb) (hy : p.address.aci = some y)
    (hp' : p' ∈ (Plan.of request (found t request)).absorb) (hz : p'.address.aci = some z)
    (hn : Plan.expectedAci request (found t request) = none) (hyz : y ≠ z) :
    MixesAccounts (row t) request := by
  have hrow {p : Peer} (hp : p ∈ (Plan.of request (found t request)).absorb) :
      row t p.id = some p.address := ((mem_found ht).mp (Plan.mem_absorb.mp hp).1).1
  obtain he | ⟨-, hr, q, hq, hpq, s, hs, hsz, hsq⟩ := Plan.expectedAci_of_mem_absorb hp hy
  · rw [hn] at he
    contradiction
  obtain he | ⟨-, -, q', hq', hpq', -⟩ := Plan.expectedAci_of_mem_absorb hp' hz
  · rw [hn] at he
    contradiction
  cases hq.symm.trans hq'
  have hsr := ((mem_found ht).mp (Plan.mem_of_target? hs)).1
  refine ⟨hr, q, hq, ⟨s.id, s.address, hsr, hsq, hsz, fun j hj => ?_⟩, p.id, p'.id, y, z,
    carries_pni_iff.mpr ⟨_, hrow hp, hpq⟩, carries_aci_iff.mpr ⟨_, hrow hp, hy⟩,
    carries_pni_iff.mpr ⟨_, hrow hp', hpq'⟩, carries_aci_iff.mpr ⟨_, hrow hp', hz⟩, hyz⟩
  obtain ⟨a, ha, haq⟩ := carries_pni_iff.mp hj
  have hagree : a.AgreeAt request .pni :=
    Address.agreeAt_pni.mpr (Address.agree_eq_true.mpr ⟨q, haq, hq⟩)
  have hsh : a.sharesWith request = true := Address.sharesWith_iff.mpr
    ⟨.pni q, Address.pni_mem_identifiers.mpr haq, Address.pni_mem_identifiers.mpr hq⟩
  have hf : (⟨j, a⟩ : Peer) ∈ found t request := (mem_found ht).mpr ⟨ha, hsh⟩
  obtain ⟨s', hs', -, hle⟩ := Plan.target?_of_pni hr hf hagree
  cases hs.symm.trans hs'
  exact hle

/-- Outside mixed accounts an absorbed row's account identity is the surviving row's: it is the
expected one, or the only one among the absorbed rows. -/
theorem aci_finalAddress_of_absorb (ht : Sound t) (hm : ¬MixesAccounts (row t) request)
    {p : Peer} {y : Aci} (hp : p ∈ (Plan.of request (found t request)).absorb)
    (hy : p.address.aci = some y) :
    ((Plan.of request (found t request)).finalAddress request).aci = some y := by
  obtain he | ⟨hn, -⟩ := Plan.expectedAci_of_mem_absorb hp hy
  · exact Plan.aci_finalAddress_of_expected he
  rw [Plan.aci_finalAddress_of_unexpected hn]
  cases hf : (Plan.of request (found t request)).absorb.findSome? (·.address.aci) with
  | none =>
      rw [List.findSome?_eq_none_iff] at hf
      rw [hf p hp] at hy
      contradiction
  | some z =>
      obtain ⟨p', hp', hz⟩ := List.exists_of_findSome?_eq_some hf
      by_cases hyz : y = z
      · rw [hyz]
      · exact absurd (mixesAccounts_of_absorb ht hp hy hp' hz hn hyz) hm

/-- Every account identity has a row after a resolution that mixes no accounts: its own row, or the
one that absorbed that. -/
theorem exists_carries_settled_aci (ht : Sound t) (hm : ¬MixesAccounts (row t) request)
    {i : PeerId} {z : Aci} (h : Carries (row t) i (.aci z)) :
    ∃ j, Carries (row (settled request t).2) j (.aci z) := by
  obtain ⟨a, ha, hz⟩ := carries_aci_iff.mp h
  by_cases hr : request.aci = some z
  · exact ⟨_, carries_settled_of_mem ht (Address.aci_mem_identifiers.mpr hr)⟩
  obtain ⟨p, -, -, hs⟩ | hs := settled_cases request t
  · rw [hs]
    exact ⟨i, h⟩
  have hfinal := Plan.row_applyTo_survivor request ht
  have hother {j : PeerId} (hj : j ≠ (settled request t).1.peer) := row_settled_of_ne ht hj
  rw [hs] at hother ⊢
  by_cases hi : i = ((Plan.of request (found t request)).outcome request (nextId t)).peer
  · exact ⟨_, carries_aci_iff.mpr
      ⟨_, hfinal, aci_finalAddress_of_target (Plan.target?_of_row_peer ht ha hi) hz⟩⟩
  obtain ⟨he, -⟩ | ⟨b, hb, hsh, he⟩ := hother hi
  · exact ⟨i, carries_aci_iff.mpr ⟨a, he.trans ha, hz⟩⟩
  cases ha.symm.trans hb
  have hf : (⟨i, a⟩ : Peer) ∈ found t request := (mem_found ht).mpr ⟨ha, hsh⟩
  cases hrest : Plan.remainder? request (Plan.expectedAci request (found t request)) ⟨i, a⟩ with
  | none =>
      have hp := Plan.mem_absorb.mpr ⟨hf, Plan.ne_target_of_ne hi, hrest⟩
      exact ⟨_, carries_aci_iff.mpr ⟨_, hfinal, aci_finalAddress_of_absorb ht hm hp hz⟩⟩
  | some rest =>
      refine ⟨i, rest, he.trans hrest, ?_⟩
      rw [Address.mem_without? (Plan.without?_of_remainder? hrest)]
      exact ⟨Address.aci_mem_identifiers.mpr hz, fun hx => hr (Address.aci_mem_identifiers.mp hx)⟩

/-- Where no accounts are mixed they are kept apart, and every account identity that had a row has
one. -/
theorem keepsAccounts_of_not_mixes (ht : Sound t) (hm : ¬MixesAccounts (row t) request) :
    KeepsAccounts (row t) (row (settled request t).2) (settled request t).1 := by
  refine ⟨fun z hz => hz.elim fun i hi => exists_carries_settled_aci ht hm hi, ?_⟩
  obtain ⟨p, -, -, hs⟩ | hs := settled_cases request t
  · rw [hs]
    intro i hi
    exact absurd hi List.not_mem_nil
  rw [hs]
  intro i hi y z hy hz
  rw [Plan.merged_outcome, List.mem_map] at hi
  obtain ⟨p, hp, rfl⟩ := hi
  have hr := ((mem_found ht).mp (Plan.mem_absorb.mp hp).1).1
  obtain ⟨a, ha, hay⟩ := carries_aci_iff.mp hy
  obtain ⟨b, hb, hbz⟩ := carries_aci_iff.mp hz
  cases hr.symm.trans ha
  cases (Plan.row_applyTo_survivor request ht).symm.trans hb
  rw [aci_finalAddress_of_absorb ht hm hp hay] at hbz
  exact Option.some.inj hbz

/-- Where accounts are mixed, two rows of different accounts go into one, which can have the account
identity of only one of them. -/
theorem not_keepsAccounts_of_mixes (ht : Sound t) (hm : MixesAccounts (row t) request) :
    ¬KeepsAccounts (row t) (row (settled request t).2) (settled request t).1 := by
  obtain ⟨hr, q, hq, ⟨s, c, hs, hsq, hsz, hlow⟩, i, j, y, z, hiq, hiy, hjq, hjz, hyz⟩ := hm
  have hagree {a : Address} (ha : a.pni = some q) : a.AgreeAt request .pni :=
    Address.agreeAt_pni.mpr (Address.agree_eq_true.mpr ⟨q, ha, hq⟩)
  have hfound {k : PeerId} {a : Address} (hk : row t k = some a) (ha : a.pni = some q) :
      (⟨k, a⟩ : Peer) ∈ found t request :=
    (mem_found ht).mpr ⟨hk, Address.sharesWith_iff.mpr
      ⟨.pni q, Address.pni_mem_identifiers.mpr ha, Address.pni_mem_identifiers.mpr hq⟩⟩
  -- the survivor is the row of the lowest handle, so no account identity is expected
  obtain ⟨u, hu, huq, hle⟩ := Plan.target?_of_pni hr (hfound hs hsq) (hagree hsq)
  have hur := ((mem_found ht).mp (Plan.mem_of_target? hu)).1
  have hus : u.id = s := by
    obtain ⟨q', huq', hq'⟩ := Address.agree_eq_true.mp (Address.agreeAt_pni.mp huq)
    cases hq.symm.trans hq'
    exact PeerId.toNat_inj (Nat.le_antisymm hle (hlow _ (carries_pni_iff.mpr ⟨_, hur, huq'⟩)))
  have huz : u.address.aci = none := by
    rw [hus, hs] at hur
    exact Option.some.inj hur ▸ hsz
  have hn : Plan.expectedAci request (found t request) = none := by
    rw [Plan.expectedAci, hr, hu, Option.none_or, Option.bind_some, huz]
  -- so every row of an account that carries the PNI is absorbed
  have habsorb {k : PeerId} {w : Aci} (hkq : Carries (row t) k (.pni q))
      (hkw : Carries (row t) k (.aci w)) :
      ∃ p ∈ (Plan.of request (found t request)).absorb, p.id = k ∧ p.address.aci = some w := by
    obtain ⟨a, ha, haq⟩ := carries_pni_iff.mp hkq
    obtain ⟨b, hb, hbw⟩ := carries_aci_iff.mp hkw
    cases ha.symm.trans hb
    refine ⟨⟨k, a⟩, Plan.mem_absorb.mpr ⟨hfound ha haq, fun v hv => ?_, ?_⟩, rfl, hbw⟩
    · cases hu.symm.trans hv
      rintro rfl
      cases hur.symm.trans ha
      rw [huz] at hbw
      contradiction
    · rw [Plan.remainder?_eq_none_iff, hn, Address.conflictsWith_iff]
      exact .inr ⟨by simp, .inr (hagree haq)⟩
  obtain ⟨p, hp, hpi, hpy⟩ := habsorb hiq hiy
  obtain ⟨p', hp', hpj, hpz⟩ := habsorb hjq hjz
  obtain ⟨w, hw⟩ : ∃ w, ((Plan.of request (found t request)).finalAddress request).aci =
      some w := by
    rw [Plan.aci_finalAddress_of_unexpected hn, ← Option.isSome_iff_exists,
      List.findSome?_isSome_iff]
    exact ⟨p, hp, by rw [hpy]; rfl⟩
  rintro ⟨-, hkeep⟩
  obtain ⟨p₀, hf, -, -⟩ | hset := settled_cases request t
  · have hone {k : Peer} (hk : k ∈ (Plan.of request (found t request)).absorb) : k = p₀ := by
      have := (Plan.mem_absorb.mp hk).1
      rwa [hf, List.mem_singleton] at this
    rw [hone hp] at hpy
    rw [hone hp', hpy] at hpz
    exact hyz (Option.some.inj hpz)
  · rw [hset, Plan.merged_outcome] at hkeep
    have hpeer := carries_aci_iff.mpr ⟨_, Plan.row_applyTo_survivor request ht, hw⟩
    have hy := hkeep i (hpi ▸ List.mem_map_of_mem hp) y w hiy hpeer
    have hz := hkeep j (hpj ▸ List.mem_map_of_mem hp') z w hjz hpeer
    exact hyz (hy.trans hz.symm)

/-- **A trusted resolution keeps accounts apart exactly where the request does not mix them.** -/
theorem reconcile_keepsAccounts_iff (request : Address) (ht : Sound t) :
    ∃ r t', (reconcile request).Returns t r t' ∧
      (KeepsAccounts (row t) (row t') r ↔ ¬MixesAccounts (row t) request) := by
  refine ⟨_, _, reconcile_returns request ht, ?_, keepsAccounts_of_not_mixes ht⟩
  intro hk hm
  exact not_keepsAccounts_of_mixes ht hm hk

/-! ## A table that mixes accounts -/

/-- Three rows with one PNI, of which the later two carry different account identities. -/
def mixedRows : Rows :=
  ⟨[⟨⟨1⟩, .ofPni (.sample 0)⟩,
    ⟨⟨2⟩, (Address.ofAci (.sample 0)).withPni (.sample 0)⟩,
    ⟨⟨3⟩, (Address.ofAci (.sample 1)).withPni (.sample 0)⟩], ⟨4⟩⟩

/-- The phone-number identity alone, which all three rows carry, mixes the accounts of the last
two. -/
theorem mixesAccounts_mixedRows : MixesAccounts (row mixedRows) (.ofPni (.sample 0)) := by
  have h₁ : row mixedRows ⟨1⟩ = some (.ofPni (.sample 0)) := rfl
  have h₂ : row mixedRows ⟨2⟩ = some ((Address.ofAci (.sample 0)).withPni (.sample 0)) := rfl
  have h₃ : row mixedRows ⟨3⟩ = some ((Address.ofAci (.sample 1)).withPni (.sample 0)) := rfl
  refine ⟨rfl, .sample 0, rfl, ⟨⟨1⟩, _, h₁, rfl, rfl, fun j hj => ?_⟩, ⟨2⟩, ⟨3⟩, .sample 0,
    .sample 1, carries_pni_iff.mpr ⟨_, h₂, rfl⟩, carries_aci_iff.mpr ⟨_, h₂, rfl⟩,
    carries_pni_iff.mpr ⟨_, h₃, rfl⟩, carries_aci_iff.mpr ⟨_, h₃, rfl⟩, by decide⟩
  obtain ⟨a, ha, -⟩ := hj
  have hj : j ∈ mixedRows.peers.map Peer.id := by
    rw [← Decidable.not_not (p := j ∈ _), ← Peer.lookup_eq_none_iff]
    show row mixedRows j ≠ none
    rw [ha]
    exact nofun
  have hall : ∀ j ∈ mixedRows.peers.map Peer.id, PeerId.toNat ⟨1⟩ ≤ j.toNat := by decide
  exact hall j hj

/-- The PNI alone brings both account identities onto the first row, which keeps one of them. -/
theorem reconcile_mixedRows :
    ∃ r t', (reconcile (.ofPni (.sample 0))).Returns mixedRows r t' ∧ r.merged = [⟨2⟩, ⟨3⟩] ∧
      t'.peers = [⟨⟨1⟩, (Address.ofAci (.sample 0)).withPni (.sample 0)⟩] ∧
      ¬KeepsAccounts (row mixedRows) (row t') r := by
  obtain ⟨r, t', h, hk⟩ := reconcile_keepsAccounts_iff (.ofPni (.sample 0))
    (t := mixedRows) (by show Rows.Distinct _; unfold Rows.Distinct; decide)
  refine ⟨r, t', h, ?_, ?_, fun hkeep => hk.mp hkeep mixesAccounts_mixedRows⟩
  · have hr : r = ⟨⟨1⟩, [⟨2⟩, ⟨3⟩], [], false, true⟩ := Except.ok.inj (h.1.symm.trans rfl)
    rw [hr]
  · rw [← h.2]
    rfl

end PeerBook
