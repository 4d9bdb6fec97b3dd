import PeerBook.Proofs.PeerId.Order
import PeerBook.Proofs.Reconcile.Changes
import PeerBook.Proofs.Samples

/-!
# PeerBook.Proofs.Reconcile.Disposition

Where every identifier goes in a trusted resolution. Apart from the surviving
row, a row that meets the request either gives way to it or keeps its handle and
what the request does not carry; which of the two is said by the request, the
row and the address that the surviving row had (`GivesWay`). The surviving row
holds of each kind the request's identifier, else its own, else that of the
lowest absorbed handle that has one (`LowestHolds`). `Disposes` is the whole
account of the table, and `reconcile_disposes` says that every resolution on a
table in ascending order ends with it.

The account leaves two things out because they cannot happen: a new row that
absorbs others, and a row whose account identity is another than the surviving
row's although the request has all of it (`givesWay_iff`).
-/

namespace PeerBook

open LawfulAddressTable

/-! ## The account -/

/-- Whether a row that meets the request gives way to the surviving one, of which the earlier
address is given: it is of no other account, and it shares its ACI or PNI with the request or has
nothing that the request lacks. -/
def GivesWay (request : Address) (earlier : Option Address) (a : Address) : Prop :=
  ¬a.conflictsWith (request.aci.or (earlier.bind (·.aci))) = true ∧
    (a.AgreeAt request .aci ∨ a.AgreeAt request .pni ∨
      ∀ x ∈ a.identifiers, x ∈ request.identifiers)

/-- Whether the lowest of some handles whose row has an identifier of a kind has this one. -/
def LowestHolds (rows : PeerId → Option Address) (ids : List PeerId) (k : Kind) (x : Identifier) :
    Prop :=
  ∃ i ∈ ids, (rows i).bind (·.at? k) = some x ∧
    ∀ j ∈ ids, (rows j).bind (·.at? k) ≠ none → i.toNat ≤ j.toNat

/-- What a trusted request makes of every row: the rows before and after, and the answer. -/
structure Disposes (request : Address) (before after : PeerId → Option Address)
    (r : Reconciliation) : Prop where
  /-- A row that meets nothing of the request is as before. -/
  unmet : ∀ i a, before i = some a → ¬a.sharesWith request = true →
    after i = some a ∧ i ≠ r.peer ∧ i ∉ r.merged ∧ i ∉ r.stripped
  /-- Another row that gives way is removed and listed as merged. -/
  absorbed : ∀ i a, before i = some a → a.sharesWith request = true → i ≠ r.peer →
    GivesWay request (before r.peer) a → after i = none ∧ i ∈ r.merged ∧ i ∉ r.stripped
  /-- Another row that does not give way is listed as stripped, and keeps exactly what the request
  does not carry. -/
  stripped : ∀ i a, before i = some a → a.sharesWith request = true → i ≠ r.peer →
    ¬GivesWay request (before r.peer) a → i ∈ r.stripped ∧ i ∉ r.merged ∧
      ∃ b, after i = some b ∧ b.identifiers ≠ [] ∧
        ∀ x, x ∈ b.identifiers ↔ x ∈ a.identifiers ∧ x ∉ request.identifiers
  /-- No other row appears. -/
  absent : ∀ i, before i = none → i ≠ r.peer → after i = none ∧ i ∉ r.merged ∧ i ∉ r.stripped
  /-- Of each kind the surviving row has the request's identifier, else its own, else that of the
  lowest absorbed handle with one. -/
  survivor : r.peer ∉ r.merged ∧ r.peer ∉ r.stripped ∧ ∃ c, after r.peer = some c ∧
    ∀ k x, c.at? k = some x ↔ request.at? k = some x ∨ request.at? k = none ∧
      ((before r.peer).bind (·.at? k) = some x ∨
        (before r.peer).bind (·.at? k) = none ∧ LowestHolds before r.merged k x)
  /-- A row is new if there was none, and then none is absorbed. -/
  created : (r.created = true ↔ before r.peer = none) ∧ (r.created = true → r.merged = [])

variable {τ : Type} [LawfulAddressTable τ] {t : τ} {request : Address}

/-! ## Who gives way -/

/-- The rows that give way are those of which nothing is left: the program's test of the remainder
comes down to what is said of the row and the address of the survivor. -/
theorem givesWay_iff {earlier : Option Address} {i : PeerId} {a : Address} :
    GivesWay request earlier a ↔
      Plan.remainder? request (request.aci.or (earlier.bind (·.aci))) ⟨i, a⟩ = none := by
  rw [GivesWay, ← Address.covers_iff, Plan.remainder?_eq_none_iff]
  constructor
  · rintro ⟨hn, ha | hp | hc⟩
    · exact .inr ⟨hn, .inl ha⟩
    · exact .inr ⟨hn, .inr hp⟩
    · exact .inl hc
  · rintro (hc | ⟨hn, ha | hp⟩)
    · exact ⟨Address.not_conflictsWith_of_covers hc _, .inr (.inr hc)⟩
    · exact ⟨hn, .inl ha⟩
    · exact ⟨hn, .inr (.inl hp)⟩

/-- Another row that meets the request is left what the account says: nothing if it gives way, else
what the request does not carry. -/
theorem row_settled_of_met (ht : Sound t) {i : PeerId} {a : Address} (ha : row t i = some a)
    (hsh : a.sharesWith request = true) (hi : i ≠ (settled request t).1.peer) :
    row (settled request t).2 i = Plan.remainder? request
      (request.aci.or ((row t (settled request t).1.peer).bind (·.aci))) ⟨i, a⟩ := by
  obtain ⟨-, hn⟩ | ⟨a', ha', -, hr⟩ := row_settled_of_ne ht hi
  · exact absurd hsh (hn a ha)
  cases ha.symm.trans ha'
  rw [hr]
  obtain ⟨p, hf, -, hs⟩ | hs := settled_cases request t
  · -- a row that is found alone and has everything is the surviving one
    have hm : (⟨i, a⟩ : Peer) ∈ found t request := (mem_found ht).mpr ⟨ha, hsh⟩
    rw [hf, List.mem_singleton] at hm
    rw [hs] at hi
    exact absurd (congrArg Peer.id hm) hi
  · rw [hs, ← Plan.target?_address ht, Option.bind_map]
    rfl

/-! ## What the surviving row gathers -/

/-- The first of ascending peers with an identifier of a kind is the lowest one with one, so the
order in which rows are absorbed need not be spoken of. -/
theorem findSome?_eq_some_iff_lowestHolds (ht : Sound t) {ps : List Peer}
    (hps : ps.Sublist (found t request))
    (hasc : (found t request).Pairwise fun p q => compare p.id q.id = .lt) {k : Kind}
    {x : Identifier} :
    ps.findSome? (·.address.at? k) = some x ↔ LowestHolds (row t) (ps.map Peer.id) k x := by
  have hrow {p : Peer} (hp : p ∈ ps) : row t p.id = some p.address :=
    ((mem_found ht).mp (hps.subset hp)).1
  have hasc := hasc.sublist hps
  constructor
  · intro h
    obtain ⟨first, p, last, rfl, hx, hnone⟩ := List.findSome?_eq_some_iff.mp h
    have hp : p ∈ first ++ p :: last := List.mem_append_right _ List.mem_cons_self
    refine ⟨p.id, List.mem_map_of_mem hp, by rw [hrow hp]; exact hx, fun j hj hne => ?_⟩
    obtain ⟨q, hq, rfl⟩ := List.mem_map.mp hj
    rw [hrow hq, Option.bind_some] at hne
    rcases List.mem_append.mp hq with hq | hq
    · exact absurd (hnone q hq) hne
    · rcases List.mem_cons.mp hq with rfl | hq
      · exact Nat.le_refl _
      · have hlast := List.rel_of_pairwise_cons (List.pairwise_append.mp hasc).2.1 hq
        exact Nat.le_of_lt (PeerId.compare_eq_lt_iff.mp hlast)
  · rintro ⟨i, hi, hx, hlow⟩
    obtain ⟨p, hp, rfl⟩ := List.mem_map.mp hi
    rw [hrow hp, Option.bind_some] at hx
    obtain ⟨first, last, rfl⟩ := List.append_of_mem hp
    refine List.findSome?_eq_some_iff.mpr ⟨first, p, last, rfl, hx, fun q hq => ?_⟩
    have hlt := (List.pairwise_append.mp hasc).2.2 q hq p List.mem_cons_self
    have hm := List.mem_append_left (p :: last) hq
    cases hk : q.address.at? k with
    | none => rfl
    | some y =>
        have hle := hlow q.id (List.mem_map_of_mem hm) (by simp [hrow hm, hk])
        exact absurd (PeerId.compare_eq_lt_iff.mp hlt) (Nat.not_lt.mpr hle)

/-- What the surviving row holds, kind by kind: the request's identifier, else its own, else that of
the lowest absorbed row with one. -/
theorem at?_row_settled_peer (ht : Sound t)
    (hasc : (found t request).Pairwise fun p q => compare p.id q.id = .lt) :
    ∃ c, row (settled request t).2 (settled request t).1.peer = some c ∧
      ∀ k x, c.at? k = some x ↔ request.at? k = some x ∨ request.at? k = none ∧
        ((row t (settled request t).1.peer).bind (·.at? k) = some x ∨
          (row t (settled request t).1.peer).bind (·.at? k) = none ∧
            LowestHolds (row t) (settled request t).1.merged k x) := by
  obtain ⟨p, hf, hc, hs⟩ | hs := settled_cases request t
  · have hp := ((mem_found ht).mp (hf ▸ List.mem_singleton_self p)).1
    rw [hs]
    refine ⟨p.address, hp, fun k x => ?_⟩
    have hlow : ¬LowestHolds (row t) [] k x := by simp [LowestHolds]
    have hagree {y : Identifier} (hy : request.at? k = some y) : p.address.at? k = some y := by
      have hm := Address.covers_iff.mp hc y (Address.mem_of_at? hy)
      rw [Address.mem_identifiers_iff, Address.kind_of_at? hy] at hm
      exact hm
    rw [hp, Option.bind_some]
    cases hr : request.at? k with
    | none => simp [hlow]
    | some y => simp [hagree hr]
  · rw [hs]
    refine ⟨_, Plan.row_applyTo_survivor request ht, fun k x => ?_⟩
    have hsub : (Plan.of request (found t request)).absorb.Sublist (found t request) :=
      List.filter_sublist.trans List.filter_sublist
    have hown : (Plan.of request (found t request)).target.bind (·.address.at? k) =
        (row t ((Plan.of request (found t request)).outcome request (nextId t)).peer).bind
          (·.at? k) := by
      rw [← Plan.target?_address ht, Option.bind_map]
      rfl
    rw [Plan.at?_finalAddress, Plan.merged_outcome, hown,
      ← findSome?_eq_some_iff_lowestHolds ht hsub hasc]
    simp only [Option.or_eq_some_iff]

/-! ## The whole account -/

/-- **Where every identifier goes**: a trusted resolution on a table in ascending order answers, and
every row is what the account says. -/
theorem reconcile_disposes (request : Address) (ht : Sound t)
    (hasc : (found t request).Pairwise fun p q => compare p.id q.id = .lt) :
    ∃ r t', (reconcile request).Returns t r t' ∧ Disposes request (row t) (row t') r := by
  refine ⟨_, _, reconcile_returns request ht, ?_⟩
  have hmerged {i : PeerId} : i ∈ (settled request t).1.merged ↔ _ := mem_merged_iff ht
  have hstripped {i : PeerId} : i ∈ (settled request t).1.stripped ↔ _ := mem_stripped_iff ht
  exact {
    unmet := by
      intro i a ha hn
      have hr := row_settled_of_not_sharesWith ht ha hn
      refine ⟨hr, fun hi => hn (sharesWith_of_row_peer ht (hi ▸ ha)), ?_, ?_⟩
      · rw [hmerged, hr]
        simp
      · rw [hstripped, ha, hr]
        simp
    absorbed := by
      intro i a ha hsh hi hg
      have hr := row_settled_of_met ht ha hsh hi
      rw [givesWay_iff.mp hg] at hr
      refine ⟨hr, hmerged.mpr ⟨hi, by simp [ha], hr⟩, ?_⟩
      rw [hstripped, hr]
      simp
    stripped := by
      intro i a ha hsh hi hg
      have hr := row_settled_of_met ht ha hsh hi
      obtain ⟨b, hb⟩ := Option.ne_none_iff_exists'.mp (mt givesWay_iff.mpr hg)
      have hrest := Plan.without?_of_remainder? hb
      rw [hb] at hr
      refine ⟨hstripped.mpr ⟨hi, a, b, ha, hr, Address.ne_of_without? hsh hrest⟩, ?_, b, hr,
        b.identifiers_ne_nil, fun x => Address.mem_without? hrest⟩
      rw [hmerged, hr]
      simp
    absent := by
      intro i hn hi
      refine ⟨?_, by rw [hmerged, hn]; simp, by rw [hstripped, hn]; simp⟩
      obtain ⟨hr, -⟩ | ⟨a, ha, -⟩ := row_settled_of_ne ht hi
      · exact hr.trans hn
      · rw [hn] at ha
        contradiction
    survivor := by
      refine ⟨fun h => (hmerged.mp h).1 rfl, fun h => (hstripped.mp h).1 rfl, ?_⟩
      exact at?_row_settled_peer ht hasc
    created := ⟨created_settled_iff ht, merged_settled_of_created ht⟩ }

/-! ## A table that has one row of each sort -/

/-- In ascending order: a row of another account, two that share the PNI and have a number each, the
row of the account and one that the request does not meet. -/
def Rows.assorted : Rows :=
  ⟨[⟨⟨1⟩, (Address.ofAci (.sample 1)).withPni (.sample 0)⟩,
    ⟨⟨2⟩, ⟨⟨none, some (.sample 0), some .sample, none⟩, rfl⟩⟩,
    ⟨⟨3⟩, ⟨⟨none, some (.sample 0), some ⟨"+4915550002", by decide⟩, none⟩, rfl⟩⟩,
    ⟨⟨4⟩, .ofAci (.sample 0)⟩,
    ⟨⟨5⟩, .ofPni (.sample 1)⟩], ⟨6⟩⟩

/-- The other account keeps its ACI alone, and the survivor gathers the number of the lower of the
two absorbed rows. -/
theorem assorted_rows_are_disposed :
    ∃ r t', (reconcile .sampleProof).Returns Rows.assorted r t' ∧
      Disposes .sampleProof (row Rows.assorted) (row t') r ∧
      r = ⟨⟨4⟩, [⟨2⟩, ⟨3⟩], [⟨1⟩], false, true⟩ ∧
      t'.peers = [⟨⟨1⟩, .ofAci (.sample 1)⟩,
        ⟨⟨4⟩, ⟨⟨some (.sample 0), some (.sample 0), some .sample, none⟩, rfl⟩⟩,
        ⟨⟨5⟩, .ofPni (.sample 1)⟩] := by
  have hs : Rows.assorted.Distinct := ⟨by decide, by decide⟩
  have hasc : (found Rows.assorted .sampleProof).Pairwise fun p q => compare p.id q.id = .lt := by
    decide +kernel
  obtain ⟨r, t', h, hd⟩ := reconcile_disposes .sampleProof hs hasc
  refine ⟨r, t', h, hd, ?_, ?_⟩
  · exact Except.ok.inj (h.1.symm.trans rfl)
  · rw [← h.2]
    rfl

end PeerBook
