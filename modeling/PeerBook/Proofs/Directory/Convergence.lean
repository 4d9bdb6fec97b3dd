import PeerBook.Proofs.Directory.Kinship

/-!
# PeerBook.Proofs.Directory.Convergence

A directory that is only asked for peers with no identifier in common, each
request naming part of one of them. Every row is then within one peer, and a
trusted request for the full address of a peer makes one row of all that the
directory had of it, which nothing takes apart again (`Leads.row_completed`);
every handle that stands for part of the peer leads there (`Tracks.follow_eq`).

The peers are given by an `Apart` family of addresses, which is a kinship: two
identifiers belong together when they are of one peer. So that rows stay within
peers is a case of `Leads.respects`, and only the completed row is new here.
-/

namespace PeerBook

variable {ι : Type} {full : ι → Address} {a : Address} {x : Identifier} {p q : ι}

/-- Peers, given by their full addresses, that have no identifier in common. -/
def Apart (full : ι → Address) : Prop :=
  ∀ p q x, x ∈ (full p).identifiers → x ∈ (full q).identifiers → p = q

namespace Apart

/-- The identifiers of one peer belong together. -/
def kinship (h : Apart full) : Kinship where
  Kin x y := ∃ p, x ∈ (full p).identifiers ∧ y ∈ (full p).identifiers
  symm := fun ⟨p, hx, hy⟩ => ⟨p, hy, hx⟩
  trans := by
    rintro x y z ⟨p, hx, hy⟩ ⟨q, hy', hz⟩
    obtain rfl := h p q y hy hy'
    exact ⟨p, hx, hz⟩

variable (hfull : Apart full)

/-- An identifier of a peer belongs with all addresses within the peer. -/
theorem joins_iff (hx : x ∈ (full p).identifiers) :
    hfull.kinship.Joins x a ↔ (full p).covers a = true := by
  rw [Address.covers_iff]
  refine forall₂_congr fun y _ => ⟨?_, fun hy => ⟨p, hx, hy⟩⟩
  rintro ⟨q, hx', hy⟩
  obtain rfl := hfull p q x hx hx'
  exact hy

/-- The identifiers of an address belong together when it is within a peer. -/
theorem unites_iff : hfull.kinship.Unites a ↔ ∃ p, (full p).covers a = true := by
  constructor
  · intro h
    obtain ⟨x, hx⟩ := List.exists_mem_of_ne_nil _ a.identifiers_ne_nil
    obtain ⟨p, hxp, -⟩ := h x hx x hx
    exact ⟨p, (hfull.joins_iff hxp).mp (h x hx)⟩
  · rintro ⟨p, hp⟩ x hx
    exact (hfull.joins_iff (Address.covers_iff.mp hp x hx)).mpr hp

end Apart

namespace Directory

variable {d d' : Directory} {n : Nat} {f : Finding} {fs : List Finding} {i j : PeerId}

/-- A row with the full address of a peer stays as it is, since a request that meets it is within
the same peer and has nothing that the row lacks. -/
theorem Step.row_full (hs : d.Step f d') (hfull : Apart full) (hc : d.Coherent n)
    (hn : n + 1 < UInt64.size) (hf : hfull.kinship.Unites f.request)
    (ha : d.rows.get? i = some (full p)) : d'.rows.get? i = some (full p) := by
  refine hs.row_unchanged hc hn ha ?_
  by_cases hmeets : (full p).sharesWith f.request = true
  · obtain ⟨x, hxp, hxr⟩ := Address.sharesWith_iff.mp hmeets
    exact .inl ((hfull.joins_iff hxp).mp (hf x hxr))
  · exact .inr hmeets

/-- A trusted request for the full address of a peer leaves its row with exactly that. -/
theorem Step.row_completed (hs : d.Step f d') (hfull : Apart full) (hc : d.Coherent n)
    (hn : n + 1 < UInt64.size) (h' : d'.Respects hfull.kinship) (ht : f.trusted = true)
    (hf : f.request = full p) : d'.rows.get? f.result.peer = some (full p) := by
  obtain ⟨b, hb, -, hcov⟩ := hs.standsFor_answered hc hn (.inl rfl)
  have hall := hcov ht
  rw [hf] at hall
  obtain ⟨x, hx⟩ := List.exists_mem_of_ne_nil _ (full p).identifiers_ne_nil
  have hxb := Address.covers_iff.mp hall x hx
  rw [hb.2, Address.eq_of_covers hall ((hfull.joins_iff hx).mp (h' _ b hb.2 x hxb))]

/-- **A full address that was asked for on trust is a row for good**, under the handle that was
answered: whatever comes later meets it within the same peer. -/
theorem Leads.row_completed (hl : d.Leads fs d') (hfull : Apart full) (hc : d.Coherent n)
    (hn : n + Finding.creations fs + 1 < UInt64.size)
    (hfs : ∀ f ∈ fs, hfull.kinship.Unites f.request) (h : d.Respects hfull.kinship)
    (hf : f ∈ fs) (ht : f.trusted = true) (hp : f.request = full p) :
    d'.rows.get? f.result.peer = some (full p) := by
  suffices hboth : d'.Respects hfull.kinship ∧ ∀ f ∈ fs, f.trusted = true → f.request = full p →
      d'.rows.get? f.result.peer = some (full p) from hboth.2 f hf ht hp
  refine hl.invariant (P := fun fs d => d.Respects hfull.kinship ∧ ∀ f ∈ fs, f.trusted = true →
    f.request = full p → d.rows.get? f.result.peer = some (full p))
    hc hn ⟨h, fun f hf => absurd hf List.not_mem_nil⟩ ?_
  rintro done g d₁ d₂ m hc₁ hm hg hs ⟨hd, hrows⟩
  have hd' := hd.step hc₁ hm hs (hfs g hg)
  refine ⟨hd', fun e he ht hp => ?_⟩
  rcases List.mem_append.mp he with he | he
  · exact hs.row_full hfull hc₁ hm (hfs g hg) (hrows e he ht hp)
  · obtain rfl := List.mem_singleton.mp he
    exact hs.row_completed hfull hc₁ hm hd' ht hp

/-- A handle that stands for part of a peer leads to the row with its full address. -/
theorem Tracks.follow_eq {hfull : Apart full} (h : d.Tracks hfull.kinship i x) (hc : d.Coherent n)
    (hx : x ∈ (full p).identifiers) (hj : d.rows.get? j = some (full p)) : d.follow i = j := by
  obtain ⟨k, b, hk, hb⟩ := h
  obtain ⟨y, hy⟩ := List.exists_mem_of_ne_nil _ b.identifiers_ne_nil
  have hyp := Address.covers_iff.mp ((hfull.joins_iff hx).mp hb) y hy
  rw [hk.follow_eq]
  exact hc.unambiguous k j y ⟨b, hk.2, hy⟩ ⟨full p, hj, hyp⟩

end Directory

end PeerBook
