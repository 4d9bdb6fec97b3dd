import PeerBook.Proofs.Directory.Standing

/-!
# PeerBook.Proofs.Directory.Kinship

Which identifiers belong together, by some account of the matter (`Kinship`),
and directories that agree with it. As long as no request names identifiers that
do not belong together no row has such identifiers (`Leads.respects`), and what a
handle stands for belongs with all that it ever stood for (`Tracks.leads`) and
with all requests that it was answered for (`Leads.tracks`).

A kinship is an equivalence on the identifiers that it speaks of. Taken to be the
closure of what requests have named it says that peers are associated on evidence
only; taken to be given peers it says that requests within them converge. Both
uses need the same two invariants: rows whose identifiers belong together
(`Respects`), and handles that go on belonging to what they stood for (`Tracks`).
-/

namespace PeerBook

/-- An account of which identifiers belong together. It may leave identifiers out altogether. -/
structure Kinship where
  Kin : Identifier → Identifier → Prop
  symm : ∀ {x y}, Kin x y → Kin y x
  trans : ∀ {x y z}, Kin x y → Kin y z → Kin x z

namespace Kinship

variable {K : Kinship} {a b : Address} {x : Identifier}

/-- An identifier belongs with all of an address. -/
def Joins (K : Kinship) (x : Identifier) (a : Address) : Prop := ∀ y ∈ a.identifiers, K.Kin x y

/-- The identifiers of an address belong together. -/
def Unites (K : Kinship) (a : Address) : Prop := ∀ x ∈ a.identifiers, K.Joins x a

theorem Joins.mono (h : K.Joins x a) (hb : ∀ y ∈ b.identifiers, y ∈ a.identifiers) : K.Joins x b :=
  fun y hy => h y (hb y hy)

theorem Unites.mono (h : K.Unites a) (hb : ∀ y ∈ b.identifiers, y ∈ a.identifiers) : K.Unites b :=
  fun x hx => (h x (hb x hx)).mono hb

/-- What belongs with an address belongs with another that it meets. -/
theorem Joins.of_meets (h : K.Joins x a) (hmeets : a.sharesWith b = true) (hb : K.Unites b) :
    K.Joins x b := by
  obtain ⟨w, hwa, hwb⟩ := Address.sharesWith_iff.mp hmeets
  exact fun y hy => K.trans (h w hwa) (hb w hwb y hy)

/-- Identifiers that each belong with one address belong together. -/
theorem unites_of_joins (h : ∀ x ∈ b.identifiers, K.Joins x a) : K.Unites b := by
  obtain ⟨w, hw⟩ := List.exists_mem_of_ne_nil _ a.identifiers_ne_nil
  exact fun x hx y hy => K.trans (h x hx w hw) (K.symm (h y hy w hw))

end Kinship

namespace Directory

variable {K : Kinship} {d d' : Directory} {n : Nat} {f : Finding} {fs : List Finding} {i : PeerId}
  {x : Identifier}

/-- The identifiers on every row belong together. -/
def Respects (d : Directory) (K : Kinship) : Prop :=
  ∀ i a, d.rows.get? i = some a → K.Unites a

/-- A handle stands for a row with which an identifier belongs. -/
def Tracks (d : Directory) (K : Kinship) (i : PeerId) (x : Identifier) : Prop :=
  ∃ k a, d.StandsFor i k a ∧ K.Joins x a

theorem respects_empty (K : Kinship) : empty.Respects K := by
  intro i a h
  contradiction

/-! ## One request -/

/-- One request within the kinship leaves rows within it: what is merged meets in an identifier. -/
theorem Respects.step (h : d.Respects K) (hc : d.Coherent n) (hn : n + 1 < UInt64.size)
    (hs : d.Step f d') (hf : K.Unites f.request) : d'.Respects K := by
  intro i b hb
  obtain ⟨a, ha, hba⟩ | hfrom := hs.row_from hc hn hb
  · exact (h i a ha).mono hba
  · refine Kinship.unites_of_joins (a := f.request) fun x hx => ?_
    obtain hx | ⟨j, a, ha, hmeets, hx⟩ := hfrom x hx
    · exact hf x hx
    · exact (h j a ha x hx).of_meets hmeets hf

/-- One request leaves a handle standing for something that belongs with what it stood for. -/
theorem Tracks.step (h : d.Tracks K i x) (hc : d.Coherent n) (hn : n + 1 < UInt64.size)
    (hs : d.Step f d') (hf : K.Unites f.request) (h' : d'.Respects K) : d'.Tracks K i x := by
  obtain ⟨k, a, hk, ha⟩ := h
  obtain ⟨b, hb, hba⟩ | ⟨-, hmeets, b, hb, hcov⟩ := hk.step hc hs hn
  · exact ⟨k, b, hb, ha.mono hba⟩
  · -- by way of the request, which meets both rows
    have hreq := ha.of_meets hmeets hf
    have hback := Address.sharesWith_comm.trans (Address.sharesWith_of_covers hcov)
    exact ⟨_, b, hb, hreq.of_meets hback (h' _ b hb.2)⟩

/-- The handles that a request is answered with stand for a row with which all of it belongs. -/
theorem Step.tracks (hs : d.Step f d') (hc : d.Coherent n) (hn : n + 1 < UInt64.size)
    (hf : K.Unites f.request) (h' : d'.Respects K) (hi : i = f.result.peer ∨ i ∈ f.result.merged)
    (hx : x ∈ f.request.identifiers) : d'.Tracks K i x := by
  obtain ⟨b, hb, hmeets, -⟩ := hs.standsFor_answered hc hn hi
  have hback := Address.sharesWith_comm.trans hmeets
  exact ⟨_, b, hb, (hf x hx).of_meets hback (h' _ b hb.2)⟩

/-! ## Many requests -/

variable (hl : d.Leads fs d') (hc : d.Coherent n) (hn : n + Finding.creations fs + 1 < UInt64.size)
  (hfs : ∀ f ∈ fs, K.Unites f.request) (h : d.Respects K)

include hl hc hn hfs h

/-- **No row has identifiers that do not belong together** if no request names such. -/
theorem Leads.respects : d'.Respects K :=
  hl.invariant (P := fun _ d => d.Respects K) hc hn h fun hc₁ hm hf hs hd =>
    hd.step hc₁ hm hs (hfs _ hf)

/-- **What a handle stands for belongs with all that it ever stood for.** -/
theorem Leads.keeps_tracks (hx : d.Tracks K i x) : d'.Tracks K i x := by
  suffices hboth : d'.Respects K ∧ d'.Tracks K i x from hboth.2
  refine hl.invariant (P := fun _ d => d.Respects K ∧ d.Tracks K i x) hc hn ⟨h, hx⟩ ?_
  rintro done f d₁ d₂ m hc₁ hm hf hs ⟨hd, ht⟩
  have hd' := hd.step hc₁ hm hs (hfs f hf)
  exact ⟨hd', ht.step hc₁ hm hs (hfs f hf) hd'⟩

/-- **What a handle stands for belongs with all requests that it was answered for**, as the peer or
as one that was absorbed into it, from then on and to the end. -/
theorem Leads.tracks (hf : f ∈ fs) (hi : i = f.result.peer ∨ i ∈ f.result.merged)
    (hx : x ∈ f.request.identifiers) : d'.Tracks K i x := by
  suffices hboth : d'.Respects K ∧ ∀ f ∈ fs, ∀ i x, i = f.result.peer ∨ i ∈ f.result.merged →
      x ∈ f.request.identifiers → d'.Tracks K i x from hboth.2 f hf i x hi hx
  refine hl.invariant (P := fun fs d => d.Respects K ∧ ∀ f ∈ fs, ∀ i x,
    i = f.result.peer ∨ i ∈ f.result.merged → x ∈ f.request.identifiers → d.Tracks K i x)
    hc hn ⟨h, fun f hf => absurd hf List.not_mem_nil⟩ ?_
  rintro done g d₁ d₂ m hc₁ hm hg hs ⟨hd, ht⟩
  have hd' := hd.step hc₁ hm hs (hfs g hg)
  refine ⟨hd', fun e he i x hi hx => ?_⟩
  rcases List.mem_append.mp he with he | he
  · exact (ht e he i x hi hx).step hc₁ hm hs (hfs g hg) hd'
  · obtain rfl := List.mem_singleton.mp he
    exact hs.tracks hc₁ hm (hfs e hg) hd' hi hx

end Directory

end PeerBook
