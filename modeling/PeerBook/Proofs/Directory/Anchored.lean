import PeerBook.Proofs.Directory.Coherent

/-!
# PeerBook.Proofs.Directory.Anchored

An account identity holds its row in place. A row that carries one is never
absorbed and never loses it (`Anchors.leads`), and whoever asks for that account
is answered with the row's handle (`Anchors.answered`).

This is a consequence of uniqueness: while no identifier is on two rows, the only
row that a request could merge such a row into is the row itself. Identifiers that
are no account identities have no such hold; a trusted request may move them to
the row of another peer.
-/

namespace PeerBook.Directory

/-- The row of a handle carries an account identity. -/
def Anchors (d : Directory) (i : PeerId) (z : Aci) : Prop :=
  ∃ a, d.rows.get? i = some a ∧ a.aci = some z

variable {d d' : Directory} {n : Nat} {f : Finding} {fs : List Finding} {i : PeerId} {z : Aci}
  {request : Address}

/-- The row that carries the account identity is there. -/
theorem Anchors.row (h : d.Anchors i z) : d.rows.get? i ≠ none := by
  obtain ⟨a, ha, -⟩ := h
  rw [ha]
  exact nofun

/-- The row carries the account identity among its identifiers. -/
theorem Anchors.carries (h : d.Anchors i z) : Carries d.rows.get? i (.aci z) := by
  obtain ⟨a, ha, hz⟩ := h
  exact ⟨a, ha, Address.aci_mem_identifiers.mpr hz⟩

/-- No other row carries the account identity, as no identifier is on two rows. -/
theorem Anchors.unique (h : d.Anchors i z) (hd : d.Coherent n) {j : PeerId}
    (hj : d.Anchors j z) : j = i :=
  hd.unambiguous j i (.aci z) hj.carries h.carries

/-- A look-up of the account finds the row: agreement on the account identity is the strongest there
is, and no other row agrees on it. -/
theorem Anchors.found (h : d.Anchors i z) (hd : d.Coherent n) {p : Peer}
    (hp : d.bestMatch? request = some p) (hz : request.aci = some z) : p.id = i := by
  obtain ⟨a, ha, haz⟩ := h
  obtain ⟨hpr, k, hk, hmax⟩ := bestMatch?_spec hp
  -- agreement on the account identity is the strongest there is
  have hagree : a.AgreeAt request .aci :=
    Address.agreeAt_aci.mpr (Address.agree_eq_true.mpr ⟨z, haz, hz⟩)
  obtain ⟨j, hj, hle⟩ := Address.le_rank_of_agreeAt hagree
  have hkj := hmax i a j ha hj
  have hk3 : k = .aci := Kind.le_antisymm (Kind.le_aci k) (Nat.le_trans hle hkj)
  obtain ⟨w, hpw, hw⟩ := Address.agree_eq_true.mp
    (Address.agreeAt_aci.mp (Address.agreeAt_of_rank (hk3 ▸ hk)))
  cases hz.symm.trans hw
  exact Anchors.unique ⟨a, ha, haz⟩ hd ⟨p.address, hpr, hpw⟩

/-- One request leaves the row its account identity, whether it was a trusted one or a look-up. This
is the step lemma; `Anchors.leads` is the induction over requests. -/
theorem Anchors.step (h : d.Anchors i z) (hd : d.Coherent n) (hs : d.Step f d')
    (hn : n + 1 < UInt64.size) : d'.Anchors i z := by
  have hnext := hd.hasNext hn
  obtain ⟨a, ha, hz⟩ := h
  cases hs with
  | resolved markSelf request =>
      exact resolved_keeps_aci hnext hd.unambiguous markSelf request ha hz
  | found _ => exact ⟨a, ha, hz⟩
  | added _ =>
      have hne : i ≠ d.lastId.next := by
        rintro rfl
        rw [hnext] at ha
        contradiction
      refine ⟨a, ?_, hz⟩
      rw [get?_rows_added, if_neg hne, ha]

/-- **A row with an account identity is there for good**, under the same handle. -/
theorem Anchors.leads (h : d.Anchors i z) (hd : d.Coherent n) (hl : d.Leads fs d')
    (hn : n + Finding.creations fs + 1 < UInt64.size) : d'.Anchors i z := by
  induction hl generalizing n with
  | refl => exact h
  | step hs _ ih =>
      rw [Finding.creations_cons, ← Nat.add_assoc] at hn
      exact ih (h.step hd hs (by omega)) (hd.step hs (by omega)) hn

/-- What a look-up records of an address with an account identity is that identity, so a new row is
anchored, too. -/
theorem aci_recordable (hz : request.aci = some z) : (Account.recordable request).aci = some z := by
  rw [Account.recordable, hz]
  rfl

/-- **Whoever asks for an account is answered with the handle of its row**, the request that
brought it there included. -/
theorem Anchors.answered (h : d'.Anchors i z) (hd : d.Coherent n) (hs : d.Step f d')
    (hn : n + 1 < UInt64.size) (hz : f.request.aci = some z) : f.result.peer = i := by
  have hd' := hd.step hs hn
  cases hs with
  | resolved markSelf request =>
      obtain ⟨a, ha, hcov⟩ := row_resolved_peer (hd.hasNext hn) markSelf request
      have hza := Address.covers_iff.mp hcov _ (Address.aci_mem_identifiers.mpr hz)
      exact h.unique hd' ⟨a, ha, Address.aci_mem_identifiers.mp hza⟩
  | found hp => exact h.found hd hp hz
  | added _ =>
      refine h.unique hd' ⟨Account.recordable _, ?_, aci_recordable hz⟩
      rw [get?_rows_added, if_pos rfl]

/-- Once the row is there, every request for the account is answered with its handle. -/
theorem Anchors.answers (h : d.Anchors i z) (hd : d.Coherent n) (hl : d.Leads fs d')
    (hn : n + Finding.creations fs + 1 < UInt64.size) (hf : f ∈ fs)
    (hz : f.request.aci = some z) : f.result.peer = i := by
  induction hl generalizing n with
  | refl => contradiction
  | step hs _ ih =>
      rw [Finding.creations_cons, ← Nat.add_assoc] at hn
      have h' := h.step hd hs (by omega)
      rcases List.mem_cons.mp hf with rfl | hf
      · exact h'.answered hd hs (by omega) hz
      · exact ih h' (hd.step hs (by omega)) hn hf

/-- The row was never absorbed, so its handle is in no answer among the absorbed ones. -/
theorem Anchors.not_merged (h : d'.Anchors i z) (hd' : d'.Coherent n) (hl : d.Leads fs d')
    (hf : f ∈ fs) : i ∉ f.result.merged := by
  intro hm
  exact hl.redirect (.inr ⟨f, hf, hm⟩) (hd'.no_redirect h.row)

end PeerBook.Directory
