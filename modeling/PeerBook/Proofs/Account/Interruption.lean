import PeerBook.Proofs.Account.Reopening
import PeerBook.Proofs.Directory.Interrupted
import PeerBook.Proofs.Reconcile.Recorded

/-!
# PeerBook.Proofs.Account.Interruption

A trusted resolution on a storage that applies a batch one write after another
and may stop anywhere. Whatever part of the batch it made, the directory that is
read from it afterwards has no identifier on two rows and no row above its last
handle, so the next request finds it as a directory should be.

Three levels are looked at: the single changes of the table, which a recorded
table keeps; the first writes of the batch, which are all that a stopped
resolution can leave; and the directory that is read from these. The storage is
any stepwise one; in the witness it stops right after the first write.
-/

namespace PeerBook

variable {σ : Type} [Storage σ] {contents : σ → Contents}

/-- Of a trusted resolution without mergers the storage has the first writes of the batch, all of
them where it succeeds. -/
theorem Account.resolveWith_leaves (hs : Storage.Stepwise contents) {d : Directory}
    (hd : d.HasNext) (s : σ) (events : List Event) (markSelf : Bool) (request : Address) :
    ∃ made, made <+: (d.draft markSelf request).writes ∧
      contents ((resolveWith markSelf request).run ⟨s, d, [], events⟩).state.storage =
        (contents s).applyAll made := by
  obtain ⟨made, hm, hc⟩ := Transaction.commit_leaves hs (d.draft markSelf request) s
  refine ⟨made, hm, ?_⟩
  have hd' : (Account.mk s d [] events).directory.HasNext := hd
  obtain ⟨e, t, hf, hr⟩ | ⟨d', t, failures, account', hcommit, hr, hfollows⟩ :=
    resolveWith_cases hd' markSelf request
  · rw [hf.2] at hc
    rw [hr.2, hc]
  · rw [hcommit.2] at hc
    rw [hr.2]
    exact hfollows.storage (contents · = (contents s).applyAll made) nofun hc

/-- **Identifiers stay unique when a resolution is interrupted.** On a directory without an
identifier on two rows, held by a storage that it wrote itself and that makes writes one after
another, as long as handles are left: no identifier is on two rows after any single change that a
trusted resolution makes to the table; what it leaves in the storage are the first writes of its
batch; and whatever first writes of the batch the storage has, the directory read from it has no
identifier on two rows, is held by the storage, and gives out next a handle above those of all its
rows, if any is left. -/
theorem interrupted_resolution_keeps_identifiers_unique (hs : Storage.Stepwise contents)
    {d : Directory} {s : σ} (h : d.HeldIn (contents s)) (hu : Unambiguous d.rows.get?)
    (hn : d.lastId.toNat < UInt64.size - 1) (markSelf : Bool) (request : Address) :
    (∃ r : Recorded Transaction, (reconcile request).Returns ⟨d.begin, []⟩ (d.outcome request) r ∧
        r.current.rows = (d.resolved markSelf request).rows ∧
        ∀ tx ∈ r.states, Unambiguous tx.rows.get?) ∧
      (∀ events, ∃ made, made <+: (d.draft markSelf request).writes ∧
        contents ((Account.resolveWith markSelf request).run ⟨s, d, [], events⟩).state.storage =
          (contents s).applyAll made) ∧
      ∀ made, made <+: (d.draft markSelf request).writes →
        ∀ t, contents t = (contents s).applyAll made →
          ∃ d' t', Directory.load.Returns t d' t' ∧ d'.HeldIn (contents t') ∧
            Unambiguous d'.rows.get? ∧
            (d'.lastId.toNat < UInt64.size - 1 →
              ∀ i, d'.rows.get? i ≠ none → i.toNat < d'.lastId.next.toNat) := by
  have hn' : d.lastId.toNat + 1 < UInt64.size := by omega
  have hnext := h.hasNext hn'
  refine ⟨?_, fun events => Account.resolveWith_leaves hs hnext s events markSelf request, ?_⟩
  · rw [← Directory.row_begin] at hu
    obtain ⟨r, hr, hcurrent, hstates⟩ :=
      reconcile_recorded request (Directory.sound_begin hnext) hu
    exact ⟨r, hr, by rw [hcurrent, Directory.rows_resolved], hstates⟩
  · intro made hm t ht
    obtain ⟨l, hload⟩ := h.load_interrupted hs.toLegible hn' hm.subset
    obtain ⟨d', t', hr, hsame, rfl, hheld⟩ := hload t ht
    refine ⟨_, t', hr, by rw [hsame]; exact hheld,
      Directory.unambiguous_interrupted hnext hu l hm, fun hlast i hi => ?_⟩
    rw [PeerId.toNat_next (by omega)]
    exact Nat.lt_succ_of_le (hheld.row_le i hi)

/-- An account and a phone-number identity, met apart. -/
def apartMoves : List (Move Memory) :=
  [.call (.resolve false (.ofAci (.sample 0))), .call (.resolve false (.ofPni (.sample 0)))]

/-- No merger is registered in these moves, so none can touch the keys of the directory. -/
theorem apartMoves_spare : ∀ m ∈ apartMoves, ∀ m' ∈ m.mergers, m'.Spares Memory.contents := by
  simp only [apartMoves, List.forall_mem_cons]
  exact ⟨nofun, nofun, nofun⟩

/-- The account after these moves. -/
def Account.apart : Account Memory := (fresh ⟨∅⟩ []).through apartMoves

/-- After these moves the storage keeps the directory, and this is coherent. -/
theorem Account.apart_kept : apart.Kept Memory.contents ∧ apart.Coherent := by
  obtain ⟨hk, hc, -⟩ := through_develops Memory.atomic apartMoves apartMoves_spare
    ⟨Directory.storedIn_empty, fun _ h => absurd h List.not_mem_nil⟩ (coherent_fresh ⟨∅⟩ [])
    (by decide)
  exact ⟨hk, hc⟩

/-- The storage of the two, stopped after the first write of the proof that they are one. -/
def Faltering.stopped : Faltering :=
  ⟨⟨Account.apart.storage.contents.applyAll
    ((Account.apart.directory.draft false .sampleProof).writes.take 1)⟩, 0⟩

/-- One of the two is gone then, and the next handle is still above both, although the row that is
gone was the higher one. -/
theorem stopped_keeps_identifiers_unique :
    ∃ d s, Directory.load.Returns Faltering.stopped d s ∧ Unambiguous d.rows.get? ∧
      d.rows.get? ⟨2⟩ = none ∧ ∀ i, d.rows.get? i ≠ none → i.toNat < d.lastId.next.toNat := by
  obtain ⟨hk, hc⟩ := Account.apart_kept
  have hlast : Account.apart.directory.lastId = ⟨2⟩ := by decide
  have hheld : Account.apart.directory.HeldIn (Faltering.contents ⟨Account.apart.storage, 1⟩) :=
    hk.stored.heldIn hc
  obtain ⟨-, -, h⟩ := interrupted_resolution_keeps_identifiers_unique Faltering.stepwise hheld
    hc.unambiguous (by rw [hlast]; decide) false .sampleProof
  obtain ⟨d, s, hload, -, hu, hnext⟩ := h _ (List.take_prefix 1 _) Faltering.stopped rfl
  have hfacts : (Directory.load.run Faltering.stopped).result.toOption.map
      (fun d => (d.lastId, d.rows.get? ⟨2⟩)) = some (⟨2⟩, none) := by decide +kernel
  rw [hload.1] at hfacts
  obtain ⟨hlast', hrow⟩ := Prod.mk.inj (Option.some.inj hfacts)
  exact ⟨d, s, hload, hu, hrow, hnext (by rw [hlast']; decide)⟩

end PeerBook
