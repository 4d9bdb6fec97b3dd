import PeerBook.Proofs.Account.Interruption
import PeerBook.Proofs.Directory.Orphans

/-!
# PeerBook.Proofs.Account.Orphans

What is found when a directory is read after a trusted resolution was stopped. A
batch deletes the rows of the absorbed handles first and writes their redirects
then, so between the two a handle that was answered before is found no more:
`run_interrupted_loses_orphans` says which ones these are, and that there are no
others.

The run before the resolution may be anything on a storage that refuses batches
as a whole, so the directory that the batch starts from is coherent and stored.
That a handle is lost is decided by the made writes alone
(`Directory.Orphaned`): the row of what it stands for was deleted and the
redirect of that not written.
-/

namespace PeerBook

variable {σ : Type} [Storage σ] {contents : σ → Contents}

namespace Account

omit [Storage σ] in
/-- Along a run the account's own handle stands for a peer. -/
theorem Develops.knows_self {account account' : Account σ} {fs : List Finding}
    (h : account.Develops account' fs) (hc : account.Coherent)
    (hn : account'.allotted + 1 < UInt64.size)
    (hs : ∀ i, account.directory.self = some i → account.directory.Knows i) :
    ∀ i, account'.directory.self = some i → account'.directory.Knows i := by
  rw [h.allotted] at hn
  exact h.directory.knows_self hc hn hs

end Account

/-- **What an interrupted resolution loses.** From an empty storage that may refuse any batch as a
whole, whatever is asked of the account and whenever it is read anew, as long as handles are left:
on a storage with the same content that makes writes one after another, a trusted resolution leaves
the first writes of its batch; and whatever first writes of the batch a storage has, a directory is
read from it in which a handle that was found before, or that is the account's own, is found
exactly if the writes do not orphan what it stood for: the row that was deleted is redirected. -/
theorem run_interrupted_loses_orphans (ha : Storage.Atomic contents) {s : σ}
    (hs : contents s = ∅) {mergers : List (Merger σ)}
    (hmergers : ∀ m ∈ mergers, m.Spares contents) {moves : List (Move σ)}
    (hmoves : ∀ m ∈ moves, ∀ m' ∈ m.mergers, m'.Spares contents)
    {τ : Type} [Storage τ] {held : τ → Contents} (hh : Storage.Stepwise held) :
    ∃ account s', (Account.load mergers).Returns s account s' ∧
      ((account.through moves).allotted < UInt64.size - 1 →
        ∀ markSelf request,
          (∀ t, held t = contents (account.through moves).storage → ∀ events, ∃ made,
            made <+: ((account.through moves).directory.draft markSelf request).writes ∧
              held ((Account.resolveWith markSelf request).run
                ⟨t, (account.through moves).directory, [], events⟩).state.storage =
                  (held t).applyAll made) ∧
          ∀ made, made <+: ((account.through moves).directory.draft markSelf request).writes →
            ∀ t, held t = (contents (account.through moves).storage).applyAll made →
              ∃ d t', Directory.load.Returns t d t' ∧
                ∀ i, ((account.through moves).directory.get? i ≠ none ∨ d.self = some i) →
                  (d.get? i ≠ none ↔
                    ¬Directory.Orphaned made ((account.through moves).directory.follow i))) := by
  obtain ⟨s', hload, hkept⟩ := Account.load_fresh ha hs hmergers
  refine ⟨_, s', hload, fun hbound markSelf request => ?_⟩
  have hfresh := Account.coherent_fresh s' mergers
  obtain ⟨hk, hc, fs, hdev⟩ := Account.through_develops ha moves hmoves hkept hfresh (by omega)
  have hn : ((Account.fresh s' mergers).through moves).allotted + 1 < UInt64.size := by omega
  have hself := hdev.knows_self hfresh hn nofun
  have hnext := Directory.Coherent.hasNext hc hn
  refine ⟨fun t ht events =>
    Account.resolveWith_leaves hh hnext t events markSelf request, ?_⟩
  intro made hm t ht
  have hheld := hk.stored.heldIn hc
  obtain ⟨l, hreads⟩ :=
    hheld.load_interrupted hh.toLegible (by rw [hc.lastId_eq]; exact hn) hm.subset
  obtain ⟨d, t', hr, -, rfl, -⟩ := hreads t ht
  refine ⟨_, t', hr, fun i hi => ?_⟩
  rw [← hc.knows_iff_get?] at hi
  exact hc.get?_interrupted_iff (l := l) hn hself hm hi

/-- Of the two that were met apart the second is found no more, though its handle was answered: its
row was deleted, and the redirect was not written. -/
theorem stopped_loses_orphan :
    ∃ account s, (Account.load []).Returns (⟨∅⟩ : Memory) account s ∧
      (account.through apartMoves).directory.get? ⟨2⟩ ≠ none ∧
      ∃ d t, Directory.load.Returns Faltering.stopped d t ∧ d.get? ⟨1⟩ ≠ none ∧
        d.get? ⟨2⟩ = none := by
  obtain ⟨account, s, hload, h⟩ := run_interrupted_loses_orphans Memory.atomic
    (s := (⟨∅⟩ : Memory)) rfl (fun _ hm => absurd hm List.not_mem_nil) apartMoves_spare
    Faltering.stepwise
  obtain ⟨rfl, rfl⟩ := hload.unique (Account.load_vacant Memory.vacant [])
  obtain ⟨-, hlost⟩ := h (by decide) false .sampleProof
  obtain ⟨d, t, hread, hfound⟩ := hlost _ (List.take_prefix 1 _) Faltering.stopped rfl
  have hbefore : Account.apart.directory.get? ⟨1⟩ ≠ none ∧
      Account.apart.directory.get? ⟨2⟩ ≠ none := by decide
  have horphan : Directory.Orphaned
        ((Account.apart.directory.draft false .sampleProof).writes.take 1)
        (Account.apart.directory.follow ⟨2⟩) ∧
      ¬Directory.Orphaned ((Account.apart.directory.draft false .sampleProof).writes.take 1)
        (Account.apart.directory.follow ⟨1⟩) := by decide +kernel
  refine ⟨_, _, hload, hbefore.2, d, t, hread, ?_, ?_⟩
  · exact (hfound ⟨1⟩ (.inl hbefore.1)).mpr horphan.2
  · cases hd : d.get? ⟨2⟩ with
    | none => rfl
    | some p =>
        have hfound₂ := (hfound ⟨2⟩ (.inl hbefore.2)).mp (by rw [hd]; exact nofun)
        exact absurd horphan.1 hfound₂

end PeerBook
