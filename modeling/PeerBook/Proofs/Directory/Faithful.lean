import PeerBook.Proofs.Directory.Kept
import PeerBook.Proofs.Samples

/-!
# PeerBook.Proofs.Directory.Faithful

A transaction is a faithful overlay. Whatever it was asked before, it answers
from the plain table that the edits make of the rows of its directory; a commit
publishes that table, for the directory in use and for whoever reads the storage
anew; and without a commit nothing has happened (`transaction_is_faithful`). So
a trusted resolution comes out the same in a transaction as on a plain table.

That the transaction answers like the plain table is `Transaction.reflects_simulates`
from `PeerBook.Proofs.AddressTable.Listing`; that a commit stores what it
publishes is `Directory.KeptIn.published`. `Publishes` lists what comes of a
commit: a refused one leaves the storage alone, and one that answers has the table
in the directory in use and in the one that is read from the storage.
-/

namespace PeerBook

open Directory

namespace Transaction

variable {tx : Transaction}

/-- Only a transaction with changes is refused. -/
theorem hasChanges_of_violation (h : tx.violation? ≠ none) : tx.hasChanges = true := by
  refine Decidable.byContradiction fun hc => h ?_
  obtain ⟨hchanges, -, -⟩ := hasChanges_eq_false_iff.mp (Bool.eq_false_iff.mpr hc)
  have hno (x : Identifier) : tx.overshares x = false := by
    have hany : (owners tx.rows x).any tx.changes.contains = false := by
      rw [hchanges, List.any_eq_false]
      exact fun i _ => Bool.false_ne_true
    simp [overshares, hany]
  rw [violation?, Option.map_eq_none_iff, List.find?_eq_none]
  exact fun x _ => Bool.not_eq_true _ ▸ hno x

/-- A transaction that shows the rows of its directory after changes has them. -/
theorem rows_base_of_not_hasChanges (h : tx.hasChanges = false) : tx.base.rows = tx.rows := by
  rw [rows, (hasChanges_eq_false_iff.mp h).1]
  rfl

variable {σ : Type} [Storage σ] {contents : σ → Contents}

/-- What comes of committing a transaction whose table is to be the given one. -/
structure Publishes (tx : Transaction) (contents : σ → Contents) (s : σ)
    (rows : Table PeerId Address) : Prop where
  /-- Where the transaction is refused, the storage stays as it is. -/
  refused : tx.violation? ≠ none → ∃ f, tx.commit.Fails s (.storage f) s
  /-- Where it is not and the storage makes the batch, the commit answers. -/
  answers {s' : σ} : tx.violation? = none → (Storage.writeBatch tx.writes).Returns s () s' →
    ∃ d s', tx.commit.Returns s d s'
  /-- The directory that it answers has the table. -/
  live {d : Directory} {s' : σ} : tx.commit.Returns s d s' → d.rows = rows
  /-- If the storage kept the rows before, it keeps the table. -/
  kept {d : Directory} {s' : σ} : tx.commit.Returns s d s' → tx.base.KeptIn (contents s) →
    d.KeptIn (contents s')
  /-- The directory that is read from the storage then has the table too. -/
  reopened {d : Directory} {s' : σ} : tx.commit.Returns s d s' → tx.base.KeptIn (contents s) →
    ∃ d' s'', Directory.load.Returns s' d' s'' ∧ contents s'' = contents s' ∧ d'.rows = rows

/-- A commit publishes the rows as the transaction sees them, on every storage whose batches stop at
a failure. What the transaction has done before is of no importance. -/
theorem publishes (hl : Storage.Legible contents) (ho : Storage.Orderly contents)
    (tx : Transaction) (s : σ) : tx.Publishes contents s tx.rows := by
  have hlive {d : Directory} {s' : σ} (hr : tx.commit.Returns s d s') : d.rows = tx.rows := by
    obtain ⟨hc, rfl, -⟩ | ⟨rfl, -⟩ := commit_returns hr
    · exact rows_base_of_not_hasChanges hc
    · rfl
  refine ⟨fun hv => ?_, fun {s'} hv hw => ?_, hlive,
    fun hr hk => keptIn_of_commit_returns ho hk hr, fun {d s'} hr hk => ?_⟩
  · obtain ⟨hc, -⟩ | ⟨f, -, hf⟩ | ⟨-, hv', -⟩ := tx.commit_cases s
    · exact absurd (hasChanges_of_violation hv) (by simp [hc])
    · exact ⟨f, hf⟩
    · exact absurd hv' hv
  · obtain ⟨-, hr⟩ | ⟨f, hv', -⟩ | ⟨-, -, ⟨t, -, hr⟩ | ⟨e, t, hf, -⟩⟩ := tx.commit_cases s
    · exact ⟨_, _, hr⟩
    · exact absurd (hv.symm.trans hv') nofun
    · exact ⟨_, _, hr⟩
    · exact absurd hw.1 (hf.not_ok ())
  · obtain ⟨d', s'', hload, hc, hd⟩ :=
      (keptIn_of_commit_returns ho hk hr).load_reads hl s' rfl
    exact ⟨d', s'', hload, hc, hd.trans (hlive hr)⟩

end Transaction

/-! ## The overlay is faithful -/

variable {σ : Type} [Storage σ] {contents : σ → Contents}

/-- **A transaction is a faithful overlay.** Let any edits be made in a transaction on a directory,
and let `t` be the plain table of its rows after those that succeed. Then

* the transaction finds exactly the rows of `t` that meet a request, by ascending handle, gives
  out the next handle of `t`, and refuses to update and to remove exactly the handles that are not
  in `t`, which leaves it as it was;
* dropped or refused, it leaves directory and storage as they were;
* committed, it leaves the rows of `t` in the directory, and in the directory that is read anew
  from the storage if this kept the rows before, as one does that only the directory has written
  (`Opened.keptIn_after`);
* a trusted resolution in it ends as on `t`, and is committed as such. -/
theorem transaction_is_faithful (hl : Storage.Legible contents) (ho : Storage.Orderly contents)
    (o : Opened σ) (edits : List Edit) :
    let tx := o.directory.begin.editAll edits
    let t := o.directory.listing.editAll edits
    ((∀ request, ∃ found, (AddressTable.find request).run tx = ⟨.ok found, tx, []⟩ ∧
        found.Pairwise (fun p q => compare p.id q.id = .lt) ∧
        ∀ p, p ∈ found ↔
          t.rows.get? p.id = some p.address ∧ p.address.sharesWith request = true) ∧
      (∀ a, (AddressTable.add a).run tx = ⟨.ok t.nextId, tx.edit (.add a), []⟩) ∧
      (∀ i a, (AddressTable.update i a).run tx =
        if t.rows.contains i then ⟨.ok (), tx.edit (.update i a), []⟩
        else ⟨.error (.unknownPeer i), tx, []⟩) ∧
      ∀ i, (AddressTable.remove i).run tx =
        if t.rows.contains i then ⟨.ok (), tx.edit (.remove i), []⟩
        else ⟨.error (.unknownPeer i), tx, []⟩) ∧
    (o.next (.transact edits false) = o ∧
      (tx.violation? ≠ none → o.next (.transact edits true) = o)) ∧
    (tx.base = o.directory ∧ tx.Publishes contents o.storage t.rows) ∧
    ∀ request further,
      let r := (reconcile request).run tx
      let r' := (reconcile request).run t
      r.result = r'.result ∧ r.log = r'.log ∧ r.state.listing = r'.state ∧
        (r.state.editAll further).base = o.directory ∧
        (r.state.editAll further).Publishes contents o.storage (r'.state.editAll further).rows := by
  intro tx t
  have hshow : tx.Reflects o.directory t := (Transaction.reflects_begin o.directory).editAll edits
  obtain ⟨hbase, ht⟩ := hshow
  have hrows : tx.rows = t.rows := congrArg Listing.rows ht
  have hpub : tx.Publishes contents o.storage t.rows := hrows ▸ Transaction.publishes hl ho tx _
  refine ⟨⟨fun request => ⟨t.meeting request, ?_, t.ascending_meeting request,
    fun p => t.mem_meeting⟩, fun a => ?_, fun i a => ?_, fun i => ?_⟩, ⟨rfl, fun hv => ?_⟩,
    ⟨hbase, hpub⟩, fun request further => ?_⟩
  · rw [← ht]
    rfl
  · rw [← ht]
    rfl
  · rw [← hrows, Transaction.edit_update]
    refine (Transaction.run_known_change tx i (some a)).trans ?_
    split
    · rfl
    · rfl
  · rw [← hrows, Transaction.edit_remove]
    refine (Transaction.run_known_change tx i none).trans ?_
    split
    · rfl
    · rfl
  · obtain ⟨f, hf⟩ := hpub.refused hv
    exact Opened.goOn_of_fails hf
  · intro r r'
    obtain ⟨hres, hstate, hlog⟩ :=
      (Transaction.reflects_simulates o.directory).reconcile request tx t ⟨hbase, ht⟩
    obtain ⟨hb, hlist⟩ := Transaction.Reflects.editAll hstate further
    refine ⟨hres, hlog, hstate.2, hb, ?_⟩
    rw [← hlist]
    exact Transaction.publishes hl ho _ _

/-- Two peers are added, one is changed, the other is removed and then asked for in vain, and a
third is added. -/
def Edit.samples : List Edit :=
  [.add (.ofAci (.sample 0)), .add (.ofPni (.sample 1)), .update ⟨1⟩ .sampleProof, .remove ⟨2⟩,
    .update ⟨2⟩ (.ofAci (.sample 2)), .add (.ofAci (.sample 3))]

/-- The edits lead to the same table in the transaction, in the directory that is published and in
the one that is read anew. -/
theorem sample_transaction_is_faithful :
    Storage.Legible Memory.contents ∧ Storage.Orderly Memory.contents ∧
      let tx := Directory.empty.begin.editAll Edit.samples
      (AddressTable.remove ⟨2⟩).run tx = ⟨.error (.unknownPeer ⟨2⟩), tx, []⟩ ∧
        ∃ d s, tx.commit.Returns (⟨∅⟩ : Memory) d s ∧
          d.rows.entries = [(⟨1⟩, .sampleProof), (⟨3⟩, .ofAci (.sample 3))] ∧
          ∃ d' s', Directory.load.Returns s d' s' ∧ d'.rows = d.rows := by
  have hl := Memory.atomic.toLegible
  have ho := Memory.atomic.orderly
  obtain ⟨⟨-, -, -, hremove⟩, -, ⟨-, hpub⟩, -⟩ :=
    transaction_is_faithful hl ho ⟨(⟨∅⟩ : Memory), .empty⟩ Edit.samples
  obtain ⟨d, s, hr⟩ := hpub.answers (by decide) ⟨rfl, rfl⟩
  obtain ⟨d', s', hload, -, hd'⟩ := hpub.reopened hr storedIn_empty.keptIn
  refine ⟨hl, ho, (hremove ⟨2⟩).trans (if_neg (by decide)), d, s, hr, ?_, d', s', hload, ?_⟩
  · rw [hpub.live hr]
    decide
  · rw [hd', hpub.live hr]

end PeerBook
