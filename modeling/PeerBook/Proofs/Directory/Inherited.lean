import PeerBook.Proofs.Account.Contested
import PeerBook.Proofs.Directory.Faithful

/-!
# PeerBook.Proofs.Directory.Inherited

Sharing is inherited and never made. Whatever edits a transaction is asked to
make, its commit is refused exactly if the table that they lead to has an
identifier on two rows of which one did not carry it before
(`Transaction.commit_fails_iff_newlyShared`), and then nothing has happened.
What is committed has `NoNewSharing`, and this composes, so however many
transactions are committed, what two rows share in the end both had when the
directory was taken into use (`commits_never_spread_identifiers`).

The rows of the directory may share identifiers, as those of an older storage do;
the check of a commit lets them be, and refuses only what would be new. Where
nothing is shared at the start nothing ever is, which is the special case that
accounts rely on.
-/

namespace PeerBook

variable {σ : Type} [Storage σ]

/-! ## One commit -/

namespace Transaction

variable {tx : Transaction} {s s' : σ}

/-- What is committed shares nothing that was not shared before. -/
theorem noNewSharing_of_commit_returns {d : Directory} (h : tx.commit.Returns s d s') :
    d.rows = tx.rows ∧ NoNewSharing tx.base.rows.get? d.rows.get? := by
  obtain ⟨hc, hr⟩ | ⟨f, -, hf⟩ | ⟨-, hv, ⟨t, -, hr⟩ | ⟨e, t, -, hf⟩⟩ := tx.commit_cases s
  · obtain ⟨rfl, -⟩ := h.unique hr
    exact ⟨rows_base_of_not_hasChanges hc, .refl _⟩
  · exact absurd h.1 (hf.not_ok d)
  · obtain ⟨rfl, -⟩ := h.unique hr
    exact ⟨rfl, violation?_eq_none_iff_noNewSharing.mp hv⟩
  · exact absurd h.1 (hf.not_ok d)

/-- On a storage that takes every batch a commit fails only by being refused, for an identifier
that would come to be shared; the storage is as before. -/
theorem newlyShared_of_commit_fails (hw : Storage.Reliable σ) {e : Error}
    (h : tx.commit.Fails s e s') :
    s' = s ∧ ∃ x, NewlyShared tx.base.rows.get? tx.rows.get? x ∧
      e = .storage (tx.ownershipFault x) := by
  obtain ⟨-, hr⟩ | ⟨f, hv, hf⟩ | ⟨-, -, ⟨t, -, hr⟩ | ⟨e', t, hb, -⟩⟩ := tx.commit_cases s
  · exact absurd hr.1 (h.not_ok _)
  · obtain ⟨rfl, rfl⟩ := h.unique hf
    obtain ⟨x, hx, rfl⟩ := newlyShared_of_violation hv
    exact ⟨rfl, x, hx, rfl⟩
  · exact absurd hr.1 (h.not_ok _)
  · obtain ⟨t', ht⟩ := hw s tx.writes
    exact absurd ht.1 (hb.not_ok ())

/-- **A commit is refused exactly if an identifier would come to be shared**, on a storage that
takes every batch. -/
theorem commit_fails_iff_newlyShared (hw : Storage.Reliable σ) (tx : Transaction) (s : σ) :
    (∃ e s', tx.commit.Fails s e s') ↔ ∃ x, NewlyShared tx.base.rows.get? tx.rows.get? x := by
  constructor
  · rintro ⟨e, s', hf⟩
    obtain ⟨-, x, hx, -⟩ := newlyShared_of_commit_fails hw hf
    exact ⟨x, hx⟩
  · intro hx
    obtain ⟨d, s', hr⟩ | hf := Op.returns_or_fails tx.commit s
    · obtain ⟨hd, hn⟩ := noNewSharing_of_commit_returns hr
      rw [hd] at hn
      exact absurd hx (noNewSharing_iff.mp hn)
    · exact hf

end Transaction

/-! ## Commits in order -/

namespace Opened

variable {o : Opened σ}

/-- The directory in use after transactions that were committed in order, or refused. -/
def commit (o : Opened σ) (transactions : List (List Edit)) : Opened σ :=
  o.after (transactions.map (Turn.transact · true))

/-- Whether it is committed or not, a transaction leads to no new sharing; one that is dropped leads
to nothing. -/
theorem noNewSharing_next (o : Opened σ) (edits : List Edit) :
    NoNewSharing o.directory.rows.get? (o.next (.transact edits true)).directory.rows.get? := by
  rw [next]
  obtain ⟨d, s, hr⟩ | ⟨e, s, hf⟩ :=
    Op.returns_or_fails (o.directory.begin.editAll edits).commit o.storage
  · have hn := (Transaction.noNewSharing_of_commit_returns hr).2
    rw [Transaction.base_editAll_begin] at hn
    rw [goOn_of_returns hr]
    exact hn
  · rw [goOn_of_fails hf]
    exact .refl _

/-- However many transactions are committed, they lead to no new sharing, by transitivity. -/
theorem noNewSharing_commit (o : Opened σ) (transactions : List (List Edit)) :
    NoNewSharing o.directory.rows.get? (o.commit transactions).directory.rows.get? := by
  induction transactions generalizing o with
  | nil => exact .refl _
  | cons edits rest ih =>
      exact (o.noNewSharing_next edits).trans (ih (o.next (.transact edits true)))

end Opened

/-- **Sharing never grows.** Let `o` be a directory in use, whose rows may share identifiers, on a
storage that takes every batch.

* Of any edits the commit fails if and only if, in the plain table of the rows of `o` after them,
  some identifier is on two rows of which one did not carry it in `o`. The failure is a refusal for
  such an identifier, and leaves rows, redirects, the last handle, the account's own handle and the
  storage as they were. Otherwise the commit answers a directory with that table.
* After any transactions, refused ones among them, what two rows share both carried in `o`; so if
  identifiers were unique in `o`, they still are. -/
theorem commits_never_spread_identifiers (hw : Storage.Reliable σ) (o : Opened σ) :
    (∀ edits,
      let tx := o.directory.begin.editAll edits
      let rows := (o.directory.listing.editAll edits).rows
      ((∃ e s, tx.commit.Fails o.storage e s) ↔
        ∃ x, NewlyShared o.directory.rows.get? rows.get? x) ∧
      (∀ e s, tx.commit.Fails o.storage e s →
        (∃ x, NewlyShared o.directory.rows.get? rows.get? x ∧
          e = .storage (tx.ownershipFault x)) ∧
        s = o.storage ∧ o.next (.transact edits true) = o) ∧
      ((¬∃ x, NewlyShared o.directory.rows.get? rows.get? x) →
        ∃ d s, tx.commit.Returns o.storage d s ∧ d.rows = rows ∧
          o.next (.transact edits true) = ⟨s, d⟩)) ∧
    ∀ transactions,
      NoNewSharing o.directory.rows.get? (o.commit transactions).directory.rows.get? ∧
      (Unambiguous o.directory.rows.get? →
        Unambiguous (o.commit transactions).directory.rows.get?) := by
  refine ⟨fun edits => ?_, fun transactions => ?_⟩
  · intro tx rows
    have hbase : tx.base = o.directory := Transaction.base_editAll_begin o.directory edits
    have hrows : tx.rows = rows := Transaction.rows_editAll_begin o.directory edits
    have hiff := Transaction.commit_fails_iff_newlyShared hw tx o.storage
    rw [hbase, hrows] at hiff
    refine ⟨hiff, fun e s hf => ?_, fun hx => ?_⟩
    · obtain ⟨rfl, x, hx, he⟩ := Transaction.newlyShared_of_commit_fails hw hf
      rw [hbase, hrows] at hx
      exact ⟨⟨x, hx, he⟩, rfl, Opened.goOn_of_fails hf⟩
    · obtain ⟨d, s, hr⟩ | hf := Op.returns_or_fails tx.commit o.storage
      · have hd := (Transaction.noNewSharing_of_commit_returns hr).1
        exact ⟨d, s, hr, hd.trans hrows, Opened.goOn_of_returns hr⟩
      · exact absurd (hiff.mp hf) hx
  · have h := o.noNewSharing_commit transactions
    exact ⟨h, h.unambiguous⟩

/-- Of three rows the second shares its phone-number identity with the first and its number with
the third. A third owner of the phone-number identity is refused, a row of the second's own is
added, and then the second gives up the number: the phone-number identity is still on the first
two. -/
theorem linked_rows_spread_nothing :
    Storage.Reliable Memory ∧
      let o : Opened Memory := ⟨.linked, .linked⟩
      let refused : List Edit := [.update ⟨3⟩ ((Address.ofNumber .sample).withPni (.sample 0))]
      let made : List Edit := [.add (.ofPni (.sample 1)), .update ⟨2⟩ (.ofPni (.sample 0))]
      (∃ e s, (o.directory.begin.editAll refused).commit.Fails o.storage e s) ∧
      o.next (.transact refused true) = o ∧
      (o.commit [refused, made]).directory.rows.entries =
        [(⟨1⟩, .sampleProof), (⟨2⟩, .ofPni (.sample 0)), (⟨3⟩, .ofNumber .sample),
          (⟨4⟩, .ofPni (.sample 1))] ∧
      NoNewSharing o.directory.rows.get? (o.commit [refused, made]).directory.rows.get? := by
  refine ⟨Memory.reliable, ?_⟩
  intro o refused made
  obtain ⟨hone, hall⟩ := commits_never_spread_identifiers Memory.reliable o
  obtain ⟨hiff, hfails, -⟩ := hone refused
  obtain ⟨e, s, hf⟩ := hiff.mpr ⟨.pni (.sample 0), ⟨3⟩, ⟨1⟩, by decide +kernel⟩
  exact ⟨⟨e, s, hf⟩, (hfails e s hf).2.2, by decide +kernel, (hall _).1⟩

end PeerBook
