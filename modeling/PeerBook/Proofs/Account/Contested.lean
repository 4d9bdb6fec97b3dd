import PeerBook.Proofs.Account.Uniqueness
import PeerBook.Storage.Memory

/-!
# PeerBook.Proofs.Account.Contested

Trusted resolutions on an account that was read from storage, whatever
identifiers its rows share. A request is resolved, and its identifiers are then
on one row only, unless it is contested: its row would take over from an
absorbed row an identifier that a third row shares with that one. Such a request
is refused, although the two rows shared the identifier before, and goes on to
be refused (`loaded_account_resolves_iff`).

The condition is `Directory.Contested`, on rows and request alone. It needs two
identifiers that are shared, each by other rows, so one that is shared alone is
always mended by the next resolution that names it; `Directory.linked` is the
least case of the other kind.
-/

namespace PeerBook

variable {σ : Type} [Storage σ]

namespace Account

/-- What an account that was read is like. -/
theorem load_returns_cases {mergers : List (Merger σ)} {s s' : σ} {account : Account σ}
    (h : (load mergers).Returns s account s') :
    ∃ d, (Directory.load : Op σ _).Returns s d s' ∧ account = ⟨s', d, mergers, []⟩ := by
  obtain ⟨d, s₁, hd, h⟩ := h.of_bind
  obtain ⟨s₂, s₃, hs, h⟩ := h.of_bind
  obtain ⟨rfl, rfl⟩ := hs.unique (Op.returns_state _)
  obtain ⟨rfl, rfl⟩ := h.unique (Op.returns_pure _ _)
  exact ⟨d, hd, rfl⟩

/-- A contested request is refused and changes nothing, so it is refused again whenever it comes.
The refusal names an identifier of which a third row is the owner already. -/
theorem resolveWith_contested {account : Account σ} (hd : account.directory.HasNext)
    {request : Address} (h : account.directory.Contested request) (markSelf : Bool) :
    ∃ kind i j, (resolveWith markSelf request).Fails account
      (.storage (.alreadyOwned kind i j)) account := by
  have hv : (account.directory.draft markSelf request).violation? ≠ none :=
    fun hnone => (Directory.draft_refused_iff hd markSelf).mp hnone h
  have hc := h.hasChanges markSelf
  obtain ⟨e, s, hf, hr⟩ | ⟨d, s, failures, account', hcommit, -⟩ :=
    resolveWith_cases hd markSelf request
  · obtain ⟨hc', -⟩ | ⟨f, hf', hfault⟩ | ⟨-, hnone, -⟩ :=
      (account.directory.draft markSelf request).commit_cases account.storage
    · rw [hc] at hc'
      contradiction
    · obtain ⟨rfl, rfl⟩ := hf.unique hfault
      obtain ⟨x, -, rfl⟩ := Option.map_eq_some_iff.mp hf'
      exact ⟨_, _, _, hr⟩
    · exact absurd hnone hv
  · obtain ⟨hc', -⟩ | ⟨f, -, hfault⟩ | ⟨-, hnone, -⟩ :=
      (account.directory.draft markSelf request).commit_cases account.storage
    · rw [hc] at hc'
      contradiction
    · exact absurd hcommit.1 (hfault.not_ok d)
    · exact absurd hnone hv

/-- A request that is not contested is resolved by a storage that takes every batch, and then has
its identifiers on one row only. -/
theorem resolveWith_uncontested (hw : Storage.Reliable σ) {account : Account σ}
    (hd : account.directory.HasNext) {request : Address}
    (h : ¬account.directory.Contested request) (markSelf : Bool) :
    ∃ r account', (resolveWith markSelf request).Returns account r account' ∧
      ∀ x ∈ request.identifiers, ∀ i,
        Carries account'.directory.rows.get? i x ↔ i = r.peer := by
  have hv := (Directory.draft_refused_iff hd markSelf).mpr h
  obtain ⟨e, s, hf, -⟩ | ⟨d, s, failures, account', hcommit, hr, hfollows⟩ :=
    resolveWith_cases hd markSelf request
  · obtain ⟨hrefused, -⟩ | hb := Transaction.commit_fails hf
    · exact absurd hv hrefused
    · obtain ⟨t, ht⟩ := hw account.storage (account.directory.draft markSelf request).writes
      exact absurd ht.1 (hb.not_ok ())
  · refine ⟨_, account', hr, fun x hx i => ?_⟩
    rw [hfollows.directory, (commit_draft_returns hd hcommit).1]
    exact Directory.carries_resolved_iff hd markSelf hx

end Account

/-- **On an account that was read, exactly the contested requests are refused.** Whatever rows a
storage that takes every batch has, as long as handles are left: a trusted request is resolved, with
each of its identifiers on the row answered and on no other, unless it is contested; and then it is
refused as giving an identifier to a second owner, and nothing is changed. -/
theorem loaded_account_resolves_iff (hw : Storage.Reliable σ) {mergers : List (Merger σ)}
    {s s' : σ} {account : Account σ} (hload : (Account.load mergers).Returns s account s')
    (hn : account.directory.lastId.toNat < UInt64.size - 1) (markSelf : Bool)
    (request : Address) :
    ((∃ r account', (Account.resolveWith markSelf request).Returns account r account' ∧
        ∀ x ∈ request.identifiers, ∀ i,
          Carries account'.directory.rows.get? i x ↔ i = r.peer) ↔
      ¬account.directory.Contested request) ∧
      (account.directory.Contested request → ∃ kind i j,
        (Account.resolveWith markSelf request).Fails account (.storage (.alreadyOwned kind i j))
          account) := by
  have hnext : account.directory.HasNext := by
    obtain ⟨d, hd, rfl⟩ := Account.load_returns_cases hload
    exact Directory.hasNext_of_load hd (Nat.add_lt_of_lt_sub hn)
  refine ⟨⟨?_, fun h => Account.resolveWith_uncontested hw hnext h markSelf⟩,
    fun h => Account.resolveWith_contested hnext h markSelf⟩
  rintro ⟨r, account', hr, -⟩ hc
  obtain ⟨kind, i, j, hf⟩ := Account.resolveWith_contested hnext hc markSelf
  exact hf.not_ok r hr.1

/-! ## Rows that stay apart -/

/-- Three rows: the second shares its phone-number identity with the first and its phone number
with the third. -/
def Directory.linked : Directory where
  rows := Table.ofList
    [(⟨1⟩, .sampleProof),
      (⟨2⟩, (Address.ofNumber .sample).withPni (.sample 0)),
      (⟨3⟩, .ofNumber .sample)]
  redirects := ∅
  lastId := ⟨3⟩
  self := none

/-- A storage with the three rows and nothing else. -/
def Memory.linked : Memory :=
  ⟨(∅ : Contents).applyAll
    (Directory.linked.rows.entries.map fun (i, a) => Transaction.rowWrite i a)⟩

/-- The three rows are read back as they are, the identifiers that they share included: reading
reports these and keeps them. -/
theorem Memory.load_linked : (Directory.load : Op Memory _).Returns linked .linked linked := by
  have hrun : (Directory.load.run linked).result.toOption = some .linked ∧
      (Directory.load.run linked).state = linked := by decide +kernel
  obtain ⟨hresult, hstate⟩ := hrun
  refine ⟨?_, hstate⟩
  cases h : (Directory.load.run linked).result with
  | ok d =>
      rw [h] at hresult
      exact congrArg Except.ok (Option.some.inj hresult)
  | error e =>
      rw [h] at hresult
      exact absurd hresult nofun

/-- The first row's own identifiers are refused: with the second row it would take over a phone
number that the third has too. -/
theorem linked_rows_refuse :
    ∃ account, (Account.load []).Returns Memory.linked account Memory.linked ∧
      account.directory.rows.get? ⟨1⟩ = some .sampleProof ∧
      (∃ kind i j, (Account.resolve .sampleProof).Fails account
        (.storage (.alreadyOwned kind i j)) account) ∧
      ¬∃ r account', (Account.resolve .sampleProof).Returns
          account r account' ∧
        ∀ x ∈ Address.sampleProof.identifiers, ∀ i,
          Carries account'.directory.rows.get? i x ↔ i = r.peer := by
  have hload : (Account.load []).Returns Memory.linked ⟨.linked, .linked, [], []⟩ .linked :=
    Memory.load_linked.bind ((Op.returns_state _).bind (Op.returns_pure _ _))
  have hcontested : Directory.linked.Contested .sampleProof :=
    ⟨.number .sample, ⟨3⟩, by decide +kernel⟩
  obtain ⟨hiff, hfails⟩ := loaded_account_resolves_iff Memory.reliable hload (by decide) false
    .sampleProof
  exact ⟨_, hload, rfl, hfails hcontested, fun h => hiff.mp h hcontested⟩

end PeerBook
