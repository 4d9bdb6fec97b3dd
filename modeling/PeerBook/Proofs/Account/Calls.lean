import PeerBook.Proofs.Account.Cascade
import PeerBook.Proofs.Directory.Coherent

/-!
# PeerBook.Proofs.Account.Calls

The calls of an account. A request either commits what it asks of the directory,
or fails and leaves the directory as it was (`resolveWith_cases`,
`lookup_cases`).

- A `Call` is what a user of an account may do: resolve one address or several on
  trust, look one up, or register a merger. `Call.perform` makes it and, if it
  succeeds, answers a reply to each of its requests.
- The two lemmas with `commits` also say what was written, as batches on the
  storage; those with `cases` keep to the directory and what was told, which is
  all that most invariants need.

What stores do to follow a merge is left open here but for the directory, which
they cannot reach.
-/

namespace PeerBook

/-- What a call answers of one request. -/
structure Reply where
  request : Address
  /-- Whether the request was trusted. -/
  trusted : Bool
  peer : PeerId
  /-- The peers absorbed into it. -/
  merged : List PeerId

/-- A call of an account. -/
inductive Call (σ : Type) where
  | resolve (markSelf : Bool) (request : Address)
  | resolveBatch (requests : List Address)
  | lookup (request : Address)
  | register (m : Merger σ)

/-- The reply to a trusted request. -/
def Reply.ofResolution (request : Address) (r : Resolution) : Reply :=
  ⟨request, true, r.peer, r.merged⟩

/-- Makes a call, and answers its replies. -/
def Call.perform {σ : Type} [Storage σ] : Call σ → Op (Account σ) (List Reply)
  | .resolve markSelf request => do
    return [.ofResolution request (← Account.resolveWith markSelf request)]
  | .resolveBatch requests => do
    return List.zipWith Reply.ofResolution requests (← Account.resolveBatch requests)
  | .lookup request => do return [⟨request, false, ← Account.lookup request, []⟩]
  | .register m => do
    Op.update (·.register m)
    return []

/-- A reconciliation tells that its peer is new or has another address, and that others have. -/
theorem Reconciliation.mem_events_iff {r : Reconciliation} {e : Event} :
    e ∈ r.events ↔ r.created = true ∧ e = .created r.peer ∨
      (r.created = false ∧ r.changed = true) ∧ e = .addressChanged r.peer ∨
        ∃ i ∈ r.stripped, e = .addressChanged i := by
  cases hc : r.created <;> cases hd : r.changed <;> simp [events, hc, hd, eq_comm]

/-- The events about peers that a finding brings. -/
def Finding.events (f : Finding) : List Event :=
  f.result.events ++ f.result.merged.map (.merged f.result.peer)

/-- What a caller is told of a finding. -/
def Finding.reply (f : Finding) : Reply :=
  ⟨f.request, f.trusted, f.result.peer, f.result.merged⟩

variable {σ : Type} [Storage σ]

namespace Account

/-! ## Commits of an account -/

/-- What the commit of a trusted resolution publishes, and what it writes. -/
theorem commit_draft_returns {d d' : Directory} (hd : d.HasNext) {markSelf : Bool}
    {request : Address} {s s' : σ} (h : (d.draft markSelf request).commit.Returns s d' s') :
    d' = d.resolved markSelf request ∧ (d' = d ∧ s' = s ∨
      (Storage.writeBatch (d.draft markSelf request).writes).Returns s () s') := by
  obtain ⟨hc, rfl, rfl⟩ | ⟨rfl, hw⟩ := Transaction.commit_returns h
  · have hr := Directory.resolved_of_not_hasChanges hd hc
    rw [hr, Directory.base_draft]
    exact ⟨rfl, .inl ⟨rfl, rfl⟩⟩
  · exact ⟨rfl, .inr hw⟩

/-- What the commit of a look-up publishes, and what it writes. -/
theorem commit_addition_returns {d d' : Directory} {request : Address} {s s' : σ}
    (h : (d.addition request).commit.Returns s d' s') :
    d' = d.added request ∧ (Storage.writeBatch (d.addition request).writes).Returns s () s' := by
  obtain ⟨hc, -⟩ | ⟨rfl, hw⟩ := Transaction.commit_returns h
  · rw [d.hasChanges_addition request] at hc
    contradiction
  · exact ⟨rfl, hw⟩

omit [Storage σ] in
/-- A trusted resolution in a transaction on the directory answers as the settled table says, and
leaves the account. -/
theorem reconcile_within {account : Account σ} (hd : account.directory.HasNext)
    (request : Address) :
    ((reconcile request).within account.directory.begin : Op (Account σ) _).Returns account
      (settled request account.directory.begin) account :=
  (reconcile_returns request (Directory.sound_begin hd)).within account

/-- An account that published a directory and told something. -/
def publish (account : Account σ) (s : σ) (d : Directory) (news : List Event) : Account σ :=
  { account with storage := s, directory := d, events := account.events ++ news }

/-- A trusted resolution fails with its commit, or publishes what was committed and then lets the
stores follow. -/
theorem resolveWith_commits {account : Account σ} (hd : account.directory.HasNext)
    (markSelf : Bool) (request : Address) :
    (∃ e s, (account.directory.draft markSelf request).commit.Fails account.storage e s ∧
        (resolveWith markSelf request).Fails account e { account with storage := s }) ∨
      ∃ d s, (account.directory.draft markSelf request).commit.Returns account.storage d s ∧
        ∀ failures account', (cascadeAll (account.directory.outcome request).peer
            (account.directory.outcome request).merged).Returns
              (account.publish s d (account.directory.outcome request).events) failures account' →
          (resolveWith markSelf request).Returns account
            ⟨(account.directory.outcome request).peer, (account.directory.outcome request).merged,
              failures⟩ account' := by
  have hw := reconcile_within hd request
  obtain ⟨d, s, hc⟩ | ⟨e, s, hc⟩ :=
    Op.returns_or_fails (account.directory.draft markSelf request).commit account.storage
  · have hz : (onStorage (account.directory.draft markSelf request).commit).Returns account d
        { account with storage := s } := hc.zoom
    have hrec : (reconcileDirectory markSelf request).Returns account
        (account.directory.outcome request) { account with storage := s, directory := d } :=
      (Op.returns_state _).bind (hw.bind (hz.bind
        ((Op.returns_update _ _).bind (Op.returns_pure _ _))))
    exact .inr ⟨d, s, hc, fun failures account' hcas => hrec.bind ((Op.returns_update _ _).bind
      (hcas.bind (Op.returns_pure _ _)))⟩
  · have hz : (onStorage (account.directory.draft markSelf request).commit).Fails account e
        { account with storage := s } := hc.zoom
    have hrec : (reconcileDirectory markSelf request).Fails account e
        { account with storage := s } :=
      (Op.returns_state _).bind_fails (hw.bind_fails (hz.bind _))
    exact .inl ⟨e, s, hc, hrec.bind _⟩

/-- A trusted resolution publishes a directory, or fails and keeps the one it has. What it answers
is the outcome for the directory, with failures of the stores. -/
theorem resolveWith_cases {account : Account σ} (hd : account.directory.HasNext)
    (markSelf : Bool) (request : Address) :
    (∃ e s, (account.directory.draft markSelf request).commit.Fails account.storage e s ∧
        (resolveWith markSelf request).Fails account e { account with storage := s }) ∨
      ∃ d s failures account',
        (account.directory.draft markSelf request).commit.Returns account.storage d s ∧
        (resolveWith markSelf request).Returns account
          ⟨(account.directory.outcome request).peer, (account.directory.outcome request).merged,
            failures⟩ account' ∧
        Follows { account with storage := s, directory := d } account'
          (Finding.events ⟨request, true, account.directory.outcome request⟩) := by
  obtain hf | ⟨d, s, hc, hgo⟩ := resolveWith_commits hd markSelf request
  · exact .inl hf
  · obtain ⟨failures, account', hcas, hf⟩ := cascadeAll_returns
      (account.directory.outcome request).peer (account.directory.outcome request).merged
      (account.publish s d (account.directory.outcome request).events)
    refine .inr ⟨d, s, failures, account', hc, hgo failures account' hcas, hf.directory, hf.mergers,
      ?_, hf.storage⟩
    have hall : (account.directory.outcome request).events.filter Event.concernsPeers =
        (account.directory.outcome request).events := by
      rw [List.filter_eq_self]
      intro e he
      obtain ⟨-, rfl⟩ | ⟨-, rfl⟩ | ⟨i, -, rfl⟩ := Reconciliation.mem_events_iff.mp he <;> rfl
    rw [hf.history, Finding.events, ← List.append_assoc]
    refine congrArg (· ++ _) ((history_send account _).trans ?_)
    rw [hall]
    rfl

/-- An untrusted look-up finds a peer and does nothing, or fails with its commit, or publishes what
was committed. -/
theorem lookup_commits (account : Account σ) (request : Address) :
    (∃ p, account.directory.bestMatch? request = some p ∧
        (lookup request).Returns account p.id account) ∨
      account.directory.bestMatch? request = none ∧
        ((∃ e s, (account.directory.addition request).commit.Fails account.storage e s ∧
            (lookup request).Fails account e { account with storage := s }) ∨
          ∃ d s, (account.directory.addition request).commit.Returns account.storage d s ∧
            (lookup request).Returns account account.directory.lastId.next
              (account.publish s d [.created account.directory.lastId.next])) := by
  unfold lookup
  cases hb : account.directory.bestMatch? request with
  | some p =>
      refine .inl ⟨p, rfl, (Op.returns_state _).bind ?_⟩
      dsimp only
      rw [hb]
      exact Op.returns_pure _ _
  | none =>
      refine .inr ⟨rfl, ?_⟩
      have hw : ((AddressTable.add (recordable request)).within account.directory.begin :
          Op (Account σ) _).Returns account
          (account.directory.lastId.next, account.directory.addition request) account := by
        refine Op.Returns.within ?_ account
        unfold Op.Returns
        rw [LawfulAddressTable.run_add]
        exact ⟨rfl, rfl⟩
      obtain ⟨d, s, hc⟩ | ⟨e, s, hc⟩ :=
        Op.returns_or_fails (account.directory.addition request).commit account.storage
      · have hz : (onStorage (account.directory.addition request).commit).Returns account d
            { account with storage := s } := hc.zoom
        refine .inr ⟨d, s, hc, (Op.returns_state _).bind ?_⟩
        dsimp only
        rw [hb]
        exact (Op.returns_note _ _ _).bind (hw.bind (hz.bind ((Op.returns_update _ _).bind
          ((Op.returns_update _ _).bind (Op.returns_pure _ _)))))
      · have hz : (onStorage (account.directory.addition request).commit).Fails account e
            { account with storage := s } := hc.zoom
        refine .inl ⟨e, s, hc, (Op.returns_state _).bind_fails ?_⟩
        dsimp only
        rw [hb]
        exact (Op.returns_note _ _ _).bind_fails (hw.bind_fails (hz.bind _))

/-- An untrusted look-up finds a peer and does nothing, or publishes a directory with a new row,
or fails and keeps the directory it has. -/
theorem lookup_cases (account : Account σ) (request : Address) :
    (∃ p, account.directory.bestMatch? request = some p ∧
        (lookup request).Returns account p.id account) ∨
      account.directory.bestMatch? request = none ∧
        ((∃ e s, (account.directory.addition request).commit.Fails account.storage e s ∧
            (lookup request).Fails account e { account with storage := s }) ∨
          ∃ d s account',
            (account.directory.addition request).commit.Returns account.storage d s ∧
            (lookup request).Returns account account.directory.lastId.next account' ∧
            Follows { account with storage := s, directory := d } account'
              [.created account.directory.lastId.next]) := by
  obtain hfound | ⟨hnone, hfails | ⟨d, s, hc, hr⟩⟩ := lookup_commits account request
  · exact .inl hfound
  · exact .inr ⟨hnone, .inl hfails⟩
  · exact .inr ⟨hnone, .inr ⟨d, s, _, hc, hr, rfl, rfl, history_send account _, fun _ _ h => h⟩⟩

end Account

end PeerBook
