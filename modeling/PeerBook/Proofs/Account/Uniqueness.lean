import PeerBook.Proofs.Account.Runs
import PeerBook.Proofs.Directory.Sharing

/-!
# PeerBook.Proofs.Account.Uniqueness

On a storage that takes every batch no call of an account fails: the commit is
never refused, because no resolution and no look-up puts an identifier on a
second row. So from an empty storage every identifier stays on one row at most,
and right after a trusted request one row carries the whole of it.

The two halves need each other: that calls succeed comes from uniqueness of the
table so far, and that it is kept comes from what a call that succeeds does. Both
are read off the coherence of the directory at each moment; the main result,
`run_keeps_identifiers_unique`, puts them together for all moments of a run.
-/

namespace PeerBook

variable {σ : Type} [Storage σ]

/-- A storage that takes every batch. -/
def Storage.Reliable (σ : Type) [Storage σ] : Prop :=
  ∀ (s : σ) (ws : List Write), ∃ s', (Storage.writeBatch ws).Returns s () s'

/-- A storage in memory takes every batch. -/
theorem Memory.reliable : Storage.Reliable Memory := fun _ _ => ⟨_, rfl, rfl⟩

/-- A commit that leaves every identifier on one row at most does not fail. -/
theorem Transaction.commit_not_fails (hw : Storage.Reliable σ) {tx : Transaction}
    (hu : Unambiguous tx.rows.get?) {s s' : σ} {e : Error} : ¬tx.commit.Fails s e s' := by
  intro hf
  obtain ⟨hv, -⟩ | hb := commit_fails hf
  · exact hv (violation?_eq_none hu)
  · obtain ⟨t, ht⟩ := hw s tx.writes
    exact hb.not_ok _ ht.1

namespace Account

variable {account : Account σ}

/-- A trusted resolution of a coherent account succeeds. -/
theorem resolveWith_returns (hw : Storage.Reliable σ) (hc : account.Coherent)
    (hn : account.allotted + 1 < UInt64.size) (markSelf : Bool) (request : Address) :
    ∃ r account', (resolveWith markSelf request).Returns account r account' := by
  have hnext := Directory.Coherent.hasNext hc hn
  obtain ⟨e, s, hf, -⟩ | ⟨d, s, failures, account', -, hr, -⟩ :=
    resolveWith_cases hnext markSelf request
  · exact absurd hf (Transaction.commit_not_fails hw
      (Directory.unambiguous_resolved hnext hc.unambiguous markSelf request))
  · exact ⟨_, account', hr⟩

/-- A batch succeeds, by induction on its members, each of which finds the account coherent. -/
theorem resolveBatch_returns (hw : Storage.Reliable σ) (requests : List Address)
    {account : Account σ} (hc : account.Coherent)
    (hn : ((resolveBatch requests).run account).state.allotted + 1 < UInt64.size) :
    ∃ rs account', (resolveBatch requests).Returns account rs account' := by
  induction requests generalizing account with
  | nil => exact ⟨[], account, Op.returns_pure _ _⟩
  | cons a as ih =>
      have hle := (resolveBatch_addsEvents (a :: as) account).allotted_le
      obtain ⟨r, account', hr⟩ := resolveWith_returns hw hc (by omega) false a
      obtain ⟨e, s, hf⟩ | ⟨r', t, f, hr', hdev, -⟩ := resolveWith_develops hc (by omega) false a
      · exact absurd hr.1 (hf.not_ok r)
      obtain ⟨-, rfl⟩ := hr.unique hr'
      rw [resolveBatch_cons_state hr] at hn
      have hle' := (resolveBatch_addsEvents as account').allotted_le
      obtain ⟨rs, account'', hrs⟩ := ih (hdev.coherent hc (by omega)) hn
      exact ⟨r :: rs, account'', hr.bind (hrs.bind (Op.returns_pure _ _))⟩

/-- A look-up succeeds, whether it finds a peer or adds one. -/
theorem lookup_returns (hw : Storage.Reliable σ) (hc : account.Coherent) (request : Address) :
    ∃ p account', (lookup request).Returns account p account' := by
  obtain ⟨p, -, hr⟩ | ⟨hnone, ⟨e, s, hf, -⟩ | ⟨d, s, account', -, hr, -⟩⟩ :=
    lookup_cases account request
  · exact ⟨p.id, account, hr⟩
  · exact absurd hf (Transaction.commit_not_fails hw
      (Directory.unambiguous_added hc.unambiguous hnone))
  · exact ⟨_, account', hr⟩

end Account

/-- No call fails on a storage that takes every batch, as long as handles are left and the account
is coherent. -/
theorem Call.perform_returns (hw : Storage.Reliable σ) (c : Call σ) {account : Account σ}
    (hc : account.Coherent) (hn : (c.perform.run account).state.allotted + 1 < UInt64.size) :
    ∃ replies account', c.perform.Returns account replies account' := by
  have hle := (c.perform_addsEvents account).allotted_le
  cases c with
  | resolve markSelf request =>
      obtain ⟨r, account', hr⟩ := Account.resolveWith_returns hw hc (by omega) markSelf request
      exact ⟨_, account', hr.bind (Op.returns_pure _ _)⟩
  | resolveBatch requests =>
      rw [Call.perform, Op.state_map] at hn
      obtain ⟨rs, account', hr⟩ := Account.resolveBatch_returns hw requests hc hn
      exact ⟨_, account', hr.bind (Op.returns_pure _ _)⟩
  | lookup request =>
      obtain ⟨p, account', hr⟩ := Account.lookup_returns hw hc request
      exact ⟨_, account', hr.bind (Op.returns_pure _ _)⟩
  | register m => exact ⟨[], _, (Op.returns_update _ _).bind (Op.returns_pure _ _)⟩

/-- Right after a trusted request the row of the peer answered carries the request. It is said of
the last reply, since a later member of a batch may have moved what an earlier one has named. -/
theorem Call.covers_last (c : Call σ) {account : Account σ} (hc : account.Coherent)
    (hn : (c.perform.run account).state.allotted + 1 < UInt64.size) {replies : List Reply}
    {reply : Reply} (hr : (c.perform.run account).result = .ok (replies ++ [reply]))
    (ht : reply.trusted = true) :
    ∃ a, (c.perform.run account).state.directory.rows.get? reply.peer = some a ∧
      a.covers reply.request = true := by
  obtain ⟨fs, hdev, hreplies⟩ := c.perform_develops hc hn
  obtain ⟨gs, f, rfl, rfl⟩ : ∃ gs f, fs = gs ++ [f] ∧ reply = f.reply := by
    obtain ⟨gs, hs, rfl, -, hhs⟩ := List.map_eq_append_iff.mp (hreplies _ hr).symm
    obtain ⟨f, rfl, hf⟩ := List.map_eq_singleton_iff.mp hhs
    exact ⟨gs, f, rfl, hf.symm⟩
  have hal := hdev.allotted
  rw [Finding.creations, List.countP_append] at hal
  refine hdev.directory.row_last hc ?_ ht
  rw [Finding.creations]
  omega

/-- **Identifiers stay unique.** From an empty storage that takes every batch, as long as handles
are left: at every moment no identifier is on two rows, every call succeeds, and right after each
trusted request the row of the peer answered carries the whole request. -/
theorem run_keeps_identifiers_unique {s : σ} (hs : Storage.Vacant s) (hw : Storage.Reliable σ)
    (mergers : List (Merger σ)) (calls : List (Call σ)) :
    ∃ account, (Account.load mergers).Returns s account s ∧
      ((account.after calls).allotted < UInt64.size - 1 →
        (∀ start, Call.Start start calls →
          Unambiguous (account.after start).directory.rows.get?) ∧
        ∀ start c, Call.Start (start ++ [c]) calls →
          ∃ replies, (c.perform.run (account.after start)).result = .ok replies ∧
            ∀ reply, replies.getLast? = some reply → reply.trusted = true →
              ∃ a, (account.after (start ++ [c])).directory.rows.get? reply.peer = some a ∧
                a.covers reply.request = true) := by
  refine ⟨.fresh s mergers, Account.load_vacant hs mergers, fun hn => ?_⟩
  have hbound : ∀ start, Call.Start start calls →
      ((Account.fresh s mergers).after start).allotted + 1 < UInt64.size := by
    intro start hstart
    have hle := (Account.start_addsEvents hstart (.fresh s mergers)).allotted_le
    omega
  have hcoherent : ∀ start, ((Account.fresh s mergers).after start).allotted + 1 < UInt64.size →
      ((Account.fresh s mergers).after start).Coherent :=
    fun start => Account.after_coherent start (Account.coherent_fresh s mergers)
  refine ⟨fun start hstart => (hcoherent start (hbound start hstart)).unambiguous, ?_⟩
  intro start c hstart
  have hn' := hbound _ hstart
  rw [Account.after_concat] at hn' ⊢
  have hle := (c.perform_addsEvents ((Account.fresh s mergers).after start)).allotted_le
  have hc := hcoherent start (by omega)
  obtain ⟨replies, account', hr⟩ := c.perform_returns hw hc hn'
  refine ⟨replies, hr.1, fun reply hlast ht => ?_⟩
  obtain ⟨init, rfl⟩ := List.getLast?_eq_some_iff.mp hlast
  exact c.covers_last hc hn' hr.1 ht

/-- Three handles are given out, and two of them are proved to be one peer by a batch. -/
theorem provingCalls_keep_identifiers_unique :
    ∃ account, (Account.load []).Returns (⟨∅⟩ : Memory) account ⟨∅⟩ ∧
      (account.after provingCalls).allotted = 3 ∧
      (∀ start, Call.Start start provingCalls →
        Unambiguous (account.after start).directory.rows.get?) ∧
      (account.after provingCalls).directory.follow ⟨2⟩ = ⟨1⟩ := by
  obtain ⟨account, hload, h⟩ :=
    run_keeps_identifiers_unique Memory.vacant Memory.reliable [] provingCalls
  obtain ⟨rfl, -⟩ := hload.unique (Account.load_vacant Memory.vacant [])
  have hn : ((Account.fresh (⟨∅⟩ : Memory) []).after provingCalls).allotted = 3 := rfl
  exact ⟨_, hload, hn, (h (by rw [hn]; decide)).1, rfl⟩

end PeerBook
