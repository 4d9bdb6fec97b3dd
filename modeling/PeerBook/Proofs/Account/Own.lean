import PeerBook.Proofs.Account.Reopening
import PeerBook.Proofs.Directory.Own

/-!
# PeerBook.Proofs.Account.Own

The account's own handle along a run. Only a resolution of the account's own
address that succeeds answers one (`Move.ownAnswer?`); whatever else is asked,
refused or read anew, the handle that the account has is the one answered last,
followed to where it is now (`Account.through_ownIs`).

What is stored may be another handle than the one answered, since a resolution
stores its peer only where the stored handle does not lead there already; both
stand for one peer, and this is what each kind of request is shown to keep. An
account that never resolved its own address has no handle of its own.
-/

namespace PeerBook

variable {σ : Type} [Storage σ]

/-- The handle that a move answers for the account itself: that of a resolution of its own address
which succeeds. -/
def Move.ownAnswer? (account : Account σ) : Move σ → Option PeerId
  | .call (.resolve true request) =>
    ((Account.resolveSelf request).run account).result.toOption.map Resolution.peer
  | _ => none

namespace Account

/-- The handles that moves in order answer for the account itself. -/
def ownAnswers (account : Account σ) : List (Move σ) → List PeerId
  | [] => []
  | m :: moves =>
    (m.ownAnswer? account).toList ++ ownAnswers (m.perform.run account).state moves

variable {account : Account σ} {own : Option PeerId}

/-! ## Requests -/

/-- A trusted request fails and leaves the directory, or answers the peer of the resolution and
leaves the directory resolved. -/
theorem resolveWith_resolves (hd : account.directory.HasNext) (markSelf : Bool)
    (request : Address) :
    (∃ e s, (resolveWith markSelf request).Fails account e { account with storage := s }) ∨
      ∃ r account', (resolveWith markSelf request).Returns account r account' ∧
        r.peer = (account.directory.outcome request).peer ∧
        account'.directory = account.directory.resolved markSelf request := by
  obtain ⟨e, s, -, hf⟩ | ⟨d, s, failures, account', hcommit, hr, hfollows⟩ :=
    resolveWith_cases hd markSelf request
  · exact .inl ⟨e, s, hf⟩
  · exact .inr ⟨_, account', hr, rfl, hfollows.directory.trans (commit_draft_returns hd hcommit).1⟩

/-- A resolution of another address leaves the account's own handle, also where it fails. -/
theorem resolve_ownIs (h : account.directory.OwnIs own) (hc : account.Coherent)
    (hn : account.allotted + 1 < UInt64.size) (request : Address) :
    ((resolveWith false request).run account).state.directory.OwnIs own := by
  obtain ⟨e, s, hf⟩ | ⟨r, account', hr, -, hd⟩ :=
    resolveWith_resolves (Directory.Coherent.hasNext hc hn) false request
  · rw [hf.2]
    exact h
  · rw [hr.2, hd]
    exact h.resolved hc hn request

/-- A request for the account that succeeds makes what it answers the account's own. -/
theorem resolveSelf_ownIs (h : account.directory.OwnIs own) (hc : account.Coherent)
    (hn : account.allotted + 1 < UInt64.size) (request : Address) :
    ((resolveSelf request).run account).state.directory.OwnIs
      ((((resolveSelf request).run account).result.toOption.map Resolution.peer).or own) := by
  rw [resolveSelf]
  obtain ⟨e, s, hf⟩ | ⟨r, account', hr, hpeer, hd⟩ :=
    resolveWith_resolves (Directory.Coherent.hasNext hc hn) true request
  · rw [hf.1, hf.2]
    exact h
  · rw [hr.1, hr.2, hd]
    show Directory.OwnIs _ (some r.peer)
    rw [hpeer]
    exact h.resolved_self hc hn request

/-- So does a batch, by induction on its members, also where one of them fails. -/
theorem resolveBatch_ownIs (requests : List Address) {account : Account σ}
    (h : account.directory.OwnIs own) (hc : account.Coherent)
    (hn : ((resolveBatch requests).run account).state.allotted + 1 < UInt64.size) :
    ((resolveBatch requests).run account).state.directory.OwnIs own := by
  induction requests generalizing account with
  | nil => exact h
  | cons a as ih =>
      have hle := (resolveBatch_addsEvents (a :: as) account).allotted_le
      have hfirst := resolve_ownIs h hc (by omega) a
      obtain ⟨e, s, hf⟩ | ⟨r, account', f, hr, hdev, -⟩ :=
        resolveWith_develops hc (by omega) false a
      · have hbf : (resolveBatch (a :: as)).Fails account e { account with storage := s } :=
          hf.bind _
        rw [hbf.2]
        exact h
      · rw [hr.2] at hfirst
        rw [resolveBatch_cons_state hr] at hn ⊢
        have hle' := (resolveBatch_addsEvents as account').allotted_le
        exact ih hfirst (hdev.coherent hc (by omega)) hn

/-- So does a look-up, which changes no redirect and stores no handle of the account. -/
theorem lookup_ownIs (h : account.directory.OwnIs own) (request : Address) :
    ((lookup request).run account).state.directory.OwnIs own := by
  obtain ⟨p, -, hr⟩ | ⟨-, ⟨e, s, -, hf⟩ | ⟨d, s, account', hcommit, hr, hfollows⟩⟩ :=
    lookup_cases account request
  · rw [hr.2]
    exact h
  · rw [hf.2]
    exact h
  · rw [hr.2, hfollows.directory]
    show d.OwnIs own
    rw [(commit_addition_returns hcommit).1]
    exact h.added request

end Account

/-! ## Runs -/

variable {contents : σ → Contents}

/-- After a move the account's own handle is the one it answered, or else the one before. Reading
the account anew finds the stored handle, which is the one in use. -/
theorem Move.perform_ownIs (hs : Storage.Atomic contents) (m : Move σ) {account : Account σ}
    {own : Option PeerId} (h : account.directory.OwnIs own) (hk : account.Kept contents)
    (hc : account.Coherent) (hn : (m.perform.run account).state.allotted + 1 < UInt64.size) :
    (m.perform.run account).state.directory.OwnIs ((m.ownAnswer? account).or own) := by
  have hle := (m.perform_addsEvents account).allotted_le
  cases m with
  | call c =>
      cases c with
      | resolve markSelf request =>
          rw [Move.perform, Call.perform, Op.state_map]
          cases markSelf with
          | true => exact Account.resolveSelf_ownIs h hc (by omega) request
          | false => exact Account.resolve_ownIs h hc (by omega) request
      | resolveBatch requests =>
          rw [Move.perform, Call.perform, Op.state_map] at hn ⊢
          exact Account.resolveBatch_ownIs requests h hc hn
      | lookup request =>
          rw [Move.perform, Call.perform, Op.state_map]
          exact Account.lookup_ownIs h request
      | register merger => exact h
  | reopen mergers =>
      obtain ⟨s, hr, -⟩ := Account.reopen_returns hs hk hc mergers
      have hp : (Move.reopen mergers).perform.Returns account []
          { account with storage := s, mergers := mergers } := hr.bind (Op.returns_pure _ _)
      rw [hp.2]
      exact h

/-- **Along a run the account's own handle is the one answered last**, or the one from the start if
none was answered, followed to where it is now. -/
theorem Account.through_ownIs (hs : Storage.Atomic contents) (moves : List (Move σ))
    (hm : ∀ m ∈ moves, ∀ m' ∈ m.mergers, m'.Spares contents) {account : Account σ}
    {own : Option PeerId} (h : account.directory.OwnIs own) (hk : account.Kept contents)
    (hc : account.Coherent) (hn : (account.through moves).allotted + 1 < UInt64.size) :
    (account.through moves).directory.OwnIs ((account.ownAnswers moves).getLast?.or own) := by
  induction moves generalizing account own with
  | nil => exact h
  | cons m ms ih =>
      have hle := (through_addsEvents (m.perform.run account).state ms).allotted_le
      have hn' : (m.perform.run account).state.allotted + 1 < UInt64.size :=
        Nat.lt_of_le_of_lt (Nat.succ_le_succ hle) hn
      obtain ⟨hk', fs, hdev, -⟩ := m.perform_develops hs (hm m List.mem_cons_self) hk hc hn'
      have hfirst := m.perform_ownIs hs h hk hc hn'
      have hrest := ih (fun m' hm' => hm m' (List.mem_cons_of_mem m hm')) hfirst hk'
        (hdev.coherent hc hn') hn
      have hlast : (m.ownAnswer? account).toList.getLast? = m.ownAnswer? account := by
        cases m.ownAnswer? account <;> rfl
      rw [ownAnswers, List.getLast?_append, hlast, Option.or_assoc]
      exact hrest

/-- **The account keeps track of itself.** From an empty storage that may refuse any batch as a whole,
whatever is asked of the account and whenever it is read anew, as long as handles are left: at the
end of every run the account's own handle is what the last resolution of its own address to succeed
answered, followed to where that is now; it has a row and was never absorbed; and the account has
none exactly if no such resolution succeeded. -/
theorem run_follows_own_peer (ha : Storage.Atomic contents) {s : σ} (hs : contents s = ∅)
    {mergers : List (Merger σ)} (hmergers : ∀ m ∈ mergers, m.Spares contents)
    {moves : List (Move σ)} (hmoves : ∀ m ∈ moves, ∀ m' ∈ m.mergers, m'.Spares contents) :
    ∃ account s', (Account.load mergers).Returns s account s' ∧
      ((account.through moves).allotted < UInt64.size - 1 →
        (account.through moves).directory.selfId =
          (account.ownAnswers moves).getLast?.map (account.through moves).directory.follow ∧
        (∀ i, (account.through moves).directory.selfId = some i →
          (∃ a, (account.through moves).directory.rows.get? i = some a) ∧
            (account.through moves).directory.redirects.get? i = none) ∧
        ((account.through moves).directory.selfId = none ↔ account.ownAnswers moves = [])) := by
  obtain ⟨s', hload, hkept⟩ := Account.load_fresh ha hs hmergers
  refine ⟨.fresh s' mergers, s', hload, fun hbound => ?_⟩
  have hn : ((Account.fresh s' mergers).through moves).allotted + 1 < UInt64.size := by omega
  have hown := Account.through_ownIs ha moves hmoves Directory.ownIs_empty hkept
    (Account.coherent_fresh s' mergers) hn
  rw [Option.or_none] at hown
  refine ⟨hown.selfId_eq, fun i => hown.selfId_live, ?_⟩
  rw [hown.selfId_eq, Option.map_eq_none_iff, List.getLast?_eq_none_iff]

/-- The account itself is met by its phone-number identity; its account identity is refused once,
met after the account was read anew, and proved to belong to it. -/
def ownMoves : List (Move Intermittent) :=
  [.call (.resolve true (.ofPni (.sample 0))), .call (.resolve false (.ofAci (.sample 0))),
    .reopen (allMergers {}), .call (.resolve false (.ofAci (.sample 0))),
    .call (.resolve false .sampleProof)]

/-- The row that was the account's own is absorbed, and the account's own handle follows it: the
stored handle stays the old one, and the answer is the survivor. -/
theorem ownMoves_follow_own_peer :
    ∃ account s, (Account.load (allMergers {})).Returns Intermittent.sample account s ∧
      account.ownAnswers ownMoves = [⟨1⟩] ∧
      (account.through ownMoves).directory.self = some ⟨1⟩ ∧
      (account.through ownMoves).directory.selfId = some ⟨2⟩ ∧
      (account.through ownMoves).directory.redirects.get? ⟨2⟩ = none := by
  have hempty : Intermittent.sample.contents = ∅ := rfl
  have hvacant : Storage.Vacant Intermittent.sample := ⟨fun _ => ⟨rfl, rfl⟩, fun _ => ⟨rfl, rfl⟩⟩
  have hcache : Directory.disjoint ({} : MessageCache).keyPrefix = true := by decide
  have hspares := allMergers_spare Intermittent.atomic hcache
  have hmoves : ∀ m ∈ ownMoves, ∀ m' ∈ m.mergers, m'.Spares Intermittent.contents := by
    simp only [ownMoves, List.forall_mem_cons]
    exact ⟨nofun, nofun, hspares, nofun, nofun, nofun⟩
  have hfresh := Account.load_vacant hvacant (allMergers {})
  have hrun (account : Account Intermittent) (ha : account = .fresh .sample (allMergers {})) :
      (account.through ownMoves).allotted = 2 ∧ account.ownAnswers ownMoves = [⟨1⟩] ∧
        (account.through ownMoves).directory.self = some ⟨1⟩ ∧
        (account.through ownMoves).directory.follow ⟨1⟩ = ⟨2⟩ := by
    subst ha
    decide +kernel
  generalize hf : Account.fresh Intermittent.sample (allMergers {}) = account at hfresh
  obtain ⟨hn, hanswers, hself, hfollow⟩ := hrun account hf.symm
  obtain ⟨account', s, hload, h⟩ := run_follows_own_peer Intermittent.atomic hempty hspares hmoves
  obtain ⟨rfl, rfl⟩ := hload.unique hfresh
  obtain ⟨hlast, hlive, -⟩ := h (by rw [hn]; decide)
  rw [hanswers, List.getLast?_singleton, Option.map_some, hfollow] at hlast
  exact ⟨account', _, hload, hanswers, hself, hlast, (hlive _ hlast).2⟩

end PeerBook
