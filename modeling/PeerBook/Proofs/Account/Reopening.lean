import PeerBook.Proofs.Account.Runs
import PeerBook.Proofs.Directory.Written
import PeerBook.Proofs.Stores.Mergers

/-!
# PeerBook.Proofs.Account.Reopening

Runs of calls in which the account is also read anew from its storage, on a
storage that may refuse any batch as a whole. The storage has the directory of
the account at every moment (`Account.Kept`), so reading it anew changes nothing
(`Account.reopen_returns`), and a handle that was answered once stands for a
peer ever after. What holds at the end of every run holds at every moment of
one: within a batch a run ends with a shorter batch.

A `Move` is a call or a reading, which may bring in other mergers; they have to
spare the keys of the directory, as all stores do. The step lemma is
`Move.perform_develops` and the run lemma `through_develops`: along a run the
directory is stored, and develops by findings that the replies tell. The main
result is `run_keeps_answers`.
-/

namespace PeerBook

/-- A move of a run: a call, or the account is read anew, with mergers of its own. -/
inductive Move (σ : Type) where
  | call (c : Call σ)
  | reopen (mergers : List (Merger σ))

/-- The mergers that a move brings in. -/
def Move.mergers {σ : Type} : Move σ → List (Merger σ)
  | .call (.register m) => [m]
  | .call _ => []
  | .reopen mergers => mergers

variable {σ : Type} [Storage σ]

namespace Account

/-- Reads the account anew from its storage; what was told goes on. -/
def reopen (mergers : List (Merger σ)) : Op (Account σ) Unit := do
  let account ← onStorage (load mergers)
  Op.update fun old => { account with events := old.events }

end Account

/-- Makes a move, and answers its replies. -/
def Move.perform : Move σ → Op (Account σ) (List Reply)
  | .call c => c.perform
  | .reopen mergers => do
    Account.reopen mergers
    return []

namespace Account

/-- The account after moves in order, those that fail included. -/
def through (account : Account σ) (moves : List (Move σ)) : Account σ :=
  moves.foldl (fun account m => (m.perform.run account).state) account

theorem through_append (account : Account σ) (moves moves' : List (Move σ)) :
    account.through (moves ++ moves') = (account.through moves).through moves' :=
  List.foldl_append

theorem through_concat (account : Account σ) (moves : List (Move σ)) (m : Move σ) :
    account.through (moves ++ [m]) = (m.perform.run (account.through moves)).state :=
  through_append account moves [m]

/-- Reading an account anew tells nothing and takes nothing back. -/
theorem reopen_addsEvents (mergers : List (Merger σ)) :
    (reopen mergers : Op (Account σ) _).Moves AddsEvents :=
  .bind .trans (addsEvents_of_eq fun _ => rfl) fun _ => addsEvents_of_eq fun _ => rfl

end Account

/-- No move takes back what was told. -/
theorem Move.perform_addsEvents (m : Move σ) : m.perform.Moves Account.AddsEvents := by
  cases m with
  | call c => exact c.perform_addsEvents
  | reopen mergers =>
      exact .bind .trans (Account.reopen_addsEvents mergers) fun _ =>
        Account.addsEvents_of_eq fun _ => rfl

/-- Along a run nothing is taken back. -/
theorem Account.through_addsEvents (account : Account σ) (moves : List (Move σ)) :
    account.AddsEvents (account.through moves) := by
  induction moves generalizing account with
  | nil => exact List.prefix_rfl
  | cons m ms ih => exact (m.perform_addsEvents account).trans (ih _)

/-! ## What the storage has -/

variable {contents : σ → Contents}

namespace Account

/-- The storage of an account has its directory, and its mergers spare it. -/
structure Kept (contents : σ → Contents) (account : Account σ) : Prop where
  stored : account.directory.StoredIn (contents account.storage)
  spares : ∀ m ∈ account.mergers, m.Spares contents

omit [Storage σ] in
/-- What follows a commit leaves the directory stored. -/
theorem Follows.kept {account account' : Account σ} {news : List Event}
    (h : account.Follows account' news) (hk : account.Kept contents) : account'.Kept contents where
  stored := by
    rw [h.directory]
    refine h.storage (fun s => account.directory.StoredIn (contents s)) ?_ hk.stored
    intro m hm surviving absorbed s hs
    exact hs.of_eq ((hk.spares m hm surviving absorbed s).1)
  spares := by
    rw [h.mergers]
    exact hk.spares

/-- A commit that fails leaves the directory stored. -/
theorem Kept.of_fails (hs : Storage.Atomic contents) {account : Account σ}
    (h : account.Kept contents) {tx : Transaction} {e : Error} {s : σ}
    (hf : tx.commit.Fails account.storage e s) :
    Kept contents { account with storage := s } where
  stored := by
    show account.directory.StoredIn (contents s)
    rw [Transaction.contents_of_commit_fails hs hf]
    exact h.stored
  spares := h.spares

/-- A trusted resolution leaves the directory stored, whether it succeeds or fails. What the stores
do to follow it spares the keys of the directory. -/
theorem resolveWith_kept (hs : Storage.Atomic contents) {account : Account σ}
    (h : account.Kept contents) (hc : account.Coherent) (hn : account.allotted + 1 < UInt64.size)
    (markSelf : Bool) (request : Address) :
    ((resolveWith markSelf request).run account).state.Kept contents := by
  have hnext := Directory.Coherent.hasNext hc hn
  obtain ⟨e, s, hf, hr⟩ | ⟨d, s, failures, account', hcommit, hr, hfollows⟩ :=
    resolveWith_cases hnext markSelf request
  · rw [hr.2]
    exact h.of_fails hs hf
  · rw [hr.2]
    refine hfollows.kept ⟨?_, h.spares⟩
    refine Transaction.storedIn_of_commit_returns hs ?_ ?_ hcommit
    · rw [Directory.base_draft]
      exact h.stored
    · exact h.stored.resolved hc hn markSelf request

/-- So does a look-up. -/
theorem lookup_kept (hs : Storage.Atomic contents) {account : Account σ}
    (h : account.Kept contents) (hc : account.Coherent) (hn : account.allotted + 1 < UInt64.size)
    (request : Address) : ((lookup request).run account).state.Kept contents := by
  obtain ⟨p, -, hr⟩ | ⟨-, ⟨e, s, hf, hr⟩ | ⟨d, s, account', hcommit, hr, hfollows⟩⟩ :=
    lookup_cases account request
  · rw [hr.2]
    exact h
  · rw [hr.2]
    exact h.of_fails hs hf
  · rw [hr.2]
    refine hfollows.kept ⟨?_, h.spares⟩
    exact Transaction.storedIn_of_commit_returns hs h.stored (h.stored.added hc hn request) hcommit

/-- So does a batch, by induction on its members, up to the one that fails. -/
theorem resolveBatch_kept (hs : Storage.Atomic contents) (requests : List Address)
    {account : Account σ} (h : account.Kept contents) (hc : account.Coherent)
    (hn : ((resolveBatch requests).run account).state.allotted + 1 < UInt64.size) :
    ((resolveBatch requests).run account).state.Kept contents := by
  induction requests generalizing account with
  | nil => exact h
  | cons a as ih =>
      have hle := (resolveBatch_addsEvents (a :: as) account).allotted_le
      have hfirst := resolveWith_kept hs h hc (by omega) false a
      obtain ⟨e, s, hf⟩ | ⟨r, account', f, hr, hdev, -⟩ :=
        resolveWith_develops hc (by omega) false a
      · have hbf : (resolveBatch (a :: as)).Fails account e { account with storage := s } :=
          hf.bind _
        rw [hf.2] at hfirst
        rw [hbf.2]
        exact hfirst
      · rw [hr.2] at hfirst
        rw [resolveBatch_cons_state hr] at hn ⊢
        have hle' := (resolveBatch_addsEvents as account').allotted_le
        exact ih hfirst (hdev.coherent hc (by omega)) hn

/-- From a storage that has a directory the account is read with it. -/
theorem load_returns (hs : Storage.Atomic contents) {d : Directory} {n : Nat} {s : σ}
    (h : d.StoredIn (contents s)) (hc : d.Coherent n) (mergers : List (Merger σ)) :
    ∃ s', (load mergers).Returns s ⟨s', d, mergers, []⟩ s' ∧ contents s' = contents s := by
  obtain ⟨d, s', hd, hsame, rfl⟩ := Directory.load_reads hs.toLegible h hc s rfl
  exact ⟨s', hd.bind ((Op.returns_state _).bind (Op.returns_pure _ _)), hsame⟩

/-- An empty storage is read as a fresh account, whose directory it has. -/
theorem load_fresh (ha : Storage.Atomic contents) {s : σ} (hs : contents s = ∅)
    {mergers : List (Merger σ)} (hmergers : ∀ m ∈ mergers, m.Spares contents) :
    ∃ s', (load mergers).Returns s (.fresh s' mergers) s' ∧
      (Account.fresh s' mergers).Kept contents := by
  have hvacant : Directory.empty.StoredIn (contents s) := by
    rw [hs]
    exact Directory.storedIn_empty
  obtain ⟨s', hload, hsame⟩ := load_returns ha hvacant Directory.coherent_empty mergers
  refine ⟨s', hload, ?_, hmergers⟩
  show Directory.empty.StoredIn (contents s')
  rw [hsame]
  exact hvacant

/-- An account that is read with its directory goes on as it was. -/
theorem reopen_of_load_returns {account : Account σ} {mergers : List (Merger σ)} {s : σ}
    (h : (load mergers).Returns account.storage ⟨s, account.directory, mergers, []⟩ s) :
    (reopen mergers).Returns account () { account with storage := s, mergers := mergers } := by
  have hz : (onStorage (load mergers)).Returns account ⟨s, account.directory, mergers, []⟩
      { account with storage := s } := h.zoom
  exact hz.bind (Op.returns_update _ _)

/-- **Reading an account anew changes nothing** but its mergers. -/
theorem reopen_returns (hs : Storage.Atomic contents) {account : Account σ}
    (h : account.Kept contents) (hc : account.Coherent) (mergers : List (Merger σ)) :
    ∃ s, (reopen mergers).Returns account ()
        { account with storage := s, mergers := mergers } ∧
      contents s = contents account.storage := by
  obtain ⟨s, hl, hsame⟩ := load_returns hs h.stored hc mergers
  exact ⟨s, reopen_of_load_returns hl, hsame⟩

end Account

/-- A call leaves the directory stored. A merger that is registered has to spare its keys, so that
later calls do as well. -/
theorem Call.perform_kept (hs : Storage.Atomic contents) (c : Call σ)
    (hm : ∀ m ∈ (Move.call c).mergers, m.Spares contents) {account : Account σ}
    (h : account.Kept contents) (hc : account.Coherent)
    (hn : (c.perform.run account).state.allotted + 1 < UInt64.size) :
    (c.perform.run account).state.Kept contents := by
  have hle := (c.perform_addsEvents account).allotted_le
  cases c with
  | resolve markSelf request =>
      rw [Call.perform, Op.state_map]
      exact Account.resolveWith_kept hs h hc (by omega) markSelf request
  | resolveBatch requests =>
      rw [Call.perform, Op.state_map] at hn ⊢
      exact Account.resolveBatch_kept hs requests h hc hn
  | lookup request =>
      rw [Call.perform, Op.state_map]
      exact Account.lookup_kept hs h hc (by omega) request
  | register m =>
      refine ⟨h.stored, fun m' hm' => ?_⟩
      rcases List.mem_append.mp hm' with hm' | hm'
      · exact h.spares m' hm'
      · exact hm m' hm'

/-! ## Development along a run -/

/-- A move brings findings, its replies are what is told of them, and the directory stays stored.
Reading anew brings no finding. -/
theorem Move.perform_develops (hs : Storage.Atomic contents) (m : Move σ)
    (hm : ∀ m' ∈ m.mergers, m'.Spares contents) {account : Account σ}
    (h : account.Kept contents) (hc : account.Coherent)
    (hn : (m.perform.run account).state.allotted + 1 < UInt64.size) :
    (m.perform.run account).state.Kept contents ∧
      ∃ fs, account.Develops (m.perform.run account).state fs ∧
        ∀ replies, (m.perform.run account).result = .ok replies →
          replies = fs.map Finding.reply := by
  cases m with
  | call c => exact ⟨c.perform_kept hs hm h hc hn, c.perform_develops hc hn⟩
  | reopen mergers =>
      obtain ⟨s, hr, hsame⟩ := Account.reopen_returns hs h hc mergers
      have hp : (Move.reopen mergers).perform.Returns account []
          { account with storage := s, mergers := mergers } := hr.bind (Op.returns_pure _ _)
      rw [hp.1, hp.2]
      refine ⟨⟨?_, hm⟩, [], .of_eq rfl rfl, fun replies hok => (Except.ok.inj hok).symm⟩
      show account.directory.StoredIn (contents s)
      rw [hsame]
      exact h.stored

namespace Account

/-- **Along a run the directory stays stored and develops by findings**, by induction on the moves,
and the account stays coherent on the way. -/
theorem through_develops (hs : Storage.Atomic contents) (moves : List (Move σ))
    (hm : ∀ m ∈ moves, ∀ m' ∈ m.mergers, m'.Spares contents) {account : Account σ}
    (h : account.Kept contents) (hc : account.Coherent)
    (hn : (account.through moves).allotted + 1 < UInt64.size) :
    (account.through moves).Kept contents ∧ (account.through moves).Coherent ∧
      ∃ fs, account.Develops (account.through moves) fs := by
  induction moves generalizing account with
  | nil => exact ⟨h, hc, [], .of_eq rfl rfl⟩
  | cons m ms ih =>
      have hle := (through_addsEvents (m.perform.run account).state ms).allotted_le
      have hn' : (m.perform.run account).state.allotted + 1 < UInt64.size :=
        Nat.lt_of_le_of_lt (Nat.succ_le_succ hle) hn
      obtain ⟨hk, fs, hdev, -⟩ := m.perform_develops hs (hm m List.mem_cons_self) h hc hn'
      obtain ⟨hks, hcs, gs, hdevs⟩ :=
        ih (fun m' hm' => hm m' (List.mem_cons_of_mem m hm')) hk (hdev.coherent hc hn') hn
      exact ⟨hks, hcs, fs ++ gs, hdev.trans hdevs⟩

/-- After a reply the handles in it stand for peers, and the run goes on from there, with a storage
that has the directory. -/
theorem through_answers (hs : Storage.Atomic contents) {earlier later : List (Move σ)} {m : Move σ}
    (hm : ∀ m' ∈ earlier ++ m :: later, ∀ m'' ∈ m'.mergers, m''.Spares contents)
    {account : Account σ} (h : account.Kept contents) (hc : account.Coherent)
    (hn : (account.through (earlier ++ m :: later)).allotted + 1 < UInt64.size)
    {replies : List Reply} (hok : (m.perform.run (account.through earlier)).result = .ok replies)
    {reply : Reply} (hreply : reply ∈ replies) {i : PeerId}
    (hi : i = reply.peer ∨ i ∈ reply.merged) :
    (account.through (earlier ++ [m])).Coherent ∧
      (account.through (earlier ++ [m])).directory.Knows i ∧
      ∃ fs, (account.through (earlier ++ [m])).Develops
        (account.through (earlier ++ m :: later)) fs := by
  have hsplit : account.through (earlier ++ m :: later) =
      (account.through (earlier ++ [m])).through later := by
    rw [← through_append, List.append_assoc, List.singleton_append]
  have hmem : m ∈ earlier ++ m :: later := List.mem_append_right _ List.mem_cons_self
  have hearlier : ∀ m' ∈ earlier, ∀ m'' ∈ m'.mergers, m''.Spares contents :=
    fun m' hm' => hm m' (List.mem_append_left _ hm')
  have hlater : ∀ m' ∈ later, ∀ m'' ∈ m'.mergers, m''.Spares contents :=
    fun m' hm' => hm m' (List.mem_append_right _ (List.mem_cons_of_mem m hm'))
  rw [hsplit] at hn ⊢
  have hle := (through_addsEvents (account.through (earlier ++ [m])) later).allotted_le
  have hle' := (m.perform_addsEvents (account.through earlier)).allotted_le
  rw [through_concat] at hle hn ⊢
  obtain ⟨hk₁, hc₁, -⟩ := through_develops hs earlier hearlier h hc (by omega)
  obtain ⟨hk₂, fs, hdev, hreplies⟩ := m.perform_develops hs (hm m hmem) hk₁ hc₁ (by omega)
  have hc₂ := hdev.coherent hc₁ (by omega)
  obtain ⟨-, -, gs, hrest⟩ := through_develops hs later hlater hk₂ hc₂ hn
  rw [hreplies replies hok] at hreply
  obtain ⟨f, hf, rfl⟩ := List.mem_map.mp hreply
  have hal := hdev.allotted
  exact ⟨hc₂, hdev.directory.knows hc₁ (by omega) hf hi, gs, hrest⟩

omit [Storage σ] in
/-- No handle that stands for a peer is told to be created again: a new one is above all given
out. -/
theorem Develops.not_created {account account' : Account σ} {fs : List Finding}
    (h : account.Develops account' fs) (hc : account.Coherent)
    (hn : account'.allotted + 1 < UInt64.size) {i : PeerId} (hi : account.directory.Knows i)
    {news : List Event} (he : account'.events = account.events ++ news) : .created i ∉ news := by
  intro hm
  have hnews : news.filter Event.concernsPeers = fs.flatMap Finding.events := by
    have hh := h.history
    simp only [Account.history, he, List.filter_append] at hh
    exact List.append_cancel_left hh
  have hmf : Event.created i ∈ fs.flatMap Finding.events := by
    rw [← hnews]
    exact List.mem_filter.mpr ⟨hm, rfl⟩
  obtain ⟨f, hf, hcf⟩ := List.mem_flatMap.mp hmf
  have hcreated : f.result.created = true ∧ i = f.result.peer := by
    simpa [Finding.events, Reconciliation.mem_events_iff] using hcf
  rw [h.allotted] at hn
  have hlt := h.directory.lt_of_created hc hn hf hcreated.1
  have hle := Directory.Coherent.le_of_knows hc hi
  rw [← hcreated.2] at hlt
  omega

end Account

/-- **Handles that were answered stay good.** From an empty storage that may refuse any batch as a
whole, whatever is asked of the account and whenever it is read anew, as long as handles are left:
at the end of every run no handle has both a row and a redirect, the redirects have no cycle, and
the account is read anew with the directory it has; and every handle that a call of the run
answered is followed to a row that was never absorbed and found there, and was not given out again
since. -/
theorem run_keeps_answers (ha : Storage.Atomic contents) {s : σ} (hs : contents s = ∅)
    {mergers : List (Merger σ)} (hmergers : ∀ m ∈ mergers, m.Spares contents)
    {moves : List (Move σ)} (hmoves : ∀ m ∈ moves, ∀ m' ∈ m.mergers, m'.Spares contents) :
    ∃ account s', (Account.load mergers).Returns s account s' ∧
      ((account.through moves).allotted < UInt64.size - 1 →
        (account.through moves).directory.Orderly ∧
        (∀ ms, ∃ account' s'',
          (Account.load ms).Returns (account.through moves).storage account' s'' ∧
            account'.directory = (account.through moves).directory) ∧
        ∀ earlier m later replies, moves = earlier ++ m :: later →
          (m.perform.run (account.through earlier)).result = .ok replies →
          ∀ reply ∈ replies, ∀ i, i = reply.peer ∨ i ∈ reply.merged →
            (account.through moves).directory.Resolves i ∧
            i.toNat ≤ (account.through moves).directory.lastId.toNat ∧
            ∃ news, (account.through moves).events =
              (account.through (earlier ++ [m])).events ++ news ∧ .created i ∉ news) := by
  obtain ⟨s', hload, hkept⟩ := Account.load_fresh ha hs hmergers
  refine ⟨.fresh s' mergers, s', hload, fun hbound => ?_⟩
  have hn : ((Account.fresh s' mergers).through moves).allotted + 1 < UInt64.size := by omega
  have hfresh := Account.coherent_fresh s' mergers
  obtain ⟨hk, hc, -⟩ := Account.through_develops ha moves hmoves hkept hfresh hn
  refine ⟨Directory.Coherent.orderly hc, fun ms => ?_, ?_⟩
  · obtain ⟨t, hl, -⟩ := Account.load_returns ha hk.stored hc ms
    exact ⟨_, t, hl, rfl⟩
  · rintro earlier m later replies rfl hok reply hreply i hi
    obtain ⟨hc', hknows, fs, hdev⟩ :=
      Account.through_answers ha hmoves hkept hfresh hn hok hreply hi
    have hal := hdev.allotted
    have hknows' := hknows.leads hc' hdev.directory (by omega)
    have hrest := Account.through_addsEvents
      ((Account.fresh s' mergers).through (earlier ++ [m])) later
    rw [← Account.through_append, List.append_assoc, List.singleton_append] at hrest
    obtain ⟨news, hnews⟩ := hrest
    refine ⟨hknows'.resolves, ?_, news, hnews.symm, hdev.not_created hc' hn hknows hnews.symm⟩
    rw [hc.lastId_eq]
    exact hc.le_of_knows hknows'

/-- A storage that will refuse its second batch. -/
def Intermittent.sample : Intermittent := ⟨⟨∅⟩, [false, true]⟩

/-- An account, a look-up that the storage refuses, the account read anew, the look-up once more,
and a proof that the two belong together. -/
def interruptedMoves : List (Move Intermittent) :=
  [.call (.resolve false (.ofAci (.sample 0))), .call (.lookup (.ofPni (.sample 0))),
    .reopen (allMergers {}), .call (.lookup (.ofPni (.sample 0))),
    .call (.resolve false ((Address.ofAci (.sample 0)).withPni (.sample 0)))]

/-- A look-up is refused and asked again, and the handle that it then answers is absorbed: it leads
to the survivor, although the account was read anew in between. -/
theorem interruptedMoves_keep_answers :
    ∃ account s, (Account.load (allMergers {})).Returns Intermittent.sample account s ∧
      (account.through interruptedMoves).directory.Resolves ⟨2⟩ ∧
      (account.through interruptedMoves).directory.follow ⟨2⟩ = ⟨1⟩ := by
  have hempty : Intermittent.sample.contents = ∅ := rfl
  have hvacant : Storage.Vacant Intermittent.sample := ⟨fun _ => ⟨rfl, rfl⟩, fun _ => ⟨rfl, rfl⟩⟩
  have hcache : Directory.disjoint ({} : MessageCache).keyPrefix = true := by decide
  have hspares := allMergers_spare Intermittent.atomic hcache
  have hmoves : ∀ m ∈ interruptedMoves, ∀ m' ∈ m.mergers, m'.Spares Intermittent.contents := by
    simp only [interruptedMoves, List.forall_mem_cons]
    exact ⟨nofun, nofun, hspares, nofun, nofun, nofun⟩
  have hfresh := Account.load_vacant hvacant (allMergers {})
  -- the run itself: the look-up that was refused is answered after the account was read anew
  have hrun (account : Account Intermittent) (ha : account = .fresh .sample (allMergers {})) :
      (account.through interruptedMoves).allotted = 2 ∧
        (account.through interruptedMoves).directory.follow ⟨2⟩ = ⟨1⟩ ∧
        ((Move.call (.lookup (.ofPni (.sample 0)))).perform.run
          (account.through (interruptedMoves.take 3))).result.toOption.map (List.map Reply.peer) =
          some [⟨2⟩] := by
    subst ha
    decide +kernel
  generalize hf : Account.fresh Intermittent.sample (allMergers {}) = account at hfresh
  obtain ⟨hn, hfollow, hanswer⟩ := hrun account hf.symm
  obtain ⟨account', s, hload, h⟩ := run_keeps_answers Intermittent.atomic hempty hspares hmoves
  obtain ⟨rfl, rfl⟩ := hload.unique hfresh
  obtain ⟨-, -, hanswers⟩ := h (by rw [hn]; decide)
  refine ⟨account', _, hload, ?_, hfollow⟩
  cases hok : ((Move.call (.lookup (.ofPni (.sample 0)))).perform.run
      (account'.through (interruptedMoves.take 3))).result with
  | error e =>
      rw [hok] at hanswer
      exact absurd hanswer nofun
  | ok replies =>
      rw [hok] at hanswer
      have hmap : replies.map Reply.peer = [⟨2⟩] := Option.some.inj hanswer
      obtain ⟨reply, rfl, hreply⟩ := List.map_eq_singleton_iff.mp hmap
      exact (hanswers _ _ _ _ rfl hok reply List.mem_cons_self _ (.inl hreply.symm)).1

end PeerBook
