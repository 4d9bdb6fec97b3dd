import PeerBook.Proofs.Account.Reopening
import PeerBook.Proofs.Stores.Following
import PeerBook.Proofs.Stores.ReadBack

/-!
# PeerBook.Proofs.Account.Residue

An account with its six stores in use, on a storage that never fails. Peers are
resolved and merged, and the stores are asked for whatever they offer, through
handles that may have been absorbed long ago.

* **A deed for an absorbed handle** is done for the peer that the handle stands
  for: the stores follow the redirects of the directory. So what is written
  through a handle is read through every handle of its peer.

* **A merge that a store is asked to follow by itself** takes its two handles as
  they are. Where the survivor named was absorbed before, what the store moves
  to it is left there (`merge_into_absorbed_leaves_residue`): the handle is
  `Astray` in that store.

* **Everything else keeps the stores tidy.** At every moment all that a store
  has is of peers with a row, or of handles astray in it, and no store has ever
  failed to follow a merge of a resolution (`Account.Tidy`). Each use keeps this
  (`Tidy.perform`), and so does a run (`Tidy.used`).

The main result is `run_leaves_no_residue`.
-/

namespace PeerBook

variable {σ : Type} [Storage σ]

/-- A use of an account: a call, a deed of a store for a handle, or a merge that a store is asked to
follow by itself. -/
inductive Use (σ : Type) where
  | call (c : Call σ)
  | visit (st : Store) (deed : Deed st) (i : PeerId)
  | merge (st : Store) (surviving absorbed : PeerId)

/-- Makes a use of an account. The stores follow the redirects of the directory. -/
def Use.perform : Use σ → Op (Account σ) Unit
  | .call c => do
    let _ ← c.perform
  | .visit _ deed i => do
    let account ← Op.state
    Account.onStorage (deed.perform account.directory.redirects i)
  | .merge st surviving absorbed => Account.onStorage (st.merge surviving absorbed)

/-- What can be asked of an account: its own stores and no other, and deeds for a handle that was
given out, however long ago. Which handles a store is asked to merge is free. -/
def Use.Proper (account : Account σ) : Use σ → Prop
  | .call c => ∀ m, c ≠ .register m
  | .visit st _ i => st ∈ Store.all {} ∧ .created i ∈ account.events
  | .merge st _ _ => st ∈ Store.all {}

/-- A use leads a store astray to a handle: it has the store follow a merge into the handle, which
has no row by then. -/
def Use.LeadsAstray (account : Account σ) (u : Use σ) (st : Store) (p : PeerId) : Prop :=
  account.directory.rows.get? p = none ∧ ∃ absorbed, u = .merge st p absorbed

/-- No use takes back what was told. -/
theorem Use.perform_addsEvents (u : Use σ) : u.perform.Moves Account.AddsEvents := by
  cases u with
  | call c => exact .bind .trans c.perform_addsEvents fun _ => Account.addsEvents_of_eq fun _ => rfl
  | visit st deed i =>
      exact .bind .trans (Account.addsEvents_of_eq fun _ => rfl) fun _ =>
        Account.addsEvents_of_eq fun _ => rfl
  | merge st surviving absorbed => exact Account.addsEvents_of_eq fun _ => rfl

namespace Account

/-- The account after uses in order. -/
def used (account : Account σ) (uses : List (Use σ)) : Account σ :=
  uses.foldl (fun account u => (u.perform.run account).state) account

/-- Each use in order is one that can be made of the account by then. -/
def Admits (account : Account σ) : List (Use σ) → Prop
  | [] => True
  | u :: us => u.Proper account ∧ Admits (u.perform.run account).state us

/-- The handles that a store was led astray to by some of the uses in order. -/
def Astray (account : Account σ) : List (Use σ) → Store → PeerId → Prop
  | [], _, _ => False
  | u :: us, st, p => u.LeadsAstray account st p ∨ Astray (u.perform.run account).state us st p

/-- Along a run nothing is taken back. -/
theorem used_addsEvents (account : Account σ) (uses : List (Use σ)) :
    account.AddsEvents (account.used uses) := by
  induction uses generalizing account with
  | nil => exact List.prefix_rfl
  | cons u us ih => exact (u.perform_addsEvents account).trans (ih _)

/-- The stores of an account can be asked to merge any two handles, one store after another. -/
theorem admits_merges {stores : List Store} (hsts : ∀ st ∈ stores, st ∈ Store.all {})
    (surviving absorbed : PeerId) (account : Account σ) :
    account.Admits (stores.map (.merge · surviving absorbed)) := by
  induction stores generalizing account with
  | nil => trivial
  | cons st sts ih =>
      rw [List.forall_mem_cons] at hsts
      exact ⟨hsts.1, ih hsts.2 _⟩

/-! ## The stores follow the merges of a resolution -/

section

variable {contents : σ → Contents} {surviving : PeerId} {live : Store → PeerId → Prop}

/-- After a cascade none of the stores has anything of the absorbed peer. -/
theorem cascade_clears (hs : Storage.Faithful contents) {account : Account σ} {absorbed : PeerId}
    (hm : account.mergers = allMergers {}) (hne : surviving ≠ absorbed)
    (hlive : ∀ st, live st surviving)
    (h : Store.AllWritten live (contents account.storage)) :
    ∃ s, (cascade surviving absorbed).Returns account []
        (account.publish s account.directory [.merged surviving absorbed]) ∧
      Store.AllWritten (fun st p => live st p ∧ p ≠ absorbed) (contents s) := by
  obtain ⟨failures, s, hr, rfl, hclear⟩ :=
    mergeAll_brings hs hne (fun _ => id) hlive h account.storage rfl
  rw [Store.map_merger_all, ← hm] at hr
  have hz : (onStorage (mergeAll account.mergers surviving absorbed)).Returns account []
      { account with storage := s } := hr.zoom
  refine ⟨s, (Op.returns_note _ _ _).bind ((Op.returns_state _).bind (hz.bind
    ((Op.returns_update _ _).bind (Op.returns_pure _ _)))), fun st hst => ?_⟩
  exact (hclear st hst).mono fun _ _ p _ _ hp => ⟨hp.1, hp.2 hst⟩

/-- Nor anything of one of several absorbed peers after the cascades of all of them: each cascade
clears its own peer, and puts records of the survivor only. -/
theorem cascadeAll_clears (hs : Storage.Faithful contents) {account : Account σ}
    (hm : account.mergers = allMergers {}) {absorbed : List PeerId} (hne : surviving ∉ absorbed)
    (hlive : ∀ st, live st surviving)
    (h : Store.AllWritten live (contents account.storage)) :
    ∃ s, (cascadeAll surviving absorbed).Returns account []
        (account.publish s account.directory (absorbed.map (.merged surviving))) ∧
      Store.AllWritten (fun st p => live st p ∧ p ∉ absorbed) (contents s) := by
  induction absorbed generalizing account live with
  | nil =>
      refine ⟨account.storage, ?_, h.mono fun _ p hp => ⟨hp, List.not_mem_nil⟩⟩
      rw [publish, List.map_nil, List.append_nil]
      exact Op.returns_pure _ _
  | cons a as ih =>
      rw [List.mem_cons, not_or] at hne
      obtain ⟨s, hr, h₁⟩ := cascade_clears hs hm hne.1 hlive h
      have hms : (account.publish s account.directory [.merged surviving a]).mergers =
          allMergers {} := hm
      obtain ⟨s', hrs, h'⟩ := ih hms hne.2 (fun st => ⟨hlive st, hne.1⟩) h₁
      refine ⟨s', ?_, h'.mono fun _ p ⟨⟨hp, ha⟩, has⟩ => ⟨hp, ?_⟩⟩
      · have hboth : (cascadeAll surviving (a :: as)).Returns account [] _ :=
          hr.bind (hrs.bind (Op.returns_pure _ _))
        rw [publish, publish, List.append_assoc] at hboth
        exact hboth
      · simp [ha, has]

end

/-! ## An account without residue -/

/-- All that a store of an account has is of peers with a row, or of handles astray in it; the
handles that were given out stand for peers, and no store has ever failed to follow a merge. -/
structure Tidy (contents : σ → Contents) (astray : Store → PeerId → Prop) (account : Account σ) :
    Prop where
  coherent : account.Coherent
  mergers : account.mergers = allMergers {}
  written : Store.AllWritten
    (fun st p => account.directory.rows.get? p ≠ none ∨ astray st p) (contents account.storage)
  knows : ∀ p, .created p ∈ account.events → account.directory.Knows p
  succeeds : ∀ f, .cascadeFailed f ∉ account.events

variable {contents : σ → Contents} {astray astray' : Store → PeerId → Prop} {account : Account σ}

/-- The content of the storage is all that matters of it. -/
theorem Tidy.of_contents (h : account.Tidy contents astray) {s : σ}
    (hs : contents s = contents account.storage) :
    Tidy contents astray { account with storage := s } := by
  refine ⟨h.coherent, h.mergers, ?_, h.knows, h.succeeds⟩
  rw [hs]
  exact h.written

theorem Tidy.mono (h : account.Tidy contents astray) (ha : ∀ st p, astray st p → astray' st p) :
    account.Tidy contents astray' :=
  ⟨h.coherent, h.mergers, h.written.mono fun st p hp => hp.imp_right (ha st p), h.knows,
    h.succeeds⟩

/-- A commit writes what belongs to the directory, so what the stores have is not touched by it. -/
theorem contents_of_commit (hs : Storage.Faithful contents) {tx : Transaction} {s s' : σ}
    {d : Directory} (h : tx.commit.Returns s d s') :
    ∃ ws, (∀ w ∈ ws, Directory.Owns w.key) ∧ contents s' = (contents s).applyAll ws := by
  obtain ⟨-, -, rfl⟩ | ⟨-, hw⟩ := Transaction.commit_returns h
  · exact ⟨[], nofun, rfl⟩
  · obtain ⟨t, hr, -, ht⟩ := hs.writeBatch tx.writes s trivial
    refine ⟨tx.writes, fun w hw => ?_, ?_⟩
    · obtain ⟨i, change, -, rfl⟩ | ⟨m, -, rfl⟩ | ⟨-, rfl⟩ | ⟨i, -, rfl⟩ :=
        Transaction.mem_writes.mp hw
      · rw [Transaction.key_changeWrite]
        exact Directory.owns_key _
      · exact Directory.owns_key (.merged m.1)
      · exact Directory.owns_key .lastId
      · exact Directory.owns_key .self
    · rw [(hw.unique hr).2, ht]

/-- A peer with a row has one still after a resolution, or was absorbed. -/
theorem row_resolved_or_merged {d : Directory} (hd : d.HasNext) (markSelf : Bool)
    {request : Address} {p : PeerId} (hp : d.rows.get? p ≠ none) :
    (d.resolved markSelf request).rows.get? p ≠ none ∨ p ∈ (d.outcome request).merged := by
  by_cases hrow : (d.resolved markSelf request).rows.get? p = none
  · refine .inr ((Directory.mem_merged_outcome_iff hd markSelf).mpr ⟨?_, hp, hrow⟩)
    rintro rfl
    exact Directory.row_resolved_peer_ne_none hd markSelf request hrow
  · exact .inl hrow

/-- After the commit of a resolution, and before its cascade, all that a store has is of peers with
a row and of those that have just lost theirs. -/
theorem Tidy.written_committed (hs : Storage.Faithful contents) (h : account.Tidy contents astray)
    (hd : account.directory.HasNext) {markSelf : Bool} {request : Address} {d : Directory} {s : σ}
    (hcommit : (account.directory.draft markSelf request).commit.Returns account.storage d s) :
    Store.AllWritten (fun st p =>
      ((account.directory.resolved markSelf request).rows.get? p ≠ none ∨
        p ∈ (account.directory.outcome request).merged) ∨ astray st p) (contents s) := by
  obtain ⟨ws, hws, hc⟩ := contents_of_commit hs hcommit
  rw [hc]
  exact (h.written.of_owns hws).mono fun _ p hp =>
    hp.imp_left (row_resolved_or_merged hd markSelf)

/-- A resolution leaves an account tidy: the peers that it absorbs lose their rows, and its cascade
clears the stores of just these. -/
theorem resolveWith_tidy (hs : Storage.Faithful contents) (h : account.Tidy contents astray)
    (markSelf : Bool) (request : Address)
    (hn : ((resolveWith markSelf request).run account).state.allotted + 1 < UInt64.size) :
    ((resolveWith markSelf request).run account).state.Tidy contents astray := by
  have hle := (resolveWith_addsEvents markSelf request account).allotted_le
  have hn₀ : account.allotted + 1 < UInt64.size := by omega
  have hnext := Directory.Coherent.hasNext h.coherent hn₀
  obtain ⟨e, s, hf, hr⟩ | ⟨d, s, hcommit, hgo⟩ := resolveWith_commits hnext markSelf request
  · rw [hr.2]
    exact h.of_contents (Transaction.contents_of_commit_fails hs.atomic hf)
  obtain rfl := (commit_draft_returns hnext hcommit).1
  have hpeer := Directory.row_resolved_peer_ne_none hnext markSelf request
  have hmergers : (account.publish s (account.directory.resolved markSelf request)
      (account.directory.outcome request).events).mergers = allMergers {} := h.mergers
  obtain ⟨s', hcas, hclear⟩ := cascadeAll_clears hs hmergers
    (Directory.not_mem_merged_peer hnext request) (fun _ => .inl (.inl hpeer))
    (h.written_committed hs hnext hcommit)
  have hr := hgo _ _ hcas
  obtain ⟨e, t, hf⟩ | ⟨r, account', f, hr', hdev, -⟩ :=
    resolveWith_develops h.coherent hn₀ markSelf request
  · exact absurd hr.1 (hf.not_ok _)
  obtain ⟨-, rfl⟩ := hr.unique hr'
  rw [hr.2] at hn ⊢
  have hc' := hdev.coherent h.coherent hn
  refine ⟨hc', h.mergers, hclear.mono fun _ p ⟨hp, hm⟩ => hp.imp_left (·.resolve_right hm),
    fun p hp => ?_, fun f hf => ?_⟩
  · obtain hp | ⟨-, rfl⟩ : .created p ∈ account.events ∨ _ ∧
        p = (account.directory.outcome request).peer := by
      simpa [publish, Reconciliation.mem_events_iff] using hp
    · exact (h.knows p hp).resolved h.coherent hn₀ markSelf request
    · exact Directory.Coherent.knows_of_row hc' hpeer
  · refine h.succeeds f ?_
    simpa [publish, Reconciliation.mem_events_iff] using hf

/-- A look-up takes no row away and asks no store for anything, so whoever had a row and something
in a store has both still. -/
theorem lookup_tidy (hs : Storage.Faithful contents) (h : account.Tidy contents astray)
    (request : Address) (hn : ((lookup request).run account).state.allotted + 1 < UInt64.size) :
    ((lookup request).run account).state.Tidy contents astray := by
  have hle := (lookup_addsEvents request account).allotted_le
  obtain ⟨p, -, hr⟩ | ⟨hnone, ⟨e, s, hf, hr⟩ | ⟨d, s, hcommit, hr⟩⟩ :=
    lookup_commits account request
  · rw [hr.2]
    exact h
  · rw [hr.2]
    exact h.of_contents (Transaction.contents_of_commit_fails hs.atomic hf)
  obtain rfl := (commit_addition_returns hcommit).1
  obtain ⟨e, t, hf⟩ | ⟨p, account', f, hr', hdev, -⟩ := lookup_develops account request
  · exact absurd hr.1 (hf.not_ok _)
  obtain ⟨-, rfl⟩ := hr.unique hr'
  rw [hr.2] at hn ⊢
  have hc' := hdev.coherent h.coherent hn
  refine ⟨hc', h.mergers, ?_, fun p hp => ?_, fun f hf => ?_⟩
  · obtain ⟨ws, hws, hc⟩ := contents_of_commit hs hcommit
    show Store.AllWritten _ (contents s)
    rw [hc]
    exact (h.written.of_owns hws).mono fun _ p hp =>
      hp.imp_left (Directory.row_added_of_row · request)
  · rcases List.mem_append.mp hp with hp | hp
    · exact (h.knows p hp).added request
    · obtain ⟨⟩ := List.mem_singleton.mp hp
      refine Directory.Coherent.knows_of_row hc' ?_
      show (account.directory.added request).rows.get? _ ≠ none
      rw [Directory.get?_rows_added, if_pos rfl]
      exact nofun
  · rcases List.mem_append.mp hf with hf | hf
    · exact h.succeeds f hf
    · simp at hf

/-- A batch is one resolution after another, also where one of them fails: the members before it
were followed by the stores, and leave the account tidy. -/
theorem resolveBatch_tidy (hs : Storage.Faithful contents) (requests : List Address)
    (h : account.Tidy contents astray)
    (hn : ((resolveBatch requests).run account).state.allotted + 1 < UInt64.size) :
    ((resolveBatch requests).run account).state.Tidy contents astray := by
  induction requests generalizing account with
  | nil => exact h
  | cons a as ih =>
      have hfirst := resolveWith_tidy hs h false a
      obtain ⟨r, account', hr⟩ | ⟨e, account', hf⟩ := Op.returns_or_fails (resolve a) account
      · rw [resolveBatch_cons_state hr] at hn ⊢
        have hle := (resolveBatch_addsEvents as account').allotted_le
        rw [show resolveWith false a = resolve a from rfl, hr.2] at hfirst
        exact ih (hfirst (by omega)) hn
      · have hbf : (resolveBatch (a :: as)).Fails account e account' := hf.bind _
        rw [hbf.2] at hn ⊢
        rw [show resolveWith false a = resolve a from rfl, hf.2] at hfirst
        exact hfirst hn

end Account

/-- A call leaves an account tidy, unless it brings in another store, of which nothing would be
known. -/
theorem Call.perform_tidy {contents : σ → Contents} {astray : Store → PeerId → Prop}
    {account : Account σ} (hs : Storage.Faithful contents) (h : account.Tidy contents astray)
    (c : Call σ) (hc : ∀ m, c ≠ .register m)
    (hn : (c.perform.run account).state.allotted + 1 < UInt64.size) :
    (c.perform.run account).state.Tidy contents astray := by
  cases c with
  | resolve markSelf request =>
      rw [Call.perform, Op.state_map] at hn ⊢
      exact Account.resolveWith_tidy hs h markSelf request hn
  | resolveBatch requests =>
      rw [Call.perform, Op.state_map] at hn ⊢
      exact Account.resolveBatch_tidy hs requests h hn
  | lookup request =>
      rw [Call.perform, Op.state_map] at hn ⊢
      exact Account.lookup_tidy hs h request hn
  | register m => exact absurd rfl (hc m)

namespace Account

variable {contents : σ → Contents} {astray : Store → PeerId → Prop} {account : Account σ}

/-- What a store changes under a handle leaves an account tidy, if the handle is a peer or is astray
in the store. -/
theorem Tidy.of_edits {st : Store} (h : account.Tidy contents astray) (hst : st ∈ Store.all {})
    {peer : PeerId} (hlive : account.directory.rows.get? peer ≠ none ∨ astray st peer)
    {op : Op σ Unit}
    (hop : op.Edits contents (contents account.storage) (st.Admits (· = peer))) :
    ((onStorage op).run account).state.Tidy contents astray := by
  obtain ⟨ws, hws, hc⟩ := hop account.storage rfl
  refine ⟨h.coherent, h.mergers, ?_, h.knows, h.succeeds⟩
  show Store.AllWritten _ (contents (op.run account.storage).state)
  rw [hc]
  exact h.written.applyAll hst fun w hw => (hws w hw).mono fun p hp => hp ▸ hlive

/-- A handle that was given out stands for a peer with a row. -/
theorem Tidy.row_follow (h : account.Tidy contents astray) {i : PeerId}
    (hi : .created i ∈ account.events) :
    account.directory.rows.get? (account.directory.follow i) ≠ none := by
  obtain ⟨a, ha, -⟩ := (h.knows i hi).resolves
  rw [ha]
  exact nofun

/-- **Each use leaves an account tidy**, but for the handle that it may lead a store astray to. All
that a store puts is of the peer of its deed, or of the survivor that its merge names. -/
theorem Tidy.perform (hs : Storage.Faithful contents) (h : account.Tidy contents astray)
    {u : Use σ} (hu : u.Proper account)
    (hn : (u.perform.run account).state.allotted + 1 < UInt64.size) :
    (u.perform.run account).state.Tidy contents
      fun st p => astray st p ∨ u.LeadsAstray account st p := by
  cases u with
  | call c =>
      rw [Use.perform, Op.state_map] at hn ⊢
      exact (c.perform_tidy hs h hu hn).mono fun _ _ => .inl
  | visit st deed i =>
      obtain ⟨hst, hi⟩ := hu
      have hw := (h.written st hst).mono fun _ _ p _ _ _ => trivial
      exact (h.of_edits hst (.inl (h.row_follow hi))
        (deed.perform_edits hs.ordered account.directory.redirects i hw)).mono fun _ _ => .inl
  | merge st surviving absorbed =>
      have hedits : (st.merge surviving absorbed : Op σ Unit).Edits contents
          (contents account.storage) (st.Admits (· = surviving)) := by
        refine .of_submits hs.orderly (Store.merge_submits hs.legible st surviving absorbed) ?_
        rintro ws ⟨keys, hk, hb⟩
        exact (h.written st hu).batch_admits hk hb.symm
      refine Tidy.of_edits (h.mono fun _ _ => .inl) hu ?_ hedits
      -- all that the store puts is of the survivor, who is a peer or is astray from now on
      by_cases hrow : account.directory.rows.get? surviving = none
      · exact .inr (.inr ⟨hrow, absorbed, rfl⟩)
      · exact .inl hrow

/-- **A run leaves an account tidy**, but for the handles that its merges led stores astray to. -/
theorem Tidy.used (hs : Storage.Faithful contents) {uses : List (Use σ)}
    (h : account.Tidy contents astray) (hu : account.Admits uses)
    (hn : (account.used uses).allotted + 1 < UInt64.size) :
    (account.used uses).Tidy contents fun st p => astray st p ∨ account.Astray uses st p := by
  induction uses generalizing account astray with
  | nil => exact h.mono fun _ _ => .inl
  | cons u us ih =>
      have hle := (used_addsEvents (u.perform.run account).state us).allotted_le
      have hu₁ := h.perform hs hu.1 (Nat.lt_of_le_of_lt (Nat.succ_le_succ hle) hn)
      exact (ih hu₁ hu.2 hn).mono fun _ _ => or_assoc.mp

/-- An account on an empty storage is tidy, and nothing is astray. -/
theorem tidy_fresh {s : σ} (hs : contents s = ∅) :
    (fresh s (allMergers {})).Tidy contents fun _ _ => False where
  coherent := coherent_fresh s _
  mergers := rfl
  written st _ := by
    show st.Written _ (contents s)
    rw [hs]
    exact st.written_empty _
  knows p hp := absurd hp List.not_mem_nil
  succeeds f hf := absurd hf List.not_mem_nil

end Account

/-- **Nothing is left behind under an absorbed handle.** From an empty storage that never fails, the
six stores of an account follow its merges and its redirects. Whatever is asked of it and of them,
for handles that were given out at any time, and as long as handles are left: at every moment each
key of a store is held by a peer with a row, or by a handle that a merge asked of the store itself
named as survivor when it had no row; no store has failed to follow a merge of a resolution, nor
will one fail to follow a merge of any two handles that it is asked to; and a deed that is done for
a handle comes to its end and is read back through the peer that the handle stands for, and through
every other handle of that peer. -/
theorem run_leaves_no_residue {contents : σ → Contents} (hs : Storage.Faithful contents) {s : σ}
    (hempty : contents s = ∅) (uses : List (Use σ)) :
    ∃ account s', (Account.load (allMergers {})).Returns s account s' ∧
      (account.Admits uses → (account.used uses).allotted < UInt64.size - 1 →
        (∀ st ∈ Store.all {}, ∀ key, st.Keeps key →
          (contents (account.used uses).storage).get? key ≠ none →
            ∃ peer, st.Holds peer key ∧
              ((account.used uses).directory.rows.get? peer ≠ none ∨
                account.Astray uses st peer)) ∧
        (∀ f, .cascadeFailed f ∉ (account.used uses).events) ∧
        (∀ st ∈ Store.all {}, ∀ surviving absorbed, ∃ account',
          (Use.merge st surviving absorbed).perform.Returns (account.used uses) () account') ∧
        ∀ st ∈ Store.all {}, ∀ (deed : Deed st) (i : PeerId),
          .created i ∈ (account.used uses).events →
            ∃ peer account', peer = (account.used uses).directory.follow i ∧
              (account.used uses).directory.rows.get? peer ≠ none ∧
              (Use.visit st deed i).perform.Returns (account.used uses) () account' ∧
              ∀ j, j = peer ∨ (account.used uses).directory.follow j = peer →
                deed.ReadBack (account.used uses).directory.redirects j
                  (account.used uses).storage account'.storage) := by
  have hvacant : Directory.empty.StoredIn (contents s) := by
    rw [hempty]
    exact Directory.storedIn_empty
  obtain ⟨s', hload, hsame⟩ :=
    Account.load_returns hs.atomic hvacant Directory.coherent_empty (allMergers {})
  refine ⟨.fresh s' (allMergers {}), s', hload, fun hadmits hn => ?_⟩
  have htidy := (Account.tidy_fresh (hsame.trans hempty)).used hs hadmits (by omega)
  refine ⟨fun st hst key hk hv => ?_, htidy.succeeds, fun st hst surviving absorbed => ?_,
    fun st hst deed i hi => ?_⟩
  · obtain ⟨value, hv⟩ := Option.ne_none_iff_exists'.mp hv
    obtain ⟨peer, r, hlive, rfl, -⟩ := htidy.written st hst key value hk hv
    exact ⟨peer, r.holds peer, hlive.imp_right (·.resolve_left id)⟩
  · obtain ⟨⟨⟩, t, hr, -⟩ := (htidy.written st hst).merge_brings hs surviving absorbed _ rfl
    exact ⟨_, hr.zoom⟩
  · have hw := (htidy.written st hst).mono fun _ _ p _ _ _ => trivial
    obtain ⟨t, hr, hread⟩ := deed.perform_readBack hs _ i hw
    refine ⟨_, _, rfl, htidy.row_follow hi, (Op.returns_state _).bind hr.zoom, fun j hj => ?_⟩
    refine hread j ?_
    rcases hj with rfl | hj
    · exact Redirects.follow_of_get?_eq_none
        (Directory.Coherent.no_redirect htidy.coherent (htidy.row_follow hi))
    · exact hj

/-- A session that came for a phone-number identity before it was merged into an account. -/
def lateUses : List (Use Memory) :=
  [.call (.resolve false (.ofAci (.sample 0))), .call (.lookup (.ofPni (.sample 0))),
    .visit .sessions (.storeSession 1 [1]) ⟨2⟩, .call (.resolve false .sampleProof)]

/-- A session that is stored for the absorbed handle is loaded for the account: it was stored under
the survivor, and nothing is under the absorbed handle. -/
theorem lateUses_leave_no_residue :
    ∃ account s', (Account.load (allMergers {})).Returns (⟨∅⟩ : Memory) account s' ∧
      (account.used lateUses).allotted = 2 ∧
      (account.used lateUses).storage.contents.get? "v1/session/2/1" = none ∧
      ∃ account', (Use.visit .sessions (.storeSession 1 [7]) ⟨2⟩).perform.Returns
          (account.used lateUses) () account' ∧
        ((Sessions.load (account.used lateUses).directory.redirects ⟨1⟩ 1).run
          account'.storage).result = .ok (some ⟨[7], true⟩) := by
  obtain ⟨account, s', hload, h⟩ := run_leaves_no_residue Memory.faithful (s := ⟨∅⟩) rfl lateUses
  obtain ⟨rfl, -⟩ := hload.unique (Account.load_vacant Memory.vacant _)
  -- the run is computed once
  obtain ⟨hn, hfollow, hcreated, hmoved⟩ :
      ((Account.fresh (⟨∅⟩ : Memory) (allMergers {})).used lateUses).allotted = 2 ∧
        ((Account.fresh (⟨∅⟩ : Memory) (allMergers {})).used lateUses).directory.follow ⟨2⟩ = ⟨1⟩ ∧
        .created ⟨2⟩ ∈ ((Account.fresh (⟨∅⟩ : Memory) (allMergers {})).used lateUses).events ∧
        ((Account.fresh (⟨∅⟩ : Memory) (allMergers {})).used lateUses).storage.contents.get?
          "v1/session/2/1" = none := by
    decide +kernel
  have hadmits : (Account.fresh (⟨∅⟩ : Memory) (allMergers {})).Admits lateUses := by
    refine ⟨nofun, nofun, ⟨by decide, ?_⟩, nofun, trivial⟩
    decide +kernel
  obtain ⟨-, -, -, hdeeds⟩ := h hadmits (by rw [hn]; decide)
  obtain ⟨peer, account', hpeer, -, hr, hread⟩ := hdeeds .sessions (by decide)
    (.storeSession 1 [7]) ⟨2⟩ hcreated
  rw [hfollow] at hpeer
  exact ⟨_, s', hload, hn, hmoved, account', hr, hread ⟨1⟩ (.inl hpeer.symm)⟩

/-- A session is stored for a peer, and then all stores are asked to merge the peer back into the
handle that it has absorbed. -/
def backwardUses : List (Use Memory) :=
  [.call (.resolve false (.ofAci (.sample 0))), .call (.lookup (.ofPni (.sample 0))),
    .call (.resolve false .sampleProof), .visit .sessions (.storeSession 1 [7]) ⟨1⟩] ++
  (Store.all {}).map (.merge · ⟨2⟩ ⟨1⟩)

/-- A merge into an absorbed handle leaves a session there. Both handles were given out, all is done
by the stores of the account on a storage that never fails, and still no peer that holds the key has
a row: the handle stands for the first peer, and the merge did not ask for whom it stands. -/
theorem merge_into_absorbed_leaves_residue :
    ∃ account s', (Account.load (allMergers {})).Returns (⟨∅⟩ : Memory) account s' ∧
      account.Admits backwardUses ∧ (account.used backwardUses).allotted = 2 ∧
      (∀ i ∈ [⟨1⟩, ⟨2⟩], .created i ∈ (account.used (backwardUses.take 3)).events) ∧
      (account.used backwardUses).directory.follow ⟨2⟩ = ⟨1⟩ ∧
      ∃ key, Store.sessions.Keeps key ∧
        (account.used backwardUses).storage.contents.get? key ≠ none ∧
        ∀ peer, Store.sessions.Holds peer key →
          (account.used backwardUses).directory.rows.get? peer = none := by
  refine ⟨.fresh ⟨∅⟩ (allMergers {}), ⟨∅⟩, Account.load_vacant Memory.vacant _, ?_, ?_⟩
  · refine ⟨nofun, nofun, nofun, ⟨by decide, ?_⟩, Account.admits_merges (fun _ => id) ⟨2⟩ ⟨1⟩ _⟩
    decide +kernel
  -- the run is computed once
  obtain ⟨hn, hcreated, hfollow, hkey, hrow⟩ :
      ((Account.fresh (⟨∅⟩ : Memory) (allMergers {})).used backwardUses).allotted = 2 ∧
        (∀ i ∈ [⟨1⟩, ⟨2⟩], .created i ∈
          ((Account.fresh (⟨∅⟩ : Memory) (allMergers {})).used (backwardUses.take 3)).events) ∧
        ((Account.fresh (⟨∅⟩ : Memory) (allMergers {})).used backwardUses).directory.follow ⟨2⟩ =
          ⟨1⟩ ∧
        ((Account.fresh (⟨∅⟩ : Memory) (allMergers {})).used backwardUses).storage.contents.get?
          "v1/session/2/1" ≠ none ∧
        ((Account.fresh (⟨∅⟩ : Memory) (allMergers {})).used backwardUses).directory.rows.get? ⟨2⟩ =
          none := by
    decide +kernel
  have hholds : Store.sessions.Holds ⟨2⟩ "v1/session/2/1" := by
    show Text.hasPrefix _ _ = true
    decide +kernel
  refine ⟨hn, hcreated, hfollow, _, hholds.keeps, hkey, fun peer hp => ?_⟩
  rw [hp.unique hholds]
  exact hrow

end PeerBook
