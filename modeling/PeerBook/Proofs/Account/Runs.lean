import PeerBook.Proofs.Account.Replies
import PeerBook.Proofs.Samples
import PeerBook.Storage.Memory

/-!
# PeerBook.Proofs.Account.Runs

Runs of calls. Events are only ever added (`after_addsEvents`), so the number of
handles given out never falls; and along a run that starts on a coherent
directory the directory develops request by request, with the replies and the
history of the account telling how (`after_develops_replies`,
`start_develops_replies`).

- The moments of a run are the accounts after its starts (`Call.Start`): a start
  is some first calls, the last of which may be a batch cut short. So a statement
  about all starts is about every moment, also within a batch.
- `Develops` relates an account to a later one by findings: the directory leads
  from the one to the other by them, and they are what was told in between. Each
  kind of request is shown to develop the account once; runs follow by induction.
- How many handles were given out is read off the events (`Account.allotted`),
  and it is this number that has to stay below the greatest one.

An account on an empty storage is `Account.fresh`, and coherent from the start
(`coherent_fresh`).
-/

namespace PeerBook

/-- Whether an event is about a new peer. -/
def Event.isCreated : Event → Bool
  | .created _ => true
  | _ => false

/-- A call cut short: of a batch the first requests only. -/
def Call.upTo {σ : Type} (n : Nat) : Call σ → Call σ
  | .resolveBatch requests => .resolveBatch (requests.take n)
  | c => c

/-- A run starts with some calls, the last of which may be cut short. What an account is after the
starts of a run are its states during the run, those between the members of a batch included. -/
inductive Call.Start {σ : Type} : List (Call σ) → List (Call σ) → Prop
  | nil (calls : List (Call σ)) : Start [] calls
  | cut (c : Call σ) (n : Nat) (calls : List (Call σ)) : Start [c.upTo n] (c :: calls)
  | cons (c : Call σ) {start calls : List (Call σ)} (h : Start start calls) :
      Start (c :: start) (c :: calls)

variable {σ : Type} [Storage σ]

omit [Storage σ] in
/-- A run starts with all of its calls. -/
theorem Call.Start.all (calls : List (Call σ)) : Call.Start calls calls := by
  induction calls with
  | nil => exact .nil []
  | cons c _ ih => exact .cons c ih

omit [Storage σ] in
/-- What is asked for at the start of a run is asked for in the run; a batch that is cut short asks
for less. -/
theorem Call.Start.mem_asks {start calls : List (Call σ)} (h : Call.Start start calls)
    {c : Call σ} (hc : c ∈ start) {q : Address × Bool} (hq : q ∈ c.asks) :
    ∃ c' ∈ calls, q ∈ c'.asks := by
  induction h with
  | nil calls => contradiction
  | cut c' n calls =>
      obtain rfl := List.mem_singleton.mp hc
      refine ⟨c', List.mem_cons_self, ?_⟩
      cases c' with
      | resolveBatch requests => exact List.map_subset _ (List.take_subset n requests) hq
      | resolve | lookup | register => exact hq
  | cons c' _ ih =>
      rcases List.mem_cons.mp hc with rfl | hc
      · exact ⟨c, List.mem_cons_self, hq⟩
      · obtain ⟨c'', hc'', hq'⟩ := ih hc
        exact ⟨c'', List.mem_cons_of_mem c' hc'', hq'⟩

namespace Account

/-- The number of handles that an account gave out. -/
def allotted (account : Account σ) : Nat := account.events.countP Event.isCreated

/-- The account after calls in order, those that fail included. -/
def after (account : Account σ) (calls : List (Call σ)) : Account σ :=
  calls.foldl (fun account c => (c.perform.run account).state) account

theorem after_append (account : Account σ) (calls calls' : List (Call σ)) :
    account.after (calls ++ calls') = (account.after calls).after calls' := List.foldl_append

theorem after_concat (account : Account σ) (calls : List (Call σ)) (c : Call σ) :
    account.after (calls ++ [c]) = (c.perform.run (account.after calls)).state :=
  after_append account calls [c]

/-! ## Events are only added -/

/-- Nothing that was told is taken back. -/
def AddsEvents (account account' : Account σ) : Prop := account.events <+: account'.events

omit [Storage σ] in
/-- What was added on two stretches was added on both together. -/
theorem AddsEvents.trans {a b c : Account σ} (h : a.AddsEvents b) (h' : b.AddsEvents c) :
    a.AddsEvents c := List.IsPrefix.trans h h'

omit [Storage σ] in
/-- An operation that leaves the events as they are adds none. -/
theorem addsEvents_of_eq {α : Type} {op : Op (Account σ) α}
    (h : ∀ account, (op.run account).state.events = account.events) : op.Moves AddsEvents := by
  intro account
  exact ⟨[], by rw [List.append_nil, h account]⟩

omit [Storage σ] in
/-- Sending events adds them. -/
theorem send_addsEvents (events : List Event) : (send events : Op (Account σ) _).Moves AddsEvents :=
  fun account => List.prefix_append account.events events

/-- Reconciling the directory tells nothing by itself. -/
theorem reconcileDirectory_addsEvents (markSelf : Bool) (request : Address) :
    (reconcileDirectory markSelf request : Op (Account σ) _).Moves AddsEvents :=
  .bind .trans (addsEvents_of_eq fun _ => rfl) fun _ =>
    .bind .trans (addsEvents_of_eq fun _ => rfl) fun (_, _) =>
      .bind .trans (addsEvents_of_eq fun _ => rfl) fun _ =>
        .bind .trans (addsEvents_of_eq fun _ => rfl) fun _ => addsEvents_of_eq fun _ => rfl

omit [Storage σ] in
/-- Cascades add the merges and the failures to follow them. -/
theorem cascadeAll_addsEvents (surviving : PeerId) (absorbed : List PeerId) :
    (cascadeAll surviving absorbed : Op (Account σ) _).Moves AddsEvents := by
  induction absorbed with
  | nil => exact addsEvents_of_eq fun _ => rfl
  | cons a as ih =>
      refine .bind .trans ?_ fun _ => .bind .trans ih fun _ => addsEvents_of_eq fun _ => rfl
      exact .bind .trans (addsEvents_of_eq fun _ => rfl) fun _ =>
        .bind .trans (addsEvents_of_eq fun _ => rfl) fun _ =>
          .bind .trans (addsEvents_of_eq fun _ => rfl) fun _ =>
            .bind .trans (send_addsEvents _) fun _ => addsEvents_of_eq fun _ => rfl

/-- A trusted resolution only adds events. -/
theorem resolveWith_addsEvents (markSelf : Bool) (request : Address) :
    (resolveWith markSelf request : Op (Account σ) _).Moves AddsEvents :=
  .bind .trans (reconcileDirectory_addsEvents markSelf request) fun _ =>
    .bind .trans (send_addsEvents _) fun _ =>
      .bind .trans (cascadeAll_addsEvents _ _) fun _ => addsEvents_of_eq fun _ => rfl

/-- A batch only adds events, by induction on its members. -/
theorem resolveBatch_addsEvents (requests : List Address) :
    (resolveBatch requests : Op (Account σ) _).Moves AddsEvents := by
  induction requests with
  | nil => exact addsEvents_of_eq fun _ => rfl
  | cons a as ih =>
      exact .bind .trans (resolveWith_addsEvents false a) fun _ =>
        .bind .trans ih fun _ => addsEvents_of_eq fun _ => rfl

/-- A look-up only adds events. -/
theorem lookup_addsEvents (request : Address) :
    (lookup request : Op (Account σ) _).Moves AddsEvents := by
  refine .bind .trans (addsEvents_of_eq fun _ => rfl) fun account => ?_
  dsimp only
  split
  · exact addsEvents_of_eq fun _ => rfl
  · exact .bind .trans (addsEvents_of_eq fun _ => rfl) fun _ =>
      .bind .trans (addsEvents_of_eq fun _ => rfl) fun (_, _) =>
        .bind .trans (addsEvents_of_eq fun _ => rfl) fun _ =>
          .bind .trans (addsEvents_of_eq fun _ => rfl) fun _ =>
            .bind .trans (send_addsEvents _) fun _ => addsEvents_of_eq fun _ => rfl

end Account

/-- No call takes back what was told, whether it succeeds or fails. -/
theorem Call.perform_addsEvents (c : Call σ) : c.perform.Moves Account.AddsEvents := by
  cases c with
  | resolve markSelf request =>
      exact .bind .trans (Account.resolveWith_addsEvents markSelf request) fun _ =>
        Account.addsEvents_of_eq fun _ => rfl
  | resolveBatch requests =>
      exact .bind .trans (Account.resolveBatch_addsEvents requests) fun _ =>
        Account.addsEvents_of_eq fun _ => rfl
  | lookup request =>
      exact .bind .trans (Account.lookup_addsEvents request) fun _ =>
        Account.addsEvents_of_eq fun _ => rfl
  | register m =>
      exact .bind .trans (Account.addsEvents_of_eq fun _ => rfl) fun _ =>
        Account.addsEvents_of_eq fun _ => rfl

namespace Account

omit [Storage σ] in
/-- The number of handles given out never falls. -/
theorem AddsEvents.allotted_le {a b : Account σ} (h : a.AddsEvents b) :
    a.allotted ≤ b.allotted := h.sublist.countP_le

/-- Along a run nothing is taken back. -/
theorem after_addsEvents (account : Account σ) (calls : List (Call σ)) :
    account.AddsEvents (account.after calls) := by
  induction calls generalizing account with
  | nil => exact List.prefix_rfl
  | cons c cs ih => exact (c.perform_addsEvents account).trans (ih _)

/-- A call has told at least what it had told where it was cut short: the rest of a batch only adds
to it. -/
theorem upTo_addsEvents (c : Call σ) (n : Nat) (account : Account σ) :
    ((c.upTo n).perform.run account).state.AddsEvents (c.perform.run account).state := by
  cases c with
  | resolveBatch requests =>
      have hrest : ((resolveBatch (requests.take n)).run account).state.AddsEvents
          ((resolveBatch requests).run account).state := by
        rw [resolveBatch_split n requests]
        exact Op.Moves.after (R := AddsEvents) (fun _ => List.prefix_rfl) (fun _ => .bind .trans
          (resolveBatch_addsEvents _) fun _ => addsEvents_of_eq fun _ => rfl) account
      rw [Call.upTo, Call.perform, Call.perform, Op.state_map, Op.state_map]
      exact hrest
  | resolve | lookup | register => exact List.prefix_rfl

/-- What was told at some moment of a run is told in the end. -/
theorem start_addsEvents {start calls : List (Call σ)} (h : Call.Start start calls)
    (account : Account σ) : (account.after start).AddsEvents (account.after calls) := by
  induction h generalizing account with
  | nil calls => exact after_addsEvents account calls
  | cut c n calls => exact (upTo_addsEvents c n account).trans (after_addsEvents _ calls)
  | cons c _ ih => exact ih _

/-- Where a run leaves handles, so does its first call. -/
theorem allotted_perform_lt {c : Call σ} {calls : List (Call σ)} {account : Account σ}
    (hn : (account.after (c :: calls)).allotted + 1 < UInt64.size) :
    (c.perform.run account).state.allotted + 1 < UInt64.size := by
  have hle := (after_addsEvents (c.perform.run account).state calls).allotted_le
  exact Nat.lt_of_le_of_lt (Nat.succ_le_succ hle) hn

/-! ## Development along a run -/

/-- An account goes on to another by findings, which its history tells. -/
structure Develops (account account' : Account σ) (fs : List Finding) : Prop where
  directory : account.directory.Leads fs account'.directory
  history : account'.history = account.history ++ fs.flatMap Finding.events

omit [Storage σ] in
/-- An account whose directory and history are as before develops by no findings. -/
theorem Develops.of_eq {account account' : Account σ}
    (hd : account'.directory = account.directory) (he : account'.history = account.history) :
    account.Develops account' [] := by
  refine ⟨?_, ?_⟩
  · rw [hd]
    exact .refl _
  · rw [he, List.flatMap_nil, List.append_nil]

omit [Storage σ] in
/-- A failure that leaves all but the storage as it was brings nothing. -/
theorem Develops.of_fails {α : Type} {op : Op (Account σ) α} {account : Account σ} {e : Error}
    {s : σ} (h : op.Fails account e { account with storage := s }) :
    account.Develops (op.run account).state [] := by
  have hd := congrArg Account.directory h.2
  have hh := congrArg Account.history h.2
  exact .of_eq hd hh

omit [Storage σ] in
/-- Findings of two stretches are those of both together, in this order. -/
theorem Develops.trans {a b c : Account σ} {fs gs : List Finding} (h : a.Develops b fs)
    (h' : b.Develops c gs) : a.Develops c (fs ++ gs) := by
  refine ⟨h.directory.append h'.directory, ?_⟩
  rw [h'.history, h.history, List.flatMap_append, List.append_assoc]

/-- A finding tells of one new peer if it created a row, and of none otherwise. -/
theorem countP_isCreated_event (f : Finding) :
    f.events.countP Event.isCreated = Finding.creations [f] := by
  have hc : (f.result.stripped.map Event.addressChanged).countP Event.isCreated = 0 := by
    simp [List.countP_eq_zero, Event.isCreated]
  have hm : (f.result.merged.map (Event.merged f.result.peer)).countP Event.isCreated = 0 := by
    simp [List.countP_eq_zero, Event.isCreated]
  rw [Finding.events, Reconciliation.events, List.countP_append, List.countP_append, hc, hm,
    Finding.creations, List.countP_singleton]
  split
  · rfl
  · split <;> rfl

/-- Findings tell of as many new peers as they created rows. -/
theorem countP_isCreated_events (fs : List Finding) :
    (fs.flatMap Finding.events).countP Event.isCreated = Finding.creations fs := by
  induction fs with
  | nil => rfl
  | cons f fs ih =>
      rw [List.flatMap_cons, List.countP_append, ih, countP_isCreated_event,
        ← Finding.creations_cons]

omit [Storage σ] in
/-- The handles given out can be counted in the events about peers. -/
theorem allotted_eq (account : Account σ) :
    account.allotted = account.history.countP Event.isCreated := by
  rw [allotted, history, List.countP_filter]
  refine List.countP_congr fun e _ => ?_
  cases e <;> simp [Event.isCreated, Event.concernsPeers]

omit [Storage σ] in
/-- Along a development the number of handles given out grows by the rows created. -/
theorem Develops.allotted {account account' : Account σ} {fs : List Finding}
    (h : account.Develops account' fs) :
    account'.allotted = account.allotted + Finding.creations fs := by
  rw [allotted_eq, allotted_eq, h.history, List.countP_append, countP_isCreated_events]

/-- An account whose directory is that of the handles it gave out. -/
def Coherent (account : Account σ) : Prop := account.directory.Coherent account.allotted

omit [Storage σ] in
/-- Along a development the account stays coherent, as long as handles are left. -/
theorem Develops.coherent {account account' : Account σ} {fs : List Finding}
    (h : account.Develops account' fs) (hc : account.Coherent)
    (hn : account'.allotted + 1 < UInt64.size) : account'.Coherent := by
  unfold Coherent
  rw [h.allotted] at hn ⊢
  exact Directory.Coherent.leads hc h.directory hn

/-- One trusted request fails and leaves the directory as it is, or brings a finding. The stores
that follow tell nothing about peers but the merges of the finding. -/
theorem resolveWith_develops {account : Account σ} (hc : account.Coherent)
    (hn : account.allotted + 1 < UInt64.size) (markSelf : Bool) (request : Address) :
    (∃ e s, (resolveWith markSelf request).Fails account e { account with storage := s }) ∨
      ∃ r account' f, (resolveWith markSelf request).Returns account r account' ∧
        account.Develops account' [f] ∧ Reply.ofResolution request r = f.reply := by
  have hnext := Directory.Coherent.hasNext hc hn
  obtain ⟨e, s, -, hf⟩ | ⟨d, s, failures, account', hcommit, hr, hfollows⟩ :=
    resolveWith_cases hnext markSelf request
  · exact .inl ⟨e, s, hf⟩
  · refine .inr ⟨_, account', ⟨request, true, account.directory.outcome request⟩, hr, ⟨?_, ?_⟩,
      rfl⟩
    · rw [hfollows.directory, (commit_draft_returns hnext hcommit).1]
      exact (Directory.Step.resolved account.directory markSelf request).leads
    · rw [hfollows.history, List.flatMap_singleton]
      rfl

/-- One look-up fails and leaves the directory as it is, or brings a finding: that of a row which
was there, or of a new one. -/
theorem lookup_develops (account : Account σ) (request : Address) :
    (∃ e s, (lookup request).Fails account e { account with storage := s }) ∨
      ∃ p account' f, (lookup request).Returns account p account' ∧
        account.Develops account' [f] ∧ ⟨request, false, p, []⟩ = f.reply := by
  obtain ⟨p, hp, hr⟩ | ⟨hnone, ⟨e, s, -, hf⟩ | ⟨d, s, account', hcommit, hr, hfollows⟩⟩ :=
    lookup_cases account request
  · refine .inr ⟨p.id, account, _, hr, ⟨(Directory.Step.found hp).leads, ?_⟩, rfl⟩
    exact (List.append_nil _).symm
  · exact .inl ⟨e, s, hf⟩
  · refine .inr ⟨_, account', ⟨request, false, ⟨account.directory.lastId.next, [], [], true, true⟩⟩,
      hr, ⟨?_, ?_⟩, rfl⟩
    · rw [hfollows.directory, (commit_addition_returns hcommit).1]
      exact (Directory.Step.added hnone).leads
    · rw [hfollows.history, List.flatMap_singleton]
      rfl

/-- A batch brings the findings of its members, up to the first that fails, and the replies to it
are what is told of these. -/
theorem resolveBatch_develops (requests : List Address) {account : Account σ}
    (hc : account.Coherent)
    (hn : ((resolveBatch requests).run account).state.allotted + 1 < UInt64.size) :
    ∃ fs, account.Develops ((resolveBatch requests).run account).state fs ∧
      account.batchReplies requests = fs.map Finding.reply := by
  induction requests generalizing account with
  | nil => exact ⟨[], .of_eq rfl rfl, rfl⟩
  | cons a as ih =>
      have hle := (resolveBatch_addsEvents (a :: as) account).allotted_le
      obtain ⟨e, s, hf⟩ | ⟨r, account', f, hr, hdev, hreply⟩ :=
        resolveWith_develops hc (by omega) false a
      · have hbf : (resolveBatch (a :: as)).Fails account e { account with storage := s } :=
          hf.bind _
        exact ⟨[], .of_fails hbf, batchReplies_of_fails hf as⟩
      · rw [resolveBatch_cons_state hr] at hn ⊢
        have hle' := (resolveBatch_addsEvents as account').allotted_le
        obtain ⟨fs, hdevs, hreplies⟩ := ih (hdev.coherent hc (by omega)) hn
        refine ⟨f :: fs, hdev.trans hdevs, ?_⟩
        rw [batchReplies_of_returns hr, hreplies, hreply, List.map_cons]

end Account

/-- A call brings findings, and its replies are what is told of them; this is the step lemma for all
runs of calls. -/
theorem Call.develops_replies (c : Call σ) {account : Account σ} (hc : account.Coherent)
    (hn : (c.perform.run account).state.allotted + 1 < UInt64.size) :
    ∃ fs, account.Develops (c.perform.run account).state fs ∧
      c.replies account = fs.map Finding.reply := by
  have hle := (c.perform_addsEvents account).allotted_le
  cases c with
  | resolve markSelf request =>
      obtain ⟨e, s, hf⟩ | ⟨r, account', f, hr, hdev, hreply⟩ :=
        Account.resolveWith_develops hc (by omega) markSelf request
      · have hp : (Call.resolve markSelf request).perform.Fails account e
            { account with storage := s } := hf.bind _
        exact ⟨[], .of_fails hp, Call.replies_of_fails hp fun _ h => by cases h⟩
      · have hp : (Call.resolve markSelf request).perform.Returns account
            [.ofResolution request r] account' := hr.bind (Op.returns_pure _ _)
        rw [Call.replies_of_ok hp.1, hp.2, hreply]
        exact ⟨[f], hdev, rfl⟩
  | resolveBatch requests =>
      rw [Call.perform, Op.state_map] at hn ⊢
      exact Account.resolveBatch_develops requests hc hn
  | lookup request =>
      obtain ⟨e, s, hf⟩ | ⟨p, account', f, hr, hdev, hreply⟩ :=
        Account.lookup_develops account request
      · have hp : (Call.lookup request).perform.Fails account e { account with storage := s } :=
          hf.bind _
        exact ⟨[], .of_fails hp, Call.replies_of_fails hp fun _ h => by cases h⟩
      · have hp : (Call.lookup request).perform.Returns account
            [⟨request, false, p, []⟩] account' := hr.bind (Op.returns_pure _ _)
        rw [Call.replies_of_ok hp.1, hp.2, hreply]
        exact ⟨[f], hdev, rfl⟩
  | register m => exact ⟨[], .of_eq rfl rfl, rfl⟩

/-- What a call answers is told of its findings. -/
theorem Call.perform_develops (c : Call σ) {account : Account σ} (hc : account.Coherent)
    (hn : (c.perform.run account).state.allotted + 1 < UInt64.size) :
    ∃ fs, account.Develops (c.perform.run account).state fs ∧
      ∀ replies, (c.perform.run account).result = .ok replies →
        replies = fs.map Finding.reply := by
  obtain ⟨fs, hdev, hreplies⟩ := c.develops_replies hc hn
  exact ⟨fs, hdev, fun replies hok => (Call.replies_of_ok hok).symm.trans hreplies⟩

namespace Account

/-- **Along a run the directory develops by findings**, which the history and the replies tell. -/
theorem after_develops_replies (calls : List (Call σ)) {account : Account σ}
    (hc : account.Coherent) (hn : (account.after calls).allotted + 1 < UInt64.size) :
    ∃ fs, account.Develops (account.after calls) fs ∧
      account.replies calls = fs.map Finding.reply := by
  induction calls generalizing account with
  | nil => exact ⟨[], .of_eq rfl rfl, rfl⟩
  | cons c cs ih =>
      have hn' := allotted_perform_lt hn
      obtain ⟨fs, hdev, hreplies⟩ := c.develops_replies hc hn'
      obtain ⟨gs, hdevs, hreplies'⟩ := ih (hdev.coherent hc hn') hn
      refine ⟨fs ++ gs, hdev.trans hdevs, ?_⟩
      rw [replies, hreplies, hreplies', List.map_append]

/-- Along a run the directory develops by some findings. -/
theorem after_develops (calls : List (Call σ)) {account : Account σ} (hc : account.Coherent)
    (hn : (account.after calls).allotted + 1 < UInt64.size) :
    ∃ fs, account.Develops (account.after calls) fs := by
  obtain ⟨fs, hdev, -⟩ := after_develops_replies calls hc hn
  exact ⟨fs, hdev⟩

/-- The directory stays coherent along a run. -/
theorem after_coherent (calls : List (Call σ)) {account : Account σ} (hc : account.Coherent)
    (hn : (account.after calls).allotted + 1 < UInt64.size) : (account.after calls).Coherent := by
  obtain ⟨fs, hdev⟩ := after_develops calls hc hn
  exact hdev.coherent hc hn

end Account

namespace Account

/-- From where a call is cut short it goes on by findings, and their replies follow those before. So
a moment within a batch is like one between calls. -/
theorem upTo_develops (c : Call σ) (n : Nat) {account : Account σ} (hc : account.Coherent)
    (hn : (c.perform.run account).state.allotted + 1 < UInt64.size) :
    ∃ fs, ((c.upTo n).perform.run account).state.Develops (c.perform.run account).state fs ∧
      c.replies account = (c.upTo n).replies account ++ fs.map Finding.reply := by
  have hle := (upTo_addsEvents c n account).allotted_le
  obtain ⟨gs, hdev, -⟩ := (c.upTo n).develops_replies hc (by omega)
  have hc' := hdev.coherent hc (by omega)
  cases c with
  | resolveBatch requests =>
      have happ := batchReplies_append (requests.take n) (requests.drop n) account
      rw [List.take_append_drop] at happ
      rw [Call.upTo, Call.perform, Op.state_map] at hc' ⊢
      rw [Call.perform, Op.state_map] at hn ⊢
      rw [resolveBatch_split n requests] at hn ⊢
      rw [Call.replies, Call.replies, happ]
      obtain ⟨rs, t, hr⟩ | ⟨e, t, hf⟩ :=
        Op.returns_or_fails (resolveBatch (requests.take n)) account
      · rw [hr.state_bind, Op.state_map] at hn ⊢
        rw [hr.2] at hc'
        rw [hr.1, hr.2]
        obtain ⟨fs, hrest, hreplies⟩ := resolveBatch_develops (requests.drop n) hc' hn
        exact ⟨fs, hrest, by rw [← hreplies]⟩
      · rw [(hf.bind _).2, hf.1, hf.2]
        exact ⟨[], .of_eq rfl rfl, rfl⟩
  | resolve | lookup | register => exact ⟨[], .of_eq rfl rfl, (List.append_nil _).symm⟩

/-- From every moment of a run the directory goes on by findings, and their replies follow those
before. -/
theorem start_develops_replies {start calls : List (Call σ)} (h : Call.Start start calls)
    {account : Account σ} (hc : account.Coherent)
    (hn : (account.after calls).allotted + 1 < UInt64.size) :
    ∃ fs, (account.after start).Develops (account.after calls) fs ∧
      account.replies calls = account.replies start ++ fs.map Finding.reply := by
  induction h generalizing account with
  | nil calls => exact after_develops_replies calls hc hn
  | cut c n calls =>
      have hn' := allotted_perform_lt hn
      obtain ⟨fs, hcut, hreplies⟩ := upTo_develops c n hc hn'
      obtain ⟨gs, hdev, -⟩ := c.develops_replies hc hn'
      obtain ⟨hs, hrest, hreplies'⟩ := after_develops_replies calls (hdev.coherent hc hn') hn
      refine ⟨fs ++ hs, hcut.trans hrest, ?_⟩
      rw [replies, hreplies, hreplies', List.map_append, replies, replies, List.append_nil,
        List.append_assoc]
  | @cons c start calls _ ih =>
      have hn' := allotted_perform_lt hn
      obtain ⟨gs, hdev, -⟩ := c.develops_replies hc hn'
      obtain ⟨fs, hrest, hreplies⟩ := ih (hdev.coherent hc hn') hn
      refine ⟨fs, hrest, ?_⟩
      rw [replies, hreplies, replies, List.append_assoc]

end Account

/-! ## The start -/

/-- Nothing is stored. -/
def Storage.Vacant (s : σ) : Prop :=
  (∀ key, (Storage.get key).Returns s none s) ∧ ∀ keyPrefix, (Storage.list keyPrefix).Returns s [] s

/-- A vacant storage is read as the directory of a new account: nothing is listed, and there is
neither a counter nor an own handle. -/
theorem Directory.load_vacant {s : σ} (hs : Storage.Vacant s) :
    (Directory.load : Op σ _).Returns s .empty s := by
  obtain ⟨hget, hlist⟩ := hs
  have hrows {α : Type} (keyPrefix what : String) (decoder : Json.Decoder α) :
      (Directory.loadRows keyPrefix what decoder).Returns s [] s :=
    (hlist keyPrefix).bind (Op.returns_pure _ _)
  have hlast : (Directory.loadLastId : Op σ _).Returns s ⟨0⟩ s :=
    (hget _).bind (Op.returns_pure _ _)
  have hself : (Directory.loadSelf : Op σ _).Returns s none s :=
    (hget _).bind (Op.returns_pure _ _)
  exact (hrows _ _ _).bind ((hrows _ _ _).bind (hlast.bind (hself.bind
    ((Op.returns_pure _ _).bind (Op.returns_pure _ _)))))

/-- A storage in memory without content is vacant. -/
theorem Memory.vacant : Storage.Vacant (⟨∅⟩ : Memory) := ⟨fun _ => ⟨rfl, rfl⟩, fun _ => ⟨rfl, rfl⟩⟩

namespace Account

/-- The account on an empty storage. -/
def fresh (s : σ) (mergers : List (Merger σ)) : Account σ := ⟨s, .empty, mergers, []⟩

/-- An account on a vacant storage is a fresh one. -/
theorem load_vacant {s : σ} (hs : Storage.Vacant s) (mergers : List (Merger σ)) :
    (Account.load mergers).Returns s (fresh s mergers) s :=
  (Directory.load_vacant hs).bind ((Op.returns_state _).bind (Op.returns_pure _ _))

omit [Storage σ] in
/-- A fresh account is coherent and has given out no handle. -/
theorem coherent_fresh (s : σ) (mergers : List (Merger σ)) : (fresh s mergers).Coherent :=
  Directory.coherent_empty

end Account

/-- An account, a look-up of a phone-number identity, and a batch that proves the two to belong
together. -/
def provingCalls : List (Call Memory) :=
  [.resolve false (.ofAci (.sample 0)), .lookup (.ofPni (.sample 0)),
    .resolveBatch [(Address.ofAci (.sample 0)).withPni (.sample 0), .ofPni (.sample 1)]]

end PeerBook
