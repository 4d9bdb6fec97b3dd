import PeerBook.Proofs.Account.Runs
import PeerBook.Proofs.Directory.Anchored

/-!
# PeerBook.Proofs.Account.Permanence

What holds for good along a run, whatever the storage does. Once a row carries
an account identity it stays under its handle and keeps that identity, it is
never absorbed, and every request for the account is answered with it.

That one request keeps such a row is `Directory.Anchors.step`, and that all of
them do is `Directory.Anchors.leads`. What is added here is what callers see of
it: the events that an account tells, and the replies along its runs, those to
members of a batch that fails later on included. The moment from which the row
carries the identity may lie within a batch as well (`Call.Start`), so the
replies from then on are counted from there.

The main result is `run_keeps_accounts`.
-/

namespace PeerBook

variable {σ : Type} [Storage σ]

namespace Account

omit [Storage σ] in
/-- The merges that are told are those of findings, since the account told nothing about peers
before its first request. -/
theorem exists_merged_of_event {s : σ} {mergers : List (Merger σ)} {account : Account σ}
    {fs : List Finding} (h : (fresh s mergers).Develops account fs) {p i : PeerId}
    (he : .merged p i ∈ account.events) : ∃ f ∈ fs, i ∈ f.result.merged := by
  have hm : Event.merged p i ∈ account.history := List.mem_filter.mpr ⟨he, rfl⟩
  rw [h.history] at hm
  obtain ⟨f, hf, hmf⟩ := List.mem_flatMap.mp hm
  refine ⟨f, hf, ?_⟩
  rw [Finding.events, List.mem_append] at hmf
  rcases hmf with hmf | hmf
  · simp [Reconciliation.mem_events_iff] at hmf
  · obtain ⟨a, ha, hai⟩ := List.mem_map.mp hmf
    cases hai
    exact ha

/-- Where the last request answered along a run is for an account that a row carries in the end, it
was answered with that row: it left the directory as it is now. -/
theorem peer_of_last_reply {account : Account σ} (hc : account.Coherent) {calls : List (Call σ)}
    (hn : (account.after calls).allotted + 1 < UInt64.size) {i : PeerId} {z : Aci}
    (h : (account.after calls).directory.Anchors i z) {reply : Reply}
    (hr : (account.replies calls).getLast? = some reply) (hz : reply.request.aci = some z) :
    reply.peer = i := by
  obtain ⟨fs, hdev, hreplies⟩ := after_develops_replies calls hc hn
  rw [hreplies, List.getLast?_map] at hr
  obtain ⟨f, hf, rfl⟩ := Option.map_eq_some_iff.mp hr
  obtain ⟨init, rfl⟩ := List.getLast?_eq_some_iff.mp hf
  obtain ⟨d, hl, hstep⟩ := hdev.directory.last
  have hal := hdev.allotted
  rw [Finding.creations, List.countP_append, ← Finding.creations] at hal
  have hd : d.Coherent _ := Directory.Coherent.leads hc hl (by omega)
  exact h.answered hd hstep (by omega) hz

end Account

/-- **Rows with an account identity are permanent.** From an empty storage, whatever it does, as
long as handles are left: once a row carries an account identity it does so at every later moment,
it was not absorbed, no other row carries the identity, and no reply of the run lists it as
absorbed. Every reply to a request for the account is the row from then on, members of batches
included, and so is that to the request that brought the account to the row. -/
theorem run_keeps_accounts {s : σ} (hs : Storage.Vacant s) (mergers : List (Merger σ))
    {earlier calls : List (Call σ)} (hstart : Call.Start earlier calls) :
    ∃ account, (Account.load mergers).Returns s account s ∧
      ((account.after calls).allotted < UInt64.size - 1 → ∀ i z,
        (account.after earlier).directory.Anchors i z →
        (account.after calls).directory.Anchors i z ∧
        (account.after calls).directory.follow i = i ∧
        (∀ j, (account.after calls).directory.Anchors j z → j = i) ∧
        (∀ p, .merged p i ∉ (account.after calls).events) ∧
        (∀ reply ∈ account.replies calls, i ∉ reply.merged) ∧
        ∃ later, account.replies calls = account.replies earlier ++ later ∧
          ∀ reply, (account.replies earlier).getLast? = some reply ∨ reply ∈ later →
            reply.request.aci = some z → reply.peer = i) := by
  refine ⟨.fresh s mergers, Account.load_vacant hs mergers, fun hbound i z hearlier => ?_⟩
  have hn : ((Account.fresh s mergers).after calls).allotted + 1 < UInt64.size := by omega
  have hfresh := Account.coherent_fresh s mergers
  have hle := (Account.start_addsEvents hstart (.fresh s mergers)).allotted_le
  have hc := Account.after_coherent calls hfresh hn
  obtain ⟨fs, hdev, hlater⟩ := Account.start_develops_replies hstart hfresh hn
  obtain ⟨gs, hall, hreplies⟩ := Account.after_develops_replies calls hfresh hn
  have hbefore := Account.after_coherent earlier hfresh (by omega)
  have hal := hdev.allotted
  have hanchors := hearlier.leads hbefore hdev.directory (by omega)
  have hfollow : ((Account.fresh s mergers).after calls).directory.follow i = i :=
    Redirects.follow_of_endsAt (Redirects.endsAt_self (hc.no_redirect hanchors.row))
  refine ⟨hanchors, hfollow, fun j hj => hanchors.unique hc hj, fun p he => ?_, ?_, _, hlater, ?_⟩
  · obtain ⟨f, hf, hm⟩ := Account.exists_merged_of_event hall he
    exact hanchors.not_merged hc hall.directory hf hm
  · rw [hreplies]
    intro reply hr
    obtain ⟨f, hf, rfl⟩ := List.mem_map.mp hr
    exact hanchors.not_merged hc hall.directory hf
  · rintro reply (hr | hr) hz
    · exact Account.peer_of_last_reply hfresh (by omega) hearlier hr hz
    · obtain ⟨f, hf, rfl⟩ := List.mem_map.mp hr
      exact hearlier.answers hbefore hdev.directory (by omega) hf hz

/-- The first row keeps its account while it absorbs another row and goes on to be asked for. -/
theorem provingCalls_keep_account :
    ∃ account, (Account.load []).Returns (⟨∅⟩ : Memory) account ⟨∅⟩ ∧
      (account.after [.resolve false (.ofAci (.sample 0))]).directory.Anchors ⟨1⟩ (.sample 0) ∧
      (account.after provingCalls).directory.Anchors ⟨1⟩ (.sample 0) ∧
      (account.after provingCalls).events =
        [.created ⟨1⟩, .created ⟨2⟩, .addressChanged ⟨1⟩, .merged ⟨1⟩ ⟨2⟩, .created ⟨3⟩] := by
  have hstart : Call.Start [.resolve false (.ofAci (.sample 0))] provingCalls := .cons _ (.nil _)
  obtain ⟨account, hload, h⟩ := run_keeps_accounts Memory.vacant [] hstart
  obtain ⟨rfl, -⟩ := hload.unique (Account.load_vacant Memory.vacant [])
  have hn : ((Account.fresh (⟨∅⟩ : Memory) []).after provingCalls).allotted = 3 := rfl
  have ha : ((Account.fresh (⟨∅⟩ : Memory) []).after
      [.resolve false (.ofAci (.sample 0))]).directory.Anchors ⟨1⟩ (.sample 0) := ⟨_, rfl, rfl⟩
  exact ⟨_, hload, ha, (h (by rw [hn]; decide) _ _ ha).1, rfl⟩

end PeerBook
