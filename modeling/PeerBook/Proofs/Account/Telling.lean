import PeerBook.Proofs.Account.Attended
import PeerBook.Proofs.Directory.News

/-!
# PeerBook.Proofs.Account.Telling

The events of a trusted resolution are an exact account of what it changed. They
can be told from the rows before and after and from what was seen of the mergers:
first what became of the peer, then which other rows have another address, and
then the rows that are gone, each with the failures to follow it
(`run_tells_what_changed`). A resolution that fails tells nothing.

The events are compared with a definition that looks at the two tables only
(`Directory.news`), and with the visits that an attended account notes; neither
knows of the resolution's own answer. Exactness needs a table in which no
identifier is on two rows, which every account on an empty storage has.
-/

namespace PeerBook

variable {σ : Type} [Storage σ]

/-- What is submitted, as long as handles are left. -/
theorem Directory.submit_returns {d d' : Directory} (hd : d.HasNext) {markSelf : Bool}
    {request : Address} {s s' : σ} {outcome : Reconciliation}
    (h : (d.submit markSelf request).Returns s (outcome, d') s') :
    outcome = d.outcome request ∧ d' = d.resolved markSelf request := by
  have hp : d.proposal markSelf request = .ok (d.outcome request, d.draft markSelf request) :=
    proposal_of_returns markSelf (reconcile_returns request (sound_begin hd))
  unfold submit at h
  rw [hp] at h
  simp only [Op.ofExcept, pure_bind] at h
  obtain ⟨d₁, s₁, hc, h⟩ := h.of_bind
  obtain ⟨hpair, rfl⟩ := h.unique (Op.returns_pure _ s₁)
  obtain ⟨rfl, rfl⟩ := Prod.mk.inj hpair
  exact ⟨rfl, (Account.commit_draft_returns hd hc).1⟩

/-- **Events say exactly what changed.** From an empty storage, at every moment of a run before the
handles are used up: a request that fails, trusted or not, tells nothing and leaves the rows; a
trusted resolution that succeeds answers as absorbed the handles that are gone, lets every merger
follow each of them in order, and tells what became of the peer and of the other rows, and then of
each handle that is gone that it was merged and which mergers failed to follow. -/
theorem run_tells_what_changed {s : σ} (hs : Storage.Vacant s) (mergers : List (Merger σ))
    (calls : List (Call σ)) :
    ∃ account, (Account.load mergers).Returns s account s ∧
      ((account.after calls).allotted < UInt64.size - 1 →
        let before := account.after calls
        let rows := before.directory.rows
        (∀ request e after, (Account.lookup request).Fails before e after →
          after.events = before.events ∧ after.directory.rows = rows) ∧
        ∀ markSelf request,
          let visits := before.visits markSelf request
          (Account.resolveWith markSelf request).Watches (Account.resolveWith markSelf request)
            before visits ∧
          (∀ e after, (Account.resolveWith markSelf request).Fails before e after →
            after.events = before.events ∧ after.directory.rows = rows ∧ visits = []) ∧
          ∀ r after, (Account.resolveWith markSelf request).Returns before r after →
            let rows' := after.directory.rows
            r.merged = Directory.gone rows rows' ∧
            visits.map Visit.errand = errands before.mergers r.peer (Directory.gone rows rows') ∧
            after.events = before.events ++ Directory.news r.peer rows rows' ++
              mergeEvents r.peer (Directory.gone rows rows') visits) := by
  refine ⟨.fresh s mergers, Account.load_vacant hs mergers, fun hbound => ?_⟩
  have hn : ((Account.fresh s mergers).after calls).allotted + 1 < UInt64.size := by omega
  have hc := Account.after_coherent calls (Account.coherent_fresh s mergers) hn
  generalize (Account.fresh s mergers).after calls = before at hn hc
  have hnext := Directory.Coherent.hasNext hc hn
  refine ⟨fun request e after hf => ?_, fun markSelf request => ?_⟩
  · obtain ⟨p, -, hr⟩ | ⟨-, ⟨e', t, -, hf'⟩ | ⟨d, t, -, hr⟩⟩ := before.lookup_commits request
    · exact absurd hr.1 (hf.not_ok _)
    · obtain ⟨-, rfl⟩ := hf.unique hf'
      exact ⟨rfl, rfl⟩
    · exact absurd hr.1 (hf.not_ok _)
  · dsimp only
    obtain ⟨e, t, hf, hw, hv⟩ |
        ⟨outcome, d, t, new, account', hsub, hr, hw, hv, herrands, hd, -, hevents⟩ :=
      before.resolveWith_watches markSelf request
    · rw [hv]
      refine ⟨hw, fun e' after hf' => ?_, fun r after hr => absurd hr.1 (hf.not_ok r)⟩
      obtain ⟨-, rfl⟩ := hf.unique hf'
      exact ⟨rfl, rfl, rfl⟩
    · rw [hv]
      refine ⟨hw, fun e after hf => absurd hr.1 (hf.not_ok _), fun r after hr' => ?_⟩
      obtain ⟨rfl, rfl⟩ := hr.unique hr'
      obtain ⟨rfl, rfl⟩ := Directory.submit_returns hnext hsub
      have hgone := Directory.merged_outcome_eq_gone hnext markSelf request
      have hnews := Directory.events_outcome hnext hc.unambiguous markSelf request
      rw [hd, ← hgone, ← hnews]
      refine ⟨rfl, herrands, hevents ?_⟩
      rw [hgone]
      exact before.directory.rows.nodup_keys.filter _

/-- Two peers that were met apart, by their account and by their phone-number identity. -/
def callsApart : List (Call Memory) :=
  [.resolve false (.ofAci (.sample 0)), .lookup (.ofPni (.sample 0))]

/-- The proof that the two are one is told: the first has another address, the second is gone, and
the one merger failed to follow. -/
theorem callsApart_tell_what_changed :
    ∃ account, (Account.load [.refusing]).Returns (⟨∅⟩ : Memory) account ⟨∅⟩ ∧
      (account.after callsApart).allotted = 2 ∧
      ∃ r after,
        (Account.resolveWith false .sampleProof).Returns (account.after callsApart) r after ∧
        r.merged = [⟨2⟩] ∧
        ((account.after callsApart).visits false .sampleProof).length = 1 ∧
        after.events = (account.after callsApart).events ++ [.addressChanged ⟨1⟩, .merged ⟨1⟩ ⟨2⟩,
          .cascadeFailed ⟨"sessions", ⟨1⟩, ⟨2⟩, "Storage error: Failed to write file"⟩] := by
  obtain ⟨account, hload, h⟩ := run_tells_what_changed Memory.vacant [.refusing] callsApart
  obtain ⟨rfl, -⟩ := hload.unique (Account.load_vacant Memory.vacant [.refusing])
  have hn : ((Account.fresh (⟨∅⟩ : Memory) [.refusing]).after callsApart).allotted = 2 := rfl
  obtain ⟨-, hresolve⟩ := h (by rw [hn]; decide)
  obtain ⟨-, -, hreturns⟩ := hresolve false .sampleProof
  have hr : (Account.resolveWith false .sampleProof).Returns
      ((Account.fresh (⟨∅⟩ : Memory) [.refusing]).after callsApart) _ _ := ⟨rfl, rfl⟩
  obtain ⟨-, herrands, hevents⟩ := hreturns _ _ hr
  refine ⟨_, hload, hn, _, _, hr, rfl, ?_, hevents.trans rfl⟩
  have hlength := congrArg List.length herrands
  rw [List.length_map] at hlength
  exact hlength.trans rfl

end PeerBook
