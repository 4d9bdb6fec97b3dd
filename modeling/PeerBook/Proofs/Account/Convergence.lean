import PeerBook.Proofs.Account.Uniqueness
import PeerBook.Proofs.Directory.Convergence

/-!
# PeerBook.Proofs.Account.Convergence

A run on a storage that takes every batch, in which every request names part of
one of several peers that have no identifier in common. Every request is
answered; at every moment each row is within one peer; and from the moment a
peer's full address was resolved on trust, one row has all of it and every handle
that was ever answered for the peer leads there, in whatever order its parts
came to be known.

The moments of a run are those between requests, also between the members of a
batch. That every request is answered needs the storage to take every batch and
handles to be left; the rest is `Leads.row_completed` and `Tracks.follow_eq` for
the development of the directory that the run makes.
-/

namespace PeerBook

variable {σ : Type} [Storage σ]

/-- On a storage that takes every batch every request is answered. -/
theorem Account.replies_asked (hw : Storage.Reliable σ) (calls : List (Call σ))
    {account : Account σ} (hc : account.Coherent)
    (hn : (account.after calls).allotted + 1 < UInt64.size) :
    (account.replies calls).map Reply.asked = calls.flatMap Call.asks := by
  induction calls generalizing account with
  | nil => rfl
  | cons c cs ih =>
      have hn' := Account.allotted_perform_lt hn
      obtain ⟨replies, account', hr⟩ := c.perform_returns hw hc hn'
      obtain ⟨fs, hdev, -⟩ := c.develops_replies hc hn'
      rw [Account.replies, List.map_append, Call.replies_asked_of_ok hr.1,
        ih (hdev.coherent hc hn') hn, List.flatMap_cons]

/-- **Peers converge.** From an empty storage that takes every batch, whatever is asked of the
account as long as each request names part of one of several peers that are apart, and as long as
handles are left: at every moment every request so far was answered, every row is within one peer,
and for every peer whose full address was resolved on trust the handle answered has a row with
exactly that address, no other row carries an identifier of the peer, and every handle that was
ever answered for part of the peer leads to it. -/
theorem run_converges {ι : Type} {s : σ} (hs : Storage.Vacant s) (hw : Storage.Reliable σ)
    (mergers : List (Merger σ)) {full : ι → Address} (hfull : Apart full) {calls : List (Call σ)}
    (hcalls : ∀ c ∈ calls, ∀ q ∈ c.asks, ∃ p, (full p).covers q.1 = true) :
    ∃ account, (Account.load mergers).Returns s account s ∧
      ((account.after calls).allotted < UInt64.size - 1 →
        ∀ start, Call.Start start calls →
          (account.replies start).map Reply.asked = start.flatMap Call.asks ∧
          (∀ i a, (account.after start).directory.rows.get? i = some a →
            ∃ p, (full p).covers a = true) ∧
          ∀ p, ∀ reply ∈ account.replies start, reply.trusted = true → reply.request = full p →
            (account.after start).directory.rows.get? reply.peer = some (full p) ∧
            (∀ i x, Carries (account.after start).directory.rows.get? i x →
              x ∈ (full p).identifiers → i = reply.peer) ∧
            ∀ r ∈ account.replies start, (full p).covers r.request = true →
              ∀ i, i = r.peer ∨ i ∈ r.merged →
                (account.after start).directory.follow i = reply.peer) := by
  refine ⟨.fresh s mergers, Account.load_vacant hs mergers, fun hbound start hstart => ?_⟩
  have hfresh := Account.coherent_fresh s mergers
  have hle := (Account.start_addsEvents hstart (.fresh s mergers)).allotted_le
  have hn : ((Account.fresh s mergers).after start).allotted + 1 < UInt64.size := by omega
  have hc := Account.after_coherent start hfresh hn
  obtain ⟨fs, hdev, hreplies⟩ := Account.after_develops_replies start hfresh hn
  have hmem {f : Finding} (hf : f ∈ fs) : f.reply ∈ (Account.fresh s mergers).replies start := by
    rw [hreplies]
    exact List.mem_map_of_mem hf
  have hfs : ∀ f ∈ fs, hfull.kinship.Unites f.request := by
    intro f hf
    obtain ⟨c, hcs, hq⟩ := Account.asked_mem_asks (hmem hf)
    obtain ⟨c', hcc, hq'⟩ := hstart.mem_asks hcs hq
    exact hfull.unites_iff.mpr (hcalls c' hcc _ hq')
  have hfirst := Directory.respects_empty hfull.kinship
  have hn' : 0 + Finding.creations fs + 1 < UInt64.size := by
    have hal := hdev.allotted
    omega
  have hrespects := hdev.directory.respects hfresh hn' hfs hfirst
  refine ⟨Account.replies_asked hw start hfresh hn,
    fun i a ha => hfull.unites_iff.mp (hrespects i a ha), fun p reply hr ht hp => ?_⟩
  rw [hreplies] at hr
  obtain ⟨f, hf, rfl⟩ := List.mem_map.mp hr
  have hrow := hdev.directory.row_completed hfull hfresh hn' hfs hfirst hf ht hp
  refine ⟨hrow, fun i x hi hx => hc.unambiguous i _ x hi ⟨_, hrow, hx⟩, fun r hr hcov i hi => ?_⟩
  rw [hreplies] at hr
  obtain ⟨g, hg, rfl⟩ := List.mem_map.mp hr
  obtain ⟨x, hx⟩ := List.exists_mem_of_ne_nil _ g.request.identifiers_ne_nil
  have htracks := hdev.directory.tracks hfresh hn' hfs hfirst hg hi hx
  exact htracks.follow_eq hc (Address.covers_iff.mp hcov x hx) hrow

/-- Two peers, of which one is known by an account and the other by a phone number only. -/
def Address.samplePeer : Bool → Address
  | true => (ofAci (.sample 0)).withPni (.sample 0)
  | false => ofPni (.sample 1)

/-- The account and the phone-number identity, first met apart, end up on one row, to which both
handles lead. -/
theorem provingCalls_converge :
    ∃ account, (Account.load []).Returns (⟨∅⟩ : Memory) account ⟨∅⟩ ∧
      (account.after provingCalls).directory.rows.get? ⟨1⟩ = some (.samplePeer true) ∧
      (∀ i x, Carries (account.after provingCalls).directory.rows.get? i x →
        x ∈ (Address.samplePeer true).identifiers → i = ⟨1⟩) ∧
      (account.after provingCalls).directory.follow ⟨2⟩ = ⟨1⟩ := by
  have hapart : Apart Address.samplePeer := by
    unfold Apart
    decide
  have hcalls : ∀ c ∈ provingCalls, ∀ q ∈ c.asks,
      ∃ p, (Address.samplePeer p).covers q.1 = true := by
    decide
  obtain ⟨account, hload, h⟩ :=
    run_converges Memory.vacant Memory.reliable [] hapart hcalls
  obtain ⟨rfl, -⟩ := hload.unique (Account.load_vacant Memory.vacant [])
  have hn : ((Account.fresh (⟨∅⟩ : Memory) []).after provingCalls).allotted = 3 := rfl
  have hreplies : (Account.fresh (⟨∅⟩ : Memory) []).replies provingCalls =
      [⟨.ofAci (.sample 0), true, ⟨1⟩, []⟩, ⟨.ofPni (.sample 0), false, ⟨2⟩, []⟩,
        ⟨.samplePeer true, true, ⟨1⟩, [⟨2⟩]⟩, ⟨.ofPni (.sample 1), true, ⟨3⟩, []⟩] := rfl
  obtain ⟨-, -, hpeer⟩ := h (by rw [hn]; decide) provingCalls (.all _)
  rw [hreplies] at hpeer
  obtain ⟨hrow, hunique, hfollow⟩ := hpeer true ⟨.samplePeer true, true, ⟨1⟩, [⟨2⟩]⟩
    (by simp) rfl rfl
  exact ⟨_, hload, hrow, hunique, hfollow ⟨.ofPni (.sample 0), false, ⟨2⟩, []⟩ (by simp)
    (by decide) ⟨2⟩ (.inl rfl)⟩

end PeerBook
