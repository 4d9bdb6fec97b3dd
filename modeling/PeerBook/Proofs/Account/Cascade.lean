import PeerBook.Account.Resolve
import PeerBook.Proofs.Operation

/-!
# PeerBook.Proofs.Account.Cascade

Letting the stores follow the merges of a resolution. It always comes to an
end: a merger that fails is noted and the next one runs. The directory stays as
it is, the storage is touched by the mergers alone, and what the account tells
beside their failures are the merges, in order (`cascadeAll_returns`).

`Follows` is the whole of what later modules use of a cascade: news about peers,
and any property of the storage that every merger keeps (`Merger.Keeps`). For the
mergers of this library the property is that the keys of the directory are
spared, which they are since each store writes under prefixes of its own.
-/

namespace PeerBook

variable {σ : Type}

/-- Whether an event is about peers, and not about a store. -/
def Event.concernsPeers : Event → Bool
  | .cascadeFailed _ => false
  | _ => true

/-- A merger that leaves a property of the storage as it is, also where it fails. -/
def Merger.Keeps (m : Merger σ) (P : σ → Prop) : Prop :=
  ∀ surviving absorbed s, P s → P ((m.merge surviving absorbed).run s).state

namespace Account

/-- The events about peers that were sent so far, the oldest first. -/
def history (account : Account σ) : List Event := account.events.filter Event.concernsPeers

/-- An account goes on to another that tells some news about peers, with the directory and the
mergers as before; only the mergers touch the storage in between. -/
structure Follows (account account' : Account σ) (news : List Event) : Prop where
  directory : account'.directory = account.directory
  mergers : account'.mergers = account.mergers
  history : account'.history = account.history ++ news
  storage : ∀ P : σ → Prop, (∀ m ∈ account.mergers, m.Keeps P) → P account.storage →
    P account'.storage

theorem Follows.refl (account : Account σ) : account.Follows account [] :=
  ⟨rfl, rfl, (List.append_nil _).symm, fun _ _ h => h⟩

/-- The news of one stretch and of the next are told in this order. -/
theorem Follows.trans {account account' account'' : Account σ} {news news' : List Event}
    (h : account.Follows account' news) (h' : account'.Follows account'' news') :
    account.Follows account'' (news ++ news') := by
  refine ⟨h'.directory.trans h.directory, h'.mergers.trans h.mergers, ?_, fun P hm hP => ?_⟩
  · rw [h'.history, h.history, List.append_assoc]
  · refine h'.storage P ?_ (h.storage P hm hP)
    rw [h.mergers]
    exact hm

/-- What was told about peers grows by the events about peers. -/
theorem history_send (account : Account σ) (events : List Event) :
    ({ account with events := account.events ++ events } : Account σ).history =
      account.history ++ events.filter Event.concernsPeers := List.filter_append ..

end Account

/-! ## One merge -/

/-- A merger runs to its end, and answers a failure or none. -/
theorem Merger.follow_returns (surviving absorbed : PeerId) (m : Merger σ) (s : σ) :
    ∃ failure, (m.follow surviving absorbed).Returns s failure
      ((m.merge surviving absorbed).run s).state := by
  have ha := Op.returns_attempt (m.merge surviving absorbed) s
  unfold Merger.follow
  cases hr : ((m.merge surviving absorbed).run s).result with
  | ok u =>
      rw [hr] at ha
      exact ⟨none, ha.bind (Op.returns_pure _ _)⟩
  | error e =>
      rw [hr] at ha
      exact ⟨some _, ha.bind ((Op.returns_note _ _ _).bind (Op.returns_pure _ _))⟩

/-- All mergers run, and a property of the storage that each of them keeps holds in the end. The
property may be any; nothing is said of a merger that does not keep it. -/
theorem mergeAll_returns (mergers : List (Merger σ)) (surviving absorbed : PeerId) (s : σ) :
    ∃ failures s', (mergeAll mergers surviving absorbed).Returns s failures s' ∧
      ∀ P : σ → Prop, (∀ m ∈ mergers, m.Keeps P) → P s → P s' := by
  unfold mergeAll
  induction mergers generalizing s with
  | nil => exact ⟨[], s, Op.returns_pure _ s, fun _ _ h => h⟩
  | cons m ms ih =>
      obtain ⟨failure, hm⟩ := m.follow_returns surviving absorbed s
      obtain ⟨failures, s', hms, hkeep⟩ := ih ((m.merge surviving absorbed).run s).state
      refine ⟨failure.toList ++ failures, s', hm.bind (hms.bind (Op.returns_pure _ _)), ?_⟩
      intro P hP hs
      exact hkeep P (fun m' hm' => hP m' (List.mem_cons_of_mem m hm'))
        (hP m List.mem_cons_self surviving absorbed s hs)

namespace Account

/-- The failures of stores are not about peers. -/
theorem filter_failures (failures : List CascadeFailure) :
    (failures.map Event.cascadeFailed).filter Event.concernsPeers = [] := by
  rw [List.filter_eq_nil_iff]
  intro e he
  obtain ⟨f, -, rfl⟩ := List.mem_map.mp he
  exact Bool.false_ne_true

/-- The cascade of one merge comes to its end and tells the merge. -/
theorem cascade_returns (surviving absorbed : PeerId) (account : Account σ) :
    ∃ failures account', (cascade surviving absorbed).Returns account failures account' ∧
      account.Follows account' [.merged surviving absorbed] := by
  obtain ⟨failures, s', hm, hkeep⟩ :=
    mergeAll_returns account.mergers surviving absorbed account.storage
  have hz : (onStorage (mergeAll account.mergers surviving absorbed)).Returns account failures
      { account with storage := s' } := hm.zoom
  refine ⟨failures, _, (Op.returns_note _ _ _).bind ((Op.returns_state _).bind (hz.bind
    ((Op.returns_update _ _).bind (Op.returns_pure _ _)))), rfl, rfl, ?_, hkeep⟩
  rw [history_send, List.filter_cons_of_pos rfl, filter_failures]
  rfl

/-- **The cascade of a resolution comes to its end** and tells its merges. -/
theorem cascadeAll_returns (surviving : PeerId) (absorbed : List PeerId) (account : Account σ) :
    ∃ failures account', (cascadeAll surviving absorbed).Returns account failures account' ∧
      account.Follows account' (absorbed.map (.merged surviving)) := by
  induction absorbed generalizing account with
  | nil => exact ⟨[], account, Op.returns_pure _ _, .refl account⟩
  | cons a as ih =>
      obtain ⟨failures, account', h, hf⟩ := cascade_returns surviving a account
      obtain ⟨failures', account'', h', hf'⟩ := ih account'
      exact ⟨failures ++ failures', account'', h.bind (h'.bind (Op.returns_pure _ _)),
        hf.trans hf'⟩

end Account

end PeerBook
