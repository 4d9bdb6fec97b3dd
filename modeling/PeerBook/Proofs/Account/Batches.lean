import PeerBook.Proofs.Account.Retries
import PeerBook.Proofs.Operation.Simulates

/-!
# PeerBook.Proofs.Account.Batches

Resolutions under a lock. While an account is locked its events wait
(`Locked`), and they are sent when the lock is released: after one resolution if
it succeeded (`Account.resolveAlone`), after several in any case
(`Account.resolveTogether`). A locked account goes as one whose waiting events
were sent at once (`Locked.resolve_simulates`), and a resolution that fails
leaves none waiting. So resolving addresses together under one lock is resolving
them alone one after the other, up to the first that fails
(`batch_is_the_sequence_of_its_members`).

This also says that the simpler `Account.resolveBatch`, which sends each event as
it comes, is the same batch to whoever calls it (`Account.resolveTogether_eq`).
What is used is that no operation depends on what was told before
(`Account.Oblivious`): events are appended and never read.
-/

namespace PeerBook

/-- A locked account, with the events that wait for its release. -/
structure Locked (σ : Type) where
  account : Account σ
  waiting : List Event

/-! ## Under the lock -/

namespace Locked

variable {σ α : Type}

/-- Runs an operation on the account. -/
def onAccount (op : Op (Account σ) α) : Op (Locked σ) α :=
  op.zoom account fun account l => { l with account }

/-- Lets events wait. -/
def hold (events : List Event) : Op (Locked σ) Unit :=
  Op.update fun l => { l with waiting := l.waiting ++ events }

/-- Lets the stores follow the merge of one peer into another. -/
def cascade (surviving absorbed : PeerId) : Op (Locked σ) (List CascadeFailure) := do
  Op.note .debug ("Merging recipient " ++ toString absorbed ++ " into " ++ toString surviving)
  let mergers := (← Op.state).account.mergers
  let failures ← onAccount (Account.onStorage (mergeAll mergers surviving absorbed))
  hold (.merged surviving absorbed :: failures.map .cascadeFailed)
  return failures

/-- Lets the stores follow the merges of several peers into one, in order. -/
def cascadeAll (surviving : PeerId) : List PeerId → Op (Locked σ) (List CascadeFailure)
  | [] => pure []
  | absorbed :: rest => do
    let failures ← cascade surviving absorbed
    return failures ++ (← cascadeAll surviving rest)

variable [Storage σ]

/-- Resolves a trusted request under the lock. -/
def resolve (markSelf : Bool) (request : Address) : Op (Locked σ) Resolution := do
  let outcome ← onAccount (Account.reconcileDirectory markSelf request)
  hold outcome.events
  let failures ← cascadeAll outcome.peer outcome.merged
  return ⟨outcome.peer, outcome.merged, failures⟩

/-- Resolves trusted requests in order, and stops at the first failure. -/
def resolveEach : List Address → Op (Locked σ) (List Resolution)
  | [] => pure []
  | request :: rest => do
    let r ← resolve false request
    return r :: (← resolveEach rest)

end Locked

/-! ## Lock and release -/

namespace Account

variable {σ α : Type}

/-- Runs an operation under the lock, and answers with the events that wait at its end. -/
def locked (op : Op (Locked σ) α) : Op (Account σ) (α × List Event) :=
  (do return (← op, (← Op.state).waiting) : Op (Locked σ) _).zoom (⟨·, []⟩) fun l _ => l.account

variable [Storage σ]

/-- Resolves a trusted request and sends its events. -/
def resolveAlone (request : Address) : Op (Account σ) Resolution := do
  let (r, events) ← locked (Locked.resolve false request)
  send events
  return r

/-- Resolves trusted requests under one lock, and sends their events however it ends. -/
def resolveTogether (requests : List Address) : Op (Account σ) (List Resolution) := do
  let (rs, events) ← locked (Locked.resolveEach requests).attempt
  send events
  Op.ofExcept rs

/-- An account after it sent events. -/
def telling (account : Account σ) (events : List Event) : Account σ :=
  { account with events := account.events ++ events }

end Account

/-- A locked account that was released. -/
def Locked.release {σ : Type} (l : Locked σ) : Account σ := l.account.telling l.waiting

/-! ## Events that were sent at once -/

section

variable {σ α : Type}

/-- An operation that does as it does whatever was told before. -/
def Account.Oblivious (op : Op (Account σ) α) : Prop :=
  ∀ events, op.Simulates op fun a b => b = a.telling events

namespace Account

/-- What is done on the storage does not depend on what was told. -/
theorem onStorage_oblivious (op : Op σ α) : Oblivious (onStorage op) := by
  rintro events a _ rfl
  exact ⟨rfl, rfl, rfl⟩

/-- A change of the account that leaves the events alone does not depend on what was told. -/
theorem update_oblivious {f : Account σ → Account σ}
    (hf : ∀ account events, f (account.telling events) = (f account).telling events) :
    Oblivious (Op.update f) := by
  rintro events a _ rfl
  exact ⟨rfl, hf a events, rfl⟩

/-- **The directory is reconciled without regard to what was told.** -/
theorem reconcileDirectory_oblivious [Storage σ] (markSelf : Bool) (request : Address) :
    Oblivious (reconcileDirectory markSelf request : Op (Account σ) _) := by
  intro events
  refine .state_bind ?_
  rintro a _ rfl
  refine Op.Simulates.bind (R := fun a b => b = a.telling events) (.within _ _)
    (fun settled : Reconciliation × Transaction => ?_) a _ rfl
  refine .bind (onStorage_oblivious _ events) fun directory => .bind ?_ fun _ => .pure settled.1
  exact update_oblivious (fun _ _ => rfl) events

end Account

namespace Locked

/-- An account goes as a locked one would if it were released. -/
def Stands (l : Locked σ) (account : Account σ) : Prop := account = l.release

/-- An operation that does not depend on what was told goes under the lock as without it. -/
theorem onAccount_simulates {op : Op (Account σ) α} (h : Account.Oblivious op) :
    (onAccount op).Simulates op Stands := by
  rintro l _ rfl
  obtain ⟨hr, hs, hl⟩ := h l.waiting l.account _ rfl
  exact ⟨hr, hs, hl⟩

/-- Events that wait are events that were sent, once the account is released. -/
theorem hold_simulates (events : List Event) :
    (hold events : Op (Locked σ) Unit).Simulates (Account.send events) Stands := by
  rintro l _ rfl
  refine ⟨rfl, ?_, rfl⟩
  show { l.release with events := l.release.events ++ events } =
    l.account.telling (l.waiting ++ events)
  simp [release, Account.telling]

/-- A merge that is followed under the lock is followed as without it, its events waiting. -/
theorem cascade_simulates (surviving absorbed : PeerId) :
    (cascade surviving absorbed : Op (Locked σ) _).Simulates (Account.cascade surviving absorbed)
      Stands := by
  refine .bind (.note _ _) fun _ => .state_bind ?_
  rintro l _ rfl
  refine Op.Simulates.bind (R := Stands) (onAccount_simulates (Account.onStorage_oblivious _))
    (fun failures => ?_) l _ rfl
  exact .bind (hold_simulates _) fun _ => .pure failures

/-- So are several merges, by induction on their list. -/
theorem cascadeAll_simulates (surviving : PeerId) (absorbed : List PeerId) :
    (cascadeAll surviving absorbed : Op (Locked σ) _).Simulates
      (Account.cascadeAll surviving absorbed) Stands := by
  induction absorbed with
  | nil => exact .pure []
  | cons a as ih => exact .bind (cascade_simulates surviving a) fun _ => .bind ih fun _ => .pure _

variable [Storage σ]

/-- **A resolution under the lock goes as one that sends its events at once.** -/
theorem resolve_simulates (markSelf : Bool) (request : Address) :
    (resolve markSelf request : Op (Locked σ) _).Simulates (Account.resolveWith markSelf request)
      Stands :=
  .bind (onAccount_simulates (Account.reconcileDirectory_oblivious markSelf request)) fun outcome =>
    .bind (hold_simulates _) fun _ => .bind (cascadeAll_simulates outcome.peer outcome.merged)
      fun _ => .pure _

/-- Resolutions in order go under the lock as without it. -/
theorem resolveEach_simulates (requests : List Address) :
    (resolveEach requests : Op (Locked σ) _).Simulates (Account.resolveBatch requests) Stands := by
  induction requests with
  | nil => exact .pure []
  | cons request rest ih =>
      exact .bind (resolve_simulates false request) fun _ => .bind ih fun _ => .pure _

/-- A resolution that fails lets no event wait: it fails before it has anything to tell, in deciding
or in the commit. -/
theorem waiting_of_resolve_fails {markSelf : Bool} {request : Address} {l l' : Locked σ}
    {e : Error} (h : (resolve markSelf request).Fails l e l') : l'.waiting = l.waiting := by
  obtain ⟨outcome, l₁, hr⟩ | ⟨e', l₁, hf⟩ :=
    Op.returns_or_fails (onAccount (Account.reconcileDirectory markSelf request)) l
  · -- once the directory is reconciled nothing fails
    have hhold : (hold outcome.events).Returns l₁ ()
        { l₁ with waiting := l₁.waiting ++ outcome.events } := Op.returns_update _ l₁
    obtain ⟨failures, account, hcascade, -⟩ :=
      Account.cascadeAll_returns outcome.peer outcome.merged
        (release { l₁ with waiting := l₁.waiting ++ outcome.events })
    have hok := (cascadeAll_simulates outcome.peer outcome.merged _ _ rfl).result.trans hcascade.1
    have hrest : (cascadeAll outcome.peer outcome.merged >>= fun failures =>
        pure (Resolution.mk outcome.peer outcome.merged failures) : Op (Locked σ) _).Returns _
        ⟨outcome.peer, outcome.merged, failures⟩ _ :=
      Op.Returns.bind ⟨hok, rfl⟩ (Op.returns_pure _ _)
    exact absurd (hr.bind (hhold.bind hrest)).1 (h.not_ok _)
  · obtain ⟨-, rfl⟩ := h.unique (hf.bind _)
    rw [← hf.2]
    rfl

end Locked

end

/-! ## One after the other -/

section

variable {σ α β : Type}

/-- Operations for each member of a list answer in turn, each from the state that the one before
left. -/
inductive Op.InTurn (f : α → Op σ β) : σ → List α → List β → σ → Prop
  | nil (s : σ) : InTurn f s [] [] s
  | cons {s s' s'' : σ} {a : α} {as : List α} {b : β} {bs : List β} (head : (f a).Returns s b s')
      (tail : InTurn f s' as bs s'') : InTurn f s (a :: as) (b :: bs) s''

/-- Operations one after the other all answer, or stop at the first that fails; then those before it
have answered in turn, and what they did stays. -/
theorem Op.mapM_cases (f : α → Op σ β) (as : List α) (s : σ) :
    (∃ bs s', InTurn f s as bs s' ∧ (as.mapM f).Returns s bs s') ∨
      ∃ done a later bs s' e s'', as = done ++ a :: later ∧ InTurn f s done bs s' ∧
        (f a).Fails s' e s'' ∧ (as.mapM f).Fails s e s'' := by
  induction as generalizing s with
  | nil => exact .inl ⟨[], s, .nil s, by rw [List.mapM_nil]; exact returns_pure [] s⟩
  | cons a as ih =>
      rw [List.mapM_cons]
      obtain ⟨b, s₁, hr⟩ | ⟨e, s₁, hf⟩ := returns_or_fails (f a) s
      · obtain ⟨bs, s', hturn, hrest⟩ | ⟨done, a', later, bs, s', e, s'', rfl, hturn, hf, hrest⟩ :=
          ih s₁
        · exact .inl ⟨b :: bs, s', .cons hr hturn, hr.bind (hrest.bind (returns_pure _ _))⟩
        · exact .inr ⟨a :: done, a', later, b :: bs, s', e, s'', rfl, .cons hr hturn, hf,
            hr.bind_fails (hrest.bind _)⟩
      · exact .inr ⟨[], a, as, [], s, e, s₁, rfl, .nil s, hf, hf.bind _⟩

end

namespace Account

variable {σ α : Type}

/-- An operation under the lock starts without waiting events and answers those that wait at its
end. -/
theorem run_locked (op : Op (Locked σ) α) (account : Account σ) :
    (locked op).run account = ⟨(op.run ⟨account, []⟩).result.map
      (·, (op.run ⟨account, []⟩).state.waiting), (op.run ⟨account, []⟩).state.account,
      (op.run ⟨account, []⟩).log⟩ := by
  rw [locked, Op.run_zoom, Op.run_bind]
  rcases op.run ⟨account, []⟩ with ⟨_ | r, l, log⟩
  · rfl
  · simp only [Op.andThen_ok, Except.map]
    refine congrArg (Outcome.mk _ _) ?_
    exact List.append_nil log

theorem telling_nil (account : Account σ) : account.telling [] = account := by
  simp [telling]

variable [Storage σ]

/-- **Alone, a request is resolved** as if its events were sent at once. Where it fails no event
waits that would be kept back. -/
theorem resolveAlone_eq (request : Address) :
    (resolveAlone request : Op (Account σ) _) = resolve request := by
  refine Op.ext_run fun account => ?_
  have hm := (Locked.resolve_simulates false request ⟨account, []⟩ account
    (telling_nil account).symm).eq
  rw [resolve, hm, resolveAlone, Op.run_bind, run_locked]
  cases ho : (Locked.resolve false request).run ⟨account, []⟩ with
  | mk r l log =>
      cases r with
      | ok r => exact congrArg (Outcome.mk _ _) (List.append_nil log)
      | error e =>
          have hf : (Locked.resolve false request).Fails ⟨account, []⟩ e l := by
            rw [Op.Fails, ho]
            exact ⟨rfl, rfl⟩
          -- no event waits that would not be sent
          have hw : l.waiting = [] := Locked.waiting_of_resolve_fails hf
          rw [Locked.release, hw, telling_nil]
          rfl

/-- **Together, requests are resolved** as if their events were sent at once. -/
theorem resolveTogether_eq (requests : List Address) :
    (resolveTogether requests : Op (Account σ) _) = resolveBatch requests := by
  refine Op.ext_run fun account => ?_
  have hm := (Locked.resolveEach_simulates requests ⟨account, []⟩ account
    (telling_nil account).symm).eq
  rw [hm, resolveTogether, Op.run_bind, run_locked, Op.run_attempt]
  cases ho : (Locked.resolveEach requests).run ⟨account, []⟩ with
  | mk r l log =>
      cases r with
      | ok rs => exact congrArg (Outcome.mk _ _) (List.append_nil log)
      | error e => exact congrArg (Outcome.mk _ _) (List.append_nil log)

/-- A batch goes through its members in order and stops at the first that fails. -/
theorem resolveBatch_eq_mapM (requests : List Address) :
    (resolveBatch requests : Op (Account σ) _) = requests.mapM resolve := by
  induction requests with
  | nil => rfl
  | cons request rest ih => rw [List.mapM_cons, ← ih, resolveBatch]

/-- **A batch is the sequence of its members.** On any account, whatever fails in its storage and in
its stores, resolving requests together is resolving them alone one after the other, with the same
storage, directory and stores in the end, the same events in the same order, and the same log. All
are resolved in turn and their resolutions are answered, or the first that fails is answered with
its error: it sends no event and leaves the directory, and nothing is done for those after it. These
are the calls of an account for one request and for several. -/
theorem batch_is_the_sequence_of_its_members (requests : List Address) (account : Account σ) :
    (resolveTogether requests).run account = (requests.mapM resolveAlone).run account ∧
    ((∃ rs account', Op.InTurn resolveAlone account requests rs account' ∧
        (resolveTogether requests).Returns account rs account') ∨
      ∃ done request later rs before e after, requests = done ++ request :: later ∧
        Op.InTurn resolveAlone account done rs before ∧
        (resolveAlone request).Fails before e after ∧
        (resolveTogether requests).Fails account e after ∧
        after = { before with storage := after.storage }) ∧
    (resolveAlone : Address → Op (Account σ) _) = resolve ∧
      (resolveTogether : List Address → Op (Account σ) _) = resolveBatch := by
  have halone : (resolveAlone : Address → Op (Account σ) _) = resolve := funext resolveAlone_eq
  have heq : (resolveTogether requests : Op (Account σ) _) = requests.mapM resolveAlone := by
    rw [resolveTogether_eq, resolveBatch_eq_mapM, halone]
  refine ⟨by rw [heq], ?_, halone, funext resolveTogether_eq⟩
  rw [heq]
  refine (Op.mapM_cases resolveAlone requests account).imp_right ?_
  rintro ⟨done, request, later, rs, before, e, after, happ, hturn, hf, hfails⟩
  refine ⟨done, request, later, rs, before, e, after, happ, hturn, hf, hfails, ?_⟩
  rw [halone] at hf
  obtain ⟨s, rfl, -⟩ := submit_of_resolveWith_fails hf
  rfl

end Account

end PeerBook
