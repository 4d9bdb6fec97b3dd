import PeerBook.Proofs.Account.Reopening
import PeerBook.Proofs.Account.Retries
import PeerBook.Proofs.Account.Occasions

/-!
# PeerBook.Proofs.Account.Indifference

The stores that follow merges have no say in who is who. Two accounts with one
directory agree (`Account.Agrees`) while their mergers leave alone what decides
how batches fare, whichever mergers they have and whatever these answer: every
request goes alike on both and leaves them so (`Call.perform_agrees`), and a
merger that is registered on one side only makes no difference. So two runs of
the same requests end with one directory, and have answered the same
(`mergers_cannot_influence_identity`).

What decides how batches fare is a relation between states of the storage
(`Storage.Interchangeable`). For a storage that takes every batch it may be that
the two have the same under the directory's own keys; for one that fails, what its
failures depend on has to be related as well. The failures of mergers are left
out of the comparison, as they are the mergers' own.
-/

namespace PeerBook

variable {σ : Type} {R : σ → σ → Prop}

/-- Whatever it is asked to follow, a merger leaves a state related to the one it found. -/
def Merger.Moves (m : Merger σ) (R : σ → σ → Prop) : Prop :=
  ∀ surviving absorbed, (m.merge surviving absorbed).Moves R

/-- States of a storage that are as good as each other for the batches to come. -/
structure Storage.Interchangeable [Storage σ] (R : σ → σ → Prop) : Prop where
  equivalence : Equivalence R
  writeBatch (ws : List Write) : (Storage.writeBatch ws : Op σ Unit).Respects R

/-! ## States with the same directory in them -/

section

variable {contents : σ → Contents}

/-- Two states have the same under every key of a directory. -/
def Directory.SameIn (contents : σ → Contents) (s t : σ) : Prop :=
  ∀ key, Directory.Owns key → (contents s).get? key = (contents t).get? key

/-- Where every batch is made, such states are interchangeable. -/
theorem Storage.interchangeable_sameIn [Storage σ]
    (h : Storage.Healthy contents fun _ : σ => True) :
    Storage.Interchangeable (Directory.SameIn contents) where
  equivalence :=
    ⟨fun _ _ _ => rfl, fun h key hk => (h key hk).symm,
      fun h h' key hk => (h key hk).trans (h' key hk)⟩
  writeBatch ws s t hst := by
    obtain ⟨s', hr, -, hs⟩ := h ws s trivial
    obtain ⟨t', hr', -, ht⟩ := h ws t trivial
    refine .of_returns hr hr' fun key hk => ?_
    rw [hs, ht]
    exact Contents.get?_applyAll_congr ws (.inl (hst key hk))

/-- A merger that leaves the keys of a directory alone leaves such a state. -/
theorem Merger.Spares.moves {m : Merger σ} (h : m.Spares contents) :
    m.Moves (Directory.SameIn contents) :=
  fun surviving absorbed s key hk => ((h surviving absorbed s).1 key hk).symm

end

/-! ## Accounts that agree -/

namespace Account

/-- Two accounts with one directory, which told the same of peers. They may have any mergers that
leave alone what matters of their storages, and have told of any failures. -/
structure Agrees (R : σ → σ → Prop) (a b : Account σ) : Prop where
  storage : R a.storage b.storage
  directory : a.directory = b.directory
  history : a.history = b.history
  left : ∀ m ∈ a.mergers, m.Moves R
  right : ∀ m ∈ b.mergers, m.Moves R

variable {a b c : Account σ}

theorem Agrees.symm (hR : Equivalence R) (h : a.Agrees R b) : b.Agrees R a :=
  ⟨hR.symm h.storage, h.directory.symm, h.history.symm, h.right, h.left⟩

/-- Accounts that agree with one agree with each other. -/
theorem Agrees.trans (hR : Equivalence R) (h : a.Agrees R b) (h' : b.Agrees R c) : a.Agrees R c :=
  ⟨hR.trans h.storage h'.storage, h.directory.trans h'.directory, h.history.trans h'.history,
    h.left, h'.right⟩

/-- A merger that is registered on one side makes no difference. -/
theorem Agrees.register (h : a.Agrees R b) {m : Merger σ} (hm : m.Moves R) :
    (a.register m).Agrees R b := by
  refine ⟨h.storage, h.directory, h.history, fun m' hm' => ?_, h.right⟩
  rcases List.mem_append.mp hm' with hm' | hm'
  · exact h.left m' hm'
  · obtain rfl := List.mem_singleton.mp hm'
    exact hm

/-- What the mergers do to follow the same merges leaves accounts that agree. That a storage is
related to the one from before is a property that each merger keeps. -/
theorem Agrees.follows (hR : Equivalence R) (h : a.Agrees R b) {a' b' : Account σ}
    {news : List Event} (ha : a.Follows a' news) (hb : b.Follows b' news) : a'.Agrees R b' where
  storage := by
    -- being related to the storage from before is what each merger keeps
    have hkeep {d : Account σ} (hd : ∀ m ∈ d.mergers, m.Moves R) :
        ∀ m ∈ d.mergers, m.Keeps (R d.storage) := fun m hm surviving absorbed s hs =>
      hR.trans hs (hd m hm surviving absorbed s)
    have hsa := ha.storage (R a.storage) (hkeep h.left) (hR.refl _)
    have hsb := hb.storage (R b.storage) (hkeep h.right) (hR.refl _)
    exact hR.trans (hR.symm hsa) (hR.trans h.storage hsb)
  directory := by rw [ha.directory, hb.directory, h.directory]
  history := by rw [ha.history, hb.history, h.history]
  left := by
    rw [ha.mergers]
    exact h.left
  right := by
    rw [hb.mergers]
    exact h.right

/-- What goes alike on the storages goes alike on the accounts. -/
theorem onStorage_agrees {α : Type} {op : Op σ α} (h : op.Respects R) :
    (onStorage op).Respects (Agrees R) := fun _ _ hab =>
  ⟨(h _ _ hab.storage).result, (h _ _ hab.storage).state, hab.directory, hab.history, hab.left,
    hab.right⟩

/-- The same events may be sent on both sides. -/
theorem send_agrees (events : List Event) : (send events).Respects (Agrees R) := fun a b hab => by
  refine ⟨rfl, hab.storage, hab.directory, ?_, hab.left, hab.right⟩
  exact (history_send a events).trans ((congrArg (· ++ _) hab.history).trans
    (history_send b events).symm)

variable [Storage σ] (hR : Storage.Interchangeable R)

include hR

/-- **A trusted resolution goes alike on accounts that agree**, but for the failures of the
mergers. -/
theorem resolveWith_agrees (h : a.Agrees R b) (markSelf : Bool) (request : Address) :
    (∃ e a' b', (resolveWith markSelf request).Fails a e a' ∧
        (resolveWith markSelf request).Fails b e b' ∧ a'.Agrees R b') ∨
      ∃ r r' a' b', (resolveWith markSelf request).Returns a r a' ∧
        (resolveWith markSelf request).Returns b r' b' ∧ r.peer = r'.peer ∧
        r.merged = r'.merged ∧ a'.Agrees R b' := by
  have hsub := Directory.submit_respects hR.writeBatch a.directory markSelf request _ _ h.storage
  obtain ⟨⟨outcome, d⟩, s, hs⟩ | ⟨e, s, hs⟩ :=
    Op.returns_or_fails (a.directory.submit markSelf request) a.storage
  · obtain ⟨t, ht, hst⟩ := hsub.returns hs
    rw [h.directory] at ht
    let published (account : Account σ) (u : σ) : Account σ :=
      { account with storage := u, directory := d, events := account.events ++ outcome.events }
    have hpublished : (published a s).Agrees R (published b t) :=
      ⟨hst, rfl, (send_agrees outcome.events a b h).state.history, h.left, h.right⟩
    obtain ⟨failures, a', hc, hf⟩ :=
      cascadeAll_returns outcome.peer outcome.merged (published a s)
    obtain ⟨failures', b', hc', hf'⟩ :=
      cascadeAll_returns outcome.peer outcome.merged (published b t)
    exact .inr ⟨_, _, a', b', resolveWith_of_returns hs hc, resolveWith_of_returns ht hc', rfl, rfl,
      hpublished.follows hR.equivalence hf hf'⟩
  · obtain ⟨t, ht, hst⟩ := hsub.fails hs
    rw [h.directory] at ht
    exact .inl ⟨e, _, _, resolveWith_of_fails hs, resolveWith_of_fails ht,
      ⟨hst, h.directory, h.history, h.left, h.right⟩⟩

/-- A look-up goes alike on accounts that agree: it goes by the directory, and its batch fares alike
on both storages. -/
theorem lookup_agrees (request : Address) :
    (lookup request : Op (Account σ) _).Respects (Agrees R) := by
  refine .state_bind ?_
  rintro ⟨s, d, mergers, events⟩ ⟨t, _, mergers', events'⟩ hab
  obtain rfl : d = _ := hab.directory
  dsimp only
  cases d.bestMatch? request with
  | some p => exact Op.Respects.pure p.id _ _ hab
  | none =>
      dsimp only
      have hpublish (d' : Directory) : (Op.update fun account : Account σ =>
          { account with directory := d' }).Respects (Agrees R) := fun _ _ h =>
        ⟨rfl, h.storage, rfl, h.history, h.left, h.right⟩
      refine Op.Respects.bind (.note _ _) (fun _ => .bind (.within _ _) fun (id, tx) => ?_) _ _ hab
      exact .bind (onStorage_agrees (tx.commit_respects hR.writeBatch)) fun d' =>
        .bind (hpublish d') fun _ => .bind (send_agrees _) fun _ => .pure id

end Account

/-! ## Requests go alike -/

/-- Whether a call asks for peers, and does not register a merger. -/
def Call.isRequest : Call σ → Bool
  | .register _ => false
  | _ => true

/-- The requests among calls. -/
def Call.requests (calls : List (Call σ)) : List (Call σ) := calls.filter Call.isRequest

variable [Storage σ]

/-- A batch answers for its first member and then for the others. -/
theorem Call.perform_resolveBatch_cons (a : Address) (as : List Address) :
    (Call.resolveBatch (a :: as) : Call σ).perform = do
      let replies ← (Call.resolve false a).perform
      let replies' ← (Call.resolveBatch as).perform
      return replies ++ replies' := by
  simp [Call.perform, Account.resolveBatch, Account.resolve]

/-- **A request goes alike on accounts that agree**, and leaves accounts that agree. The failures of
the stores are in no reply, so the replies are the same. -/
theorem Call.perform_agrees (hR : Storage.Interchangeable R) {c : Call σ}
    (hc : c.isRequest = true) : (c.perform : Op (Account σ) _).Respects (Account.Agrees R) := by
  have hresolve (markSelf : Bool) (request : Address) :
      (Call.resolve markSelf request : Call σ).perform.Respects (Account.Agrees R) := by
    intro a b hab
    obtain ⟨e, a', b', hf, hf', h⟩ | ⟨r, r', a', b', hr, hr', hp, hm, h⟩ :=
      Account.resolveWith_agrees hR hab markSelf request
    · exact .of_fails (hf.bind _) (hf'.bind _) h
    · have hreply : Reply.ofResolution request r = .ofResolution request r' := by
        rw [Reply.ofResolution, Reply.ofResolution, hp, hm]
      have hra : (Call.resolve markSelf request).perform.Returns a [.ofResolution request r] a' :=
        hr.bind (Op.returns_pure _ _)
      rw [hreply] at hra
      exact .of_returns hra (hr'.bind (Op.returns_pure _ _)) h
  cases c with
  | resolve markSelf request => exact hresolve markSelf request
  | resolveBatch requests =>
      induction requests with
      | nil => exact .bind (.pure []) fun _ => .pure _
      | cons a as ih =>
          rw [Call.perform_resolveBatch_cons]
          exact .bind (hresolve false a) fun _ => .bind (ih rfl) fun _ => .pure _
  | lookup request => exact .bind (Account.lookup_agrees hR request) fun _ => .pure _
  | register m => contradiction

/-! ## Runs of the same requests -/

namespace Account

/-- The answers to the requests of a run, the oldest first. -/
def answers (account : Account σ) : List (Call σ) → List (Except Error (List Reply))
  | [] => []
  | c :: cs =>
    (if c.isRequest then [(c.perform.run account).result] else []) ++
      answers (c.perform.run account).state cs

/-- A run goes as its requests do on an account that agrees: registering a merger is a call that
answers nothing and can be left out. -/
theorem Agrees.requests (hR : Storage.Interchangeable R) {calls : List (Call σ)}
    (hm : ∀ c ∈ calls, ∀ m ∈ (Move.call c).mergers, m.Moves R) {a b : Account σ}
    (h : a.Agrees R b) : a.answers calls = b.answers (Call.requests calls) ∧
      (a.after calls).Agrees R (b.after (Call.requests calls)) := by
  induction calls generalizing a b with
  | nil => exact ⟨rfl, h⟩
  | cons c cs ih =>
      have hms : ∀ c ∈ cs, ∀ m ∈ (Move.call c).mergers, m.Moves R :=
        fun c' hc' => hm c' (List.mem_cons_of_mem c hc')
      cases hc : c.isRequest with
      | true =>
          obtain ⟨hresult, hstate⟩ := c.perform_agrees hR hc a b h
          obtain ⟨hanswers, hafter⟩ := ih hms hstate
          rw [Call.requests, List.filter_cons_of_pos hc, answers, answers, hc, if_pos rfl,
            if_pos rfl, hresult, hanswers]
          exact ⟨rfl, hafter⟩
      | false =>
          cases c with
          | resolve | resolveBatch | lookup => contradiction
          | register m =>
              have hmove := hm _ List.mem_cons_self m (List.mem_singleton.mpr rfl)
              exact ih hms (h.register hmove)

/-- Two runs of the same requests go alike, whichever mergers they register. -/
theorem Agrees.runs (hR : Storage.Interchangeable R) {calls calls' : List (Call σ)}
    (hsame : Call.requests calls' = Call.requests calls)
    (hm : ∀ c ∈ calls, ∀ m ∈ (Move.call c).mergers, m.Moves R)
    (hm' : ∀ c ∈ calls', ∀ m ∈ (Move.call c).mergers, m.Moves R) {a b : Account σ}
    (h : a.Agrees R b) : a.answers calls = b.answers calls' ∧
      (a.after calls).Agrees R (b.after calls') := by
  -- both runs are compared with their requests alone, on the second account
  have hself : b.Agrees R b := (h.symm hR.equivalence).trans hR.equivalence h
  obtain ⟨hanswers, hafter⟩ := h.requests hR hm
  obtain ⟨hanswers', hafter'⟩ := hself.requests hR hm'
  rw [hsame] at hanswers' hafter'
  exact ⟨hanswers.trans hanswers'.symm,
    hafter.trans hR.equivalence (hafter'.symm hR.equivalence)⟩

end Account

/-- **The stores have no say in who is who.** From an empty storage, in a run that does not use up
the handles: each handle that is absorbed is passed to every merger that is registered by then, in
order, each once in the whole run, together with the peer answered, which is another handle and has
a row; the failures answered are those of the mergers that failed; and the mergers are called for
nothing else. And any other run of the same requests, with whichever mergers, however these fare,
ends with the same directory, and answers and tells the same about peers, as long as in both runs
the mergers leave alone what decides how the storage takes batches. -/
theorem mergers_cannot_influence_identity {s : σ} (hs : Storage.Vacant s)
    (mergers : List (Merger σ)) (calls : List (Call σ)) :
    ∃ account, (Account.load mergers).Returns s account s ∧
      ((account.after calls).allotted < UInt64.size - 1 →
        let seen := (account.occasions calls).flatMap Occasion.visits
        (account.attended []).after (calls.map Call.attended) =
            (account.after calls).attended seen ∧
          (∀ o ∈ account.occasions calls, ∀ r after, o.Answers r after → o.Followed r after seen) ∧
          ∀ v ∈ seen, ∃ o ∈ account.occasions calls, ∃ r after, o.Answers r after ∧
            v.surviving = r.peer ∧ v.absorbed ∈ r.merged) ∧
      ∀ R : σ → σ → Prop, Storage.Interchangeable R → (∀ m ∈ mergers, m.Moves R) →
        (∀ c ∈ calls, ∀ m ∈ (Move.call c).mergers, m.Moves R) → ∀ mergers' calls',
        Call.requests calls' = Call.requests calls → (∀ m ∈ mergers', m.Moves R) →
        (∀ c ∈ calls', ∀ m ∈ (Move.call c).mergers, m.Moves R) →
        ∃ account', (Account.load mergers').Returns s account' s ∧
          (account'.after calls').directory = (account.after calls).directory ∧
          account'.answers calls' = account.answers calls ∧
          (account'.after calls').history = (account.after calls).history ∧
          R (account.after calls).storage (account'.after calls').storage := by
  refine ⟨.fresh s mergers, Account.load_vacant hs mergers, fun hbound => ?_, ?_⟩
  · have hn : ((Account.fresh s mergers).after calls).allotted + 1 < UInt64.size := by omega
    have hc := Account.coherent_fresh s mergers
    refine ⟨Account.after_attended calls _ [], fun o ho r after => ?_, fun v hv => ?_⟩
    · exact Account.occasions_followed hc hn ho
    · obtain ⟨o, ho, hv⟩ := List.mem_flatMap.mp hv
      exact ⟨o, ho, Occasion.answers_of_mem_visits hv⟩
  · intro R hR hm hcalls mergers' calls' hsame hm' hcalls'
    have hfresh : (Account.fresh s mergers).Agrees R (.fresh s mergers') :=
      ⟨hR.equivalence.refl s, rfl, rfl, hm, hm'⟩
    obtain ⟨hanswers, hafter⟩ := hfresh.runs hR hsame hcalls hcalls'
    exact ⟨.fresh s mergers', Account.load_vacant hs mergers', hafter.directory.symm,
      hanswers.symm, hafter.history.symm, hafter.storage⟩

/-- In memory, states that have the same under the keys of a directory are interchangeable. -/
theorem Memory.interchangeable_sameIn :
    Storage.Interchangeable (Directory.SameIn Memory.contents) :=
  Storage.interchangeable_sameIn fun _ _ _ => ⟨_, ⟨rfl, rfl⟩, trivial, rfl⟩

/-- Two peers are proved to be one, and the one merger fails to follow. The merger was called for
that once, and a run where the send log follows instead ends with the same directory and answers. -/
theorem provingCalls_are_not_influenced :
    ∃ account account', (Account.load [.refusing]).Returns (⟨∅⟩ : Memory) account ⟨∅⟩ ∧
      (Account.load []).Returns (⟨∅⟩ : Memory) account' ⟨∅⟩ ∧
      (account.after provingCalls).allotted = 3 ∧
      (account.after provingCalls).directory.follow ⟨2⟩ = ⟨1⟩ ∧
      (∃ o ∈ account.occasions provingCalls, ∃ r after, o.Answers r after ∧ ⟨2⟩ ∈ r.merged ∧
        o.Followed r after ((account.occasions provingCalls).flatMap Occasion.visits)) ∧
      ((account.occasions provingCalls).flatMap Occasion.visits).map
        (fun v => (v.merger.name, v.surviving, v.absorbed)) = [("sessions", ⟨1⟩, ⟨2⟩)] ∧
      (account'.after (.register SendLog.merger :: provingCalls)).directory =
        (account.after provingCalls).directory ∧
      account'.answers (.register SendLog.merger :: provingCalls) =
        account.answers provingCalls := by
  obtain ⟨account, hload, hfollow, hsame⟩ :=
    mergers_cannot_influence_identity Memory.vacant [.refusing] provingCalls
  obtain ⟨rfl, -⟩ := hload.unique (Account.load_vacant Memory.vacant [.refusing])
  have hrun (account : Account Memory) (ha : account = .fresh ⟨∅⟩ [.refusing]) :
      (account.after provingCalls).allotted = 3 ∧
        (account.after provingCalls).directory.follow ⟨2⟩ = ⟨1⟩ ∧
        ⟨2⟩ ∈ (account.occasions provingCalls).flatMap Occasion.absorbed ∧
        ((account.occasions provingCalls).flatMap Occasion.visits).map
          (fun v => (v.merger.name, v.surviving, v.absorbed)) = [("sessions", ⟨1⟩, ⟨2⟩)] := by
    subst ha
    decide +kernel
  generalize hf : Account.fresh (⟨∅⟩ : Memory) [.refusing] = account at hload hfollow hsame
  obtain ⟨hn, hled, habsorbed, hseen⟩ := hrun account hf.symm
  obtain ⟨-, hoccasions, -⟩ := hfollow (by rw [hn]; decide)
  obtain ⟨o, ho, hi⟩ := List.mem_flatMap.mp habsorbed
  obtain ⟨r, after, hr, hi⟩ := Occasion.answers_of_mem_absorbed hi
  have hrefusing : (Merger.refusing : Merger Memory).Moves (Directory.SameIn Memory.contents) :=
    fun _ _ _ _ _ => rfl
  have hlog : (SendLog.merger : Merger Memory).Moves (Directory.SameIn Memory.contents) :=
    (SendLog.merger_spares Memory.atomic).moves
  have hnone : ∀ c ∈ provingCalls, ∀ m ∈ (Move.call c).mergers, False := by
    simp only [provingCalls, List.forall_mem_cons]
    exact ⟨nofun, nofun, nofun, nofun⟩
  obtain ⟨account', hload', hdirectory, hanswers, -⟩ := hsame _ Memory.interchangeable_sameIn
    (List.forall_mem_singleton.mpr hrefusing) (fun c hc m hm => absurd (hnone c hc m hm) id) []
    (.register SendLog.merger :: provingCalls) rfl nofun
    (List.forall_mem_cons.mpr ⟨List.forall_mem_singleton.mpr hlog,
      fun c hc m hm => absurd (hnone c hc m hm) id⟩)
  exact ⟨account, account', hload, hload', hn, hled,
    ⟨o, ho, r, after, hr, hi, hoccasions o ho r after hr⟩, hseen, hdirectory, hanswers⟩

end PeerBook
