import PeerBook.Proofs.Account.Retries

/-!
# PeerBook.Proofs.Account.Attended

Watching the stores follow. An attended storage is a storage with a list of
visits beside it, and an attended merger does what the merger does and then adds
its visit to the list: which merger was called, for which merge, and how it
ended. Nothing else touches the list, and an account whose storage and mergers
are attended goes as the account itself (`Op.Watches`). So the list tells which
mergers a resolution calls, and in which order (`Account.resolveWith_watches`).

Which mergers run cannot be seen from an answer, since a merger may do nothing,
nor from the storage. The list is therefore built into the state, and the proof
that it changes nothing goes through the program rule by rule
(`Op.Watches.bind`, `mergeAll_watches`, `cascadeAll_watches`).
-/

namespace PeerBook

/-- A call of a merger: for which merge, and how it ended. -/
structure Visit (σ : Type) where
  merger : Merger σ
  surviving : PeerId
  absorbed : PeerId
  result : Except Error Unit

namespace Visit

variable {σ : Type}

/-- The failure that a visit ended with, if it did. -/
def failure? (v : Visit σ) : Option CascadeFailure :=
  match v.result with
  | .ok () => none
  | .error e => some ⟨v.merger.name, v.surviving, v.absorbed, e.message⟩

/-- Who is visited, and for which merge. -/
def errand (v : Visit σ) : Merger σ × PeerId × PeerId := (v.merger, v.surviving, v.absorbed)

/-- The failures of visits, in order. -/
def failures (vs : List (Visit σ)) : List CascadeFailure := vs.filterMap failure?

/-- The visits about the merge of a peer. -/
def about (vs : List (Visit σ)) (absorbed : PeerId) : List (Visit σ) :=
  vs.filter (·.absorbed = absorbed)

theorem failures_append (vs ws : List (Visit σ)) :
    failures (vs ++ ws) = failures vs ++ failures ws :=
  List.filterMap_append

theorem about_append (vs ws : List (Visit σ)) (i : PeerId) :
    about (vs ++ ws) i = about vs i ++ about ws i := List.filter_append ..

/-- Where all visits are about one peer, none is left out. -/
theorem about_eq_self {vs : List (Visit σ)} {i : PeerId} (h : ∀ v ∈ vs, v.absorbed = i) :
    about vs i = vs := List.filter_eq_self.mpr fun v hv => decide_eq_true (h v hv)

/-- Where no visit is about a peer, none is left. -/
theorem about_eq_nil {vs : List (Visit σ)} {i : PeerId} (h : ∀ v ∈ vs, v.absorbed ≠ i) :
    about vs i = [] := List.filter_eq_nil_iff.mpr fun v hv => by simpa using h v hv

end Visit

/-- A storage and the visits so far, the oldest first. -/
structure Attended (σ : Type) where
  inner : σ
  visits : List (Visit σ)

namespace Attended

variable {σ α : Type}

/-- Runs an operation on the storage inside. -/
def lift (op : Op σ α) : Op (Attended σ) α := op.zoom inner fun s a => { a with inner := s }

/-- Adds a visit. -/
def note (v : Visit σ) : Op (Attended σ) Unit :=
  Op.update fun a => { a with visits := a.visits ++ [v] }

instance [Storage σ] : Storage (Attended σ) where
  get key := lift (Storage.get key)
  put key value := lift (Storage.put key value)
  del key := lift (Storage.del key)
  list keyPrefix := lift (Storage.list keyPrefix)
  writeBatch ws := lift (Storage.writeBatch ws)

end Attended

variable {σ : Type}

/-- The merger with its visits noted. -/
def Merger.attended (m : Merger σ) : Merger (Attended σ) where
  name := m.name
  merge surviving absorbed := do
    let result ← (Attended.lift (m.merge surviving absorbed)).attempt
    Attended.note ⟨m, surviving, absorbed, result⟩
    Op.ofExcept result

/-- A merger that never succeeds. -/
def Merger.refusing : Merger σ where
  name := "sessions"
  merge _ _ := Storage.fault .writeFile

/-- The call with the merger that it registers attended. -/
def Call.attended : Call σ → Call (Attended σ)
  | .resolve markSelf request => .resolve markSelf request
  | .resolveBatch requests => .resolveBatch requests
  | .lookup request => .lookup request
  | .register m => .register m.attended

/-- The account with its mergers attended, after some visits. -/
def Account.attended (account : Account σ) (visits : List (Visit σ)) : Account (Attended σ) :=
  ⟨⟨account.storage, visits⟩, account.directory, account.mergers.map Merger.attended,
    account.events⟩

/-- The mergers to call for the merges of several peers into one, in order. -/
def errands (mergers : List (Merger σ)) (surviving : PeerId) (absorbed : List PeerId) :
    List (Merger σ × PeerId × PeerId) :=
  absorbed.flatMap fun i => mergers.map (·, surviving, i)

/-- What an account tells of the merges of several peers into one: each merge, and then the failures
to follow it. -/
def mergeEvents (surviving : PeerId) (absorbed : List PeerId) (visits : List (Visit σ)) :
    List Event :=
  absorbed.flatMap fun i =>
    .merged surviving i :: (Visit.failures (Visit.about visits i)).map .cascadeFailed

section

variable {mergers : List (Merger σ)} {surviving : PeerId} {absorbed : List PeerId}
  {new new' : List (Visit σ)}

/-- Visits for merges are about the peers that are absorbed. -/
theorem absorbed_mem_of_errands (h : new.map Visit.errand = errands mergers surviving absorbed) :
    ∀ v ∈ new, v.absorbed ∈ absorbed := by
  intro v hv
  have he := List.mem_map_of_mem (f := Visit.errand) hv
  rw [h, errands] at he
  obtain ⟨i, hi, he⟩ := List.mem_flatMap.mp he
  obtain ⟨m, -, hm⟩ := List.mem_map.mp he
  have hvi : i = v.absorbed := congrArg (·.2.2) hm
  rwa [← hvi]

theorem errands_cons (mergers : List (Merger σ)) (surviving i : PeerId) (is : List PeerId) :
    errands mergers surviving (i :: is) =
      errands mergers surviving [i] ++ errands mergers surviving is := by
  simp [errands]

/-- The visits of the first merge are about it alone, and none of the others is, so its failures are
told right after it. -/
theorem mergeEvents_cons {i : PeerId} {is : List PeerId} (hi : i ∉ is)
    (h : ∀ v ∈ new, v.absorbed ∈ [i]) (h' : ∀ v ∈ new', v.absorbed ∈ is) :
    mergeEvents surviving (i :: is) (new ++ new') =
      (.merged surviving i :: (Visit.failures new).map .cascadeFailed) ++
        mergeEvents surviving is new' := by
  have hnew : ∀ v ∈ new, v.absorbed = i := fun v hv => List.mem_singleton.mp (h v hv)
  have hfirst : Visit.about (new ++ new') i = new := by
    rw [Visit.about_append, Visit.about_eq_self hnew, Visit.about_eq_nil, List.append_nil]
    rintro v hv rfl
    exact hi (h' v hv)
  have hrest : ∀ j ∈ is, Visit.about (new ++ new') j = Visit.about new' j := by
    intro j hj
    rw [Visit.about_append, Visit.about_eq_nil, List.nil_append]
    rintro v hv rfl
    exact hi (hnew v hv ▸ hj)
  rw [mergeEvents, mergeEvents, List.flatMap_cons, hfirst]
  congr 1
  rw [List.flatMap_def, List.flatMap_def]
  refine congrArg List.flatten (List.map_congr_left fun j hj => ?_)
  rw [hrest j hj]

end

/-! ## One merge -/

/-- The visit of a merger. -/
def Merger.visit (m : Merger σ) (surviving absorbed : PeerId) (s : σ) : Visit σ :=
  ⟨m, surviving, absorbed, ((m.merge surviving absorbed).run s).result⟩

/-- A merger answers the failure of its visit, and leaves the storage as its run does. -/
theorem Merger.follow_returns_failure (m : Merger σ) (surviving absorbed : PeerId) (s : σ) :
    (m.follow surviving absorbed).Returns s (m.visit surviving absorbed s).failure?
      ((m.merge surviving absorbed).run s).state := by
  unfold Merger.follow
  refine (Op.returns_attempt (m.merge surviving absorbed) s).bind ?_
  unfold Visit.failure? Merger.visit
  dsimp only
  cases ((m.merge surviving absorbed).run s).result with
  | ok u => exact Op.returns_pure _ _
  | error e => exact (Op.returns_note _ _ _).bind (Op.returns_pure _ _)

/-- An attended merger ends as the merger does, and has its visit noted. -/
theorem Merger.run_attended (m : Merger σ) (surviving absorbed : PeerId) (s : σ)
    (vs : List (Visit σ)) :
    ((m.attended.merge surviving absorbed).run ⟨s, vs⟩).result =
        ((m.merge surviving absorbed).run s).result ∧
      ((m.attended.merge surviving absorbed).run ⟨s, vs⟩).state =
        ⟨((m.merge surviving absorbed).run s).state, vs ++ [m.visit surviving absorbed s]⟩ := by
  simp [Merger.attended, Attended.lift, Attended.note, Merger.visit]

/-- An attended merger follows a merge as the merger does, and has its visit noted, whether it
succeeds or fails. -/
theorem Merger.follow_attended (m : Merger σ) (surviving absorbed : PeerId) (s : σ)
    (vs : List (Visit σ)) :
    (m.attended.follow surviving absorbed).Returns ⟨s, vs⟩ (m.visit surviving absorbed s).failure?
      ⟨((m.merge surviving absorbed).run s).state, vs ++ [m.visit surviving absorbed s]⟩ := by
  obtain ⟨hresult, hstate⟩ := m.run_attended surviving absorbed s vs
  have hf := m.attended.follow_returns_failure surviving absorbed ⟨s, vs⟩
  rw [hstate] at hf
  have hv : (m.attended.visit surviving absorbed ⟨s, vs⟩).failure? =
      (m.visit surviving absorbed s).failure? := by
    unfold Visit.failure? Merger.visit
    dsimp only
    rw [hresult]
    rfl
  rwa [hv] at hf

/-- All mergers are called, in order, and answer the failures of their visits: one that fails does
not keep the next from being called. -/
theorem mergeAll_watches (mergers : List (Merger σ)) (surviving absorbed : PeerId) (s : σ) :
    ∃ new s', (mergeAll mergers surviving absorbed).Returns s (Visit.failures new) s' ∧
      (∀ vs, (mergeAll (mergers.map Merger.attended) surviving absorbed).Returns ⟨s, vs⟩
        (Visit.failures new) ⟨s', vs ++ new⟩) ∧
      new.map Visit.errand = errands mergers surviving [absorbed] := by
  unfold mergeAll
  induction mergers generalizing s with
  | nil =>
      refine ⟨[], s, Op.returns_pure _ s, fun vs => ?_, rfl⟩
      rw [List.append_nil]
      exact Op.returns_pure _ _
  | cons m ms ih =>
      obtain ⟨new, s', hms, hms', herrands⟩ := ih ((m.merge surviving absorbed).run s).state
      have hfail : Visit.failures (m.visit surviving absorbed s :: new) =
          (m.visit surviving absorbed s).failure?.toList ++ Visit.failures new := by
        rw [Visit.failures, List.filterMap_cons]
        cases (m.visit surviving absorbed s).failure? <;> rfl
      refine ⟨m.visit surviving absorbed s :: new, s', ?_, fun vs => ?_, ?_⟩
      · rw [hfail]
        exact (m.follow_returns_failure surviving absorbed s).bind
          (hms.bind (Op.returns_pure _ _))
      · rw [hfail, List.append_cons]
        exact (m.follow_attended surviving absorbed s vs).bind
          ((hms' _).bind (Op.returns_pure _ _))
      · rw [List.map_cons, herrands]
        rfl

/-! ## Operations of an attended account -/

/-- An operation goes on the attended account as on the account, and adds some visits. -/
def Op.Watches {α : Type} (op' : Op (Account (Attended σ)) α) (op : Op (Account σ) α)
    (account : Account σ) (new : List (Visit σ)) : Prop :=
  ∀ vs, (op'.run (account.attended vs)).result = (op.run account).result ∧
    (op'.run (account.attended vs)).state = (op.run account).state.attended (vs ++ new)

namespace Op.Watches

variable {α β : Type} {op : Op (Account σ) α} {op' : Op (Account (Attended σ)) α}
  {account account₁ : Account σ} {new new' : List (Visit σ)}

/-- Where the account answers, the attended one answers the same with the visits added. -/
theorem of_returns {a : α} (h : op.Returns account a account₁)
    (h' : ∀ vs, op'.Returns (account.attended vs) a (account₁.attended (vs ++ new))) :
    op'.Watches op account new := by
  intro vs
  rw [h.1, h.2]
  exact h' vs

/-- Where the account fails, the attended one fails the same with the visits added. -/
theorem of_fails {e : Error} (h : op.Fails account e account₁)
    (h' : ∀ vs, op'.Fails (account.attended vs) e (account₁.attended (vs ++ new))) :
    op'.Watches op account new := by
  intro vs
  rw [h.1, h.2]
  exact h' vs

theorem returns {a : α} (h : op'.Watches op account new) (hr : op.Returns account a account₁)
    (vs : List (Visit σ)) :
    op'.Returns (account.attended vs) a (account₁.attended (vs ++ new)) := by
  obtain ⟨hresult, hstate⟩ := h vs
  rw [hr.1] at hresult
  rw [hr.2] at hstate
  exact ⟨hresult, hstate⟩

theorem fails {e : Error} (h : op'.Watches op account new) (hf : op.Fails account e account₁)
    (vs : List (Visit σ)) : op'.Fails (account.attended vs) e (account₁.attended (vs ++ new)) := by
  obtain ⟨hresult, hstate⟩ := h vs
  rw [hf.1] at hresult
  rw [hf.2] at hstate
  exact ⟨hresult, hstate⟩

variable {next : α → Op (Account σ) β} {next' : α → Op (Account (Attended σ)) β}

/-- Two operations are watched one after the other: the visits of the second come after those of the
first. -/
theorem bind {a : α} (h : op'.Watches op account new) (hr : op.Returns account a account₁)
    (hn : (next' a).Watches (next a) account₁ new') :
    (op' >>= next').Watches (op >>= next) account (new ++ new') := by
  intro vs
  have hr' := h.returns hr vs
  rw [hr'.result_bind, hr'.state_bind, hr.result_bind, hr.state_bind, ← List.append_assoc]
  exact hn (vs ++ new)

/-- Where the first operation fails the second one calls no merger. -/
theorem bind_fails {e : Error} (h : op'.Watches op account new)
    (hf : op.Fails account e account₁) : (op' >>= next').Watches (op >>= next) account new :=
  .of_fails (hf.bind next) fun vs => (h.fails hf vs).bind next'

/-- Working on the answer calls no merger. -/
theorem map (h : op'.Watches op account new) (f : α → β) :
    (op' >>= fun a => pure (f a)).Watches (op >>= fun a => pure (f a)) account new := by
  intro vs
  obtain ⟨hresult, hstate⟩ := h vs
  rw [Op.result_map, Op.result_map, Op.state_map, Op.state_map, hresult, hstate]
  exact ⟨rfl, rfl⟩

end Op.Watches

/-! ## What was seen of a resolution -/

namespace Account

/-- **The mergers are called for a merge** one after another, as they are registered, and the merge
is told before their failures. -/
theorem cascade_watches (surviving absorbed : PeerId) (account : Account σ) :
    ∃ new s, (cascade surviving absorbed).Returns account (Visit.failures new)
        { account with
          storage := s
          events := account.events ++
            .merged surviving absorbed :: (Visit.failures new).map .cascadeFailed } ∧
      (cascade surviving absorbed).Watches (cascade surviving absorbed) account new ∧
      new.map Visit.errand = errands account.mergers surviving [absorbed] := by
  obtain ⟨new, s, hm, hm', herrands⟩ :=
    mergeAll_watches account.mergers surviving absorbed account.storage
  have hz : (onStorage (mergeAll account.mergers surviving absorbed)).Returns account
      (Visit.failures new) { account with storage := s } := hm.zoom
  have hr : (cascade surviving absorbed).Returns account (Visit.failures new)
      { account with
        storage := s
        events := account.events ++
          .merged surviving absorbed :: (Visit.failures new).map .cascadeFailed } :=
    (Op.returns_note _ _ _).bind ((Op.returns_state _).bind (hz.bind
      ((Op.returns_update _ _).bind (Op.returns_pure _ _))))
  refine ⟨new, s, hr, .of_returns hr fun vs => ?_, herrands⟩
  have hz' : (onStorage (mergeAll (account.mergers.map Merger.attended) surviving absorbed)).Returns
      (account.attended vs) (Visit.failures new)
      (({ account with storage := s } : Account σ).attended (vs ++ new)) :=
    (hm' vs).zoom (τ := Account (Attended σ)) (t := account.attended vs)
  exact (Op.returns_note _ _ _).bind ((Op.returns_state _).bind (hz'.bind
    ((Op.returns_update _ _).bind (Op.returns_pure _ _))))

/-- **The mergers are called for each of several merges in turn**, all of them for the first before
any for the second. -/
theorem cascadeAll_watches (surviving : PeerId) (absorbed : List PeerId) (account : Account σ) :
    ∃ new account', (cascadeAll surviving absorbed).Returns account (Visit.failures new) account' ∧
      (cascadeAll surviving absorbed).Watches (cascadeAll surviving absorbed) account new ∧
      new.map Visit.errand = errands account.mergers surviving absorbed ∧
      (absorbed.Nodup →
        account'.events = account.events ++ mergeEvents surviving absorbed new) := by
  induction absorbed generalizing account with
  | nil =>
      refine ⟨[], account, Op.returns_pure _ _, .of_returns (Op.returns_pure _ _) fun vs => ?_, rfl,
        fun _ => (List.append_nil _).symm⟩
      rw [List.append_nil]
      exact Op.returns_pure _ _
  | cons i is ih =>
      obtain ⟨new, s, hr, hw, herrands⟩ := cascade_watches surviving i account
      obtain ⟨new', account', hr', hw', herrands', hevents⟩ := ih { account with
        storage := s
        events := account.events ++ .merged surviving i :: (Visit.failures new).map .cascadeFailed }
      refine ⟨new ++ new', account', ?_, hw.bind hr (hw'.map _), ?_, fun hn => ?_⟩
      · rw [Visit.failures_append]
        exact hr.bind (hr'.bind (Op.returns_pure _ _))
      · rw [List.map_append, herrands, herrands', errands_cons account.mergers surviving i is]
      · obtain ⟨hi, hn⟩ := List.nodup_cons.mp hn
        rw [hevents hn, mergeEvents_cons hi (absorbed_mem_of_errands herrands)
          (absorbed_mem_of_errands herrands'), List.append_assoc]

end Account

variable [Storage σ]

/-- A commit to an attended storage is one to the storage inside, as it only writes a batch and
calls no merger. -/
theorem Transaction.commit_attended (tx : Transaction) :
    (tx.commit : Op (Attended σ) _) = Attended.lift tx.commit := by
  unfold commit
  cases tx.hasChanges with
  | false => rfl
  | true =>
      cases tx.violation? with
      | some f => rfl
      | none =>
          refine Op.ext_run fun a => ?_
          show ((Attended.lift (Storage.writeBatch tx.writes)).run a).andThen _ = _
          simp only [Attended.lift, Op.run_zoom, if_true, Op.run_bind]
          rcases (Storage.writeBatch tx.writes).run a.inner with ⟨_ | _, s, log⟩ <;> rfl

/-- What a trusted resolution submits to an attended storage it submits to the storage inside. -/
theorem Directory.submit_attended (d : Directory) (markSelf : Bool) (request : Address) (s : σ)
    (vs : List (Visit σ)) :
    ((d.submit markSelf request).run (⟨s, vs⟩ : Attended σ)).result =
        ((d.submit markSelf request).run s).result ∧
      ((d.submit markSelf request).run (⟨s, vs⟩ : Attended σ)).state =
        ⟨((d.submit markSelf request).run s).state, vs⟩ := by
  unfold submit
  cases d.proposal markSelf request with
  | error e => exact ⟨rfl, rfl⟩
  | ok p =>
      obtain ⟨outcome, tx⟩ := p
      simp only [Op.ofExcept, pure_bind]
      rw [Op.result_map, Op.result_map, Op.state_map, Op.state_map, tx.commit_attended]
      exact ⟨rfl, rfl⟩

namespace Account

/-- What is seen of the mergers during a trusted resolution. -/
def visits (account : Account σ) (markSelf : Bool) (request : Address) : List (Visit σ) :=
  ((resolveWith markSelf request).run (account.attended [])).state.storage.visits

/-- What is seen during a resolution are the visits that it is watched with. -/
theorem visits_eq {account : Account σ} {markSelf : Bool} {request : Address}
    {new : List (Visit σ)} (h : (resolveWith markSelf request).Watches
      (resolveWith markSelf request) account new) : account.visits markSelf request = new :=
  congrArg (·.storage.visits) (h []).2

/-- **A trusted resolution calls every merger for every merge**, after it has committed, and
answers their failures; where it fails it calls none. -/
theorem resolveWith_watches (account : Account σ) (markSelf : Bool) (request : Address) :
    (∃ e s, (resolveWith markSelf request).Fails account e { account with storage := s } ∧
      (resolveWith markSelf request).Watches (resolveWith markSelf request) account [] ∧
      account.visits markSelf request = []) ∨
    ∃ outcome d s new account',
      (account.directory.submit markSelf request).Returns account.storage (outcome, d) s ∧
      (resolveWith markSelf request).Returns account
        ⟨outcome.peer, outcome.merged, Visit.failures new⟩ account' ∧
      (resolveWith markSelf request).Watches (resolveWith markSelf request) account new ∧
      account.visits markSelf request = new ∧
      new.map Visit.errand = errands account.mergers outcome.peer outcome.merged ∧
      account'.directory = d ∧ account'.mergers = account.mergers ∧
      (outcome.merged.Nodup → account'.events =
        account.events ++ outcome.events ++ mergeEvents outcome.peer outcome.merged new) := by
  have hsub := account.directory.submit_attended markSelf request account.storage
  obtain ⟨⟨outcome, d⟩, s, hs⟩ | ⟨e, s, hs⟩ :=
    Op.returns_or_fails (account.directory.submit markSelf request) account.storage
  · have hs' (vs) : (account.directory.submit markSelf request).Returns
        (account.attended vs).storage (outcome, d) ⟨s, vs⟩ := by
      obtain ⟨hr, ht⟩ := hsub vs
      rw [hs.1] at hr
      rw [hs.2] at ht
      exact ⟨hr, ht⟩
    let published : Account σ :=
      { account with storage := s, directory := d, events := account.events ++ outcome.events }
    obtain ⟨new, account', hc, hw, herrands, hevents⟩ :=
      cascadeAll_watches outcome.peer outcome.merged published
    obtain ⟨failures, account'', hc', hf⟩ :=
      cascadeAll_returns outcome.peer outcome.merged published
    obtain ⟨rfl, rfl⟩ := hc.unique hc'
    have hr := resolveWith_of_returns hs hc
    have hwatch : (resolveWith markSelf request).Watches (resolveWith markSelf request) account
        new := .of_returns hr fun vs => resolveWith_of_returns (hs' vs) (hw.returns hc vs)
    exact .inr ⟨outcome, d, s, new, account', hs, hr, hwatch, visits_eq hwatch, herrands,
      hf.directory, hf.mergers, hevents⟩
  · have hf := resolveWith_of_fails hs
    have hwatch : (resolveWith markSelf request).Watches (resolveWith markSelf request) account
        [] := by
      refine .of_fails hf fun vs => ?_
      obtain ⟨hr, ht⟩ := hsub vs
      rw [hs.1] at hr
      rw [hs.2] at ht
      rw [List.append_nil]
      have hs' : (account.directory.submit markSelf request).Fails (account.attended vs).storage e
          ⟨s, vs⟩ := ⟨hr, ht⟩
      exact resolveWith_of_fails hs'
    exact .inl ⟨e, s, hf, hwatch, visits_eq hwatch⟩

end Account

end PeerBook
