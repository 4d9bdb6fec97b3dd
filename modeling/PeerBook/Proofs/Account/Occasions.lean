import PeerBook.Proofs.Account.Attended
import PeerBook.Proofs.Directory.News

/-!
# PeerBook.Proofs.Account.Occasions

The occasions of a run: the trusted requests that it makes, those within batches
included, each with the account as it finds it (`Account.occasions`). On these
the mergers are called, and never else (`Account.after_attended`). A handle that
is absorbed is redirected for good, so no handle is absorbed twice in a run
(`Account.nodup_absorbed`), and what is seen of a whole run about an absorbed
handle is seen on one of its occasions (`Account.occasions_followed`).

A batch that fails has made requests all the same, up to the one that failed, and
those count as occasions. Every occasion finds the account coherent as long as
handles are left (`Account.coherent_of_mem_occasions`), so what is known of one
resolution holds on each.
-/

namespace PeerBook

/-! ## No handle is absorbed twice -/

namespace Directory

variable {d d' : Directory} {n : Nat} {f : Finding} {fs : List Finding} {i : PeerId}

/-- One request absorbs no handle twice. -/
theorem Step.nodup_merged (hs : d.Step f d') : f.result.merged.Nodup := by
  cases hs with
  | resolved markSelf request =>
      exact d.rows.nodup_keys.sublist
        ((merged_sublist request d.begin).trans (d.found_sublist_keys request))
  | found _ => exact List.nodup_nil
  | added _ => exact List.nodup_nil

/-- Only a handle that was never absorbed is: it has a row by then. -/
theorem Step.no_redirect (hs : d.Step f d') (h : d.Coherent n) (hn : n + 1 < UInt64.size)
    (hi : i ∈ f.result.merged) : d.redirects.get? i = none := by
  cases hs with
  | resolved markSelf request =>
      exact h.no_redirect ((mem_merged_outcome_iff (h.hasNext hn) markSelf).mp hi).2.1
  | found _ => contradiction
  | added _ => contradiction

/-- **Requests in order absorb no handle twice**, and none that was absorbed before: what the first
request absorbs is redirected by then, and only a handle with a row can be absorbed. -/
theorem Leads.nodup_merged (hl : d.Leads fs d') (h : d.Coherent n)
    (hn : n + Finding.creations fs + 1 < UInt64.size) :
    (fs.flatMap (·.result.merged)).Nodup ∧
      ∀ i ∈ fs.flatMap (·.result.merged), d.redirects.get? i = none := by
  induction hl generalizing n with
  | refl => exact ⟨List.nodup_nil, nofun⟩
  | @step d d₁ _ f fs hs _ ih =>
      rw [Finding.creations_cons, ← Nat.add_assoc] at hn
      obtain ⟨hnodup, hnone⟩ := ih (h.step hs (by omega)) hn
      have hnew : ∀ i ∈ f.result.merged, d.redirects.get? i = none :=
        fun i hi => hs.no_redirect h (by omega) hi
      rw [List.flatMap_cons]
      -- what the first request absorbs is redirected by then, and nothing redirected is absorbed
      refine ⟨List.nodup_append.mpr ⟨hs.nodup_merged, hnodup, ?_⟩, fun i hi => ?_⟩
      · rintro i hi _ hj rfl
        exact hs.redirect (.inr hi) (hnone i hj)
      · rcases List.mem_append.mp hi with hi | hi
        · exact hnew i hi
        · refine Classical.byContradiction fun hr => ?_
          exact hs.redirect (.inl hr) (hnone i hi)

end Directory

/-! ## Occasions -/

/-- An occasion to call the mergers: a trusted request, and the account as it finds it. -/
structure Occasion (σ : Type) where
  account : Account σ
  markSelf : Bool
  request : Address

variable {σ : Type} [Storage σ]

namespace Occasion

/-- The request is answered, and leaves an account. -/
def Answers (o : Occasion σ) (r : Resolution) (after : Account σ) : Prop :=
  (Account.resolveWith o.markSelf o.request).Returns o.account r after

/-- The handles that are absorbed on an occasion. -/
def absorbed (o : Occasion σ) : List PeerId :=
  match ((Account.resolveWith o.markSelf o.request).run o.account).result with
  | .ok r => r.merged
  | .error _ => []

/-- What is seen of the mergers on an occasion. -/
def visits (o : Occasion σ) : List (Visit σ) := o.account.visits o.markSelf o.request

variable {o : Occasion σ} {r : Resolution} {after : Account σ}

/-- What is absorbed on an occasion is what the answer says. -/
theorem absorbed_of_answers (h : o.Answers r after) : o.absorbed = r.merged := by
  rw [absorbed, h.1]

/-- A handle is absorbed where the request is answered. -/
theorem answers_of_mem_absorbed {i : PeerId} (hi : i ∈ o.absorbed) :
    ∃ r after, o.Answers r after ∧ i ∈ r.merged := by
  obtain ⟨r, after, hr⟩ | ⟨e, after, hf⟩ :=
    Op.returns_or_fails (Account.resolveWith o.markSelf o.request) o.account
  · exact ⟨r, after, hr, absorbed_of_answers hr ▸ hi⟩
  · rw [absorbed, hf.1] at hi
    contradiction

/-- Where the request is answered, every merger is called for every merge, and the failures are
answered. -/
theorem visits_of_answers (h : o.Answers r after) : r.failures = Visit.failures o.visits ∧
    o.visits.map Visit.errand = errands o.account.mergers r.peer r.merged := by
  obtain ⟨e, s, hf, -⟩ | ⟨outcome, d, s, new, account', -, hr, -, hv, herrands, -⟩ :=
    o.account.resolveWith_watches o.markSelf o.request
  · exact absurd h.1 (hf.not_ok r)
  · obtain ⟨rfl, -⟩ := h.unique hr
    rw [visits, hv]
    exact ⟨rfl, herrands⟩

/-- A merger is called for what is answered: the visit is about the peer of the answer and a handle
that was absorbed into it. -/
theorem answers_of_mem_visits {v : Visit σ} (hv : v ∈ o.visits) :
    ∃ r after, o.Answers r after ∧ v.surviving = r.peer ∧ v.absorbed ∈ r.merged := by
  obtain ⟨r, after, hr⟩ | ⟨e, after, hf⟩ :=
    Op.returns_or_fails (Account.resolveWith o.markSelf o.request) o.account
  · have herrands := (visits_of_answers hr).2
    refine ⟨r, after, hr, ?_, absorbed_mem_of_errands herrands v hv⟩
    have he := List.mem_map_of_mem (f := Visit.errand) hv
    rw [herrands, errands] at he
    obtain ⟨i, -, he⟩ := List.mem_flatMap.mp he
    obtain ⟨m, -, hm⟩ := List.mem_map.mp he
    exact (congrArg (·.2.1) hm).symm
  · obtain ⟨e', s, -, -, hnil⟩ | ⟨outcome, d, s, new, account', -, hr, -⟩ :=
      o.account.resolveWith_watches o.markSelf o.request
    · rw [visits, hnil] at hv
      contradiction
    · exact absurd hr.1 (hf.not_ok _)

/-- Mergers are called for the handles that are absorbed on the occasion. -/
theorem absorbed_mem_of_mem_visits {v : Visit σ} (hv : v ∈ o.visits) : v.absorbed ∈ o.absorbed := by
  obtain ⟨r, after, hr, -, hm⟩ := answers_of_mem_visits hv
  rw [absorbed_of_answers hr]
  exact hm

end Occasion

namespace Account

/-- The occasions of a batch, up to the first member that fails. -/
def batchOccasions (account : Account σ) : List Address → List (Occasion σ)
  | [] => []
  | a :: as =>
    ⟨account, false, a⟩ ::
      match ((resolveWith false a).run account).result with
      | .ok _ => batchOccasions ((resolveWith false a).run account).state as
      | .error _ => []

/-- The occasions of a batch whose first member is answered: that member, and then those of the
others on the account that it leaves. -/
theorem batchOccasions_of_returns {account account' : Account σ} {a : Address} {r : Resolution}
    (hr : (resolveWith false a).Returns account r account') (as : List Address) :
    account.batchOccasions (a :: as) = ⟨account, false, a⟩ :: account'.batchOccasions as := by
  rw [batchOccasions, hr.1, hr.2]

/-- The one occasion of a batch whose first member fails. -/
theorem batchOccasions_of_fails {account account' : Account σ} {a : Address} {e : Error}
    (hf : (resolveWith false a).Fails account e account') (as : List Address) :
    account.batchOccasions (a :: as) = [⟨account, false, a⟩] := by
  rw [batchOccasions, hf.1]

end Account

/-- The occasions of a call: its trusted requests, up to the first that fails. -/
def Call.occasions (account : Account σ) : Call σ → List (Occasion σ)
  | .resolve markSelf request => [⟨account, markSelf, request⟩]
  | .resolveBatch requests => account.batchOccasions requests
  | .lookup _ | .register _ => []

/-- The occasions of a run, the oldest first. -/
def Account.occasions (account : Account σ) : List (Call σ) → List (Occasion σ)
  | [] => []
  | c :: cs => c.occasions account ++ occasions (c.perform.run account).state cs

/-! ## What is seen of a run -/

namespace Account

/-- A trusted resolution, as it is seen. -/
theorem resolveWith_watches_visits (account : Account σ) (markSelf : Bool) (request : Address) :
    (resolveWith markSelf request).Watches (resolveWith markSelf request) account
      (account.visits markSelf request) := by
  obtain ⟨e, s, -, hw, hv⟩ | ⟨outcome, d, s, new, account', -, -, hw, hv, -⟩ :=
    account.resolveWith_watches markSelf request
  · rw [hv]
    exact hw
  · rw [hv]
    exact hw

/-- In a batch the mergers are called on its occasions, also in a batch that fails later on. -/
theorem resolveBatch_watches (requests : List Address) (account : Account σ) :
    (resolveBatch requests).Watches (resolveBatch requests) account
      ((account.batchOccasions requests).flatMap Occasion.visits) := by
  induction requests generalizing account with
  | nil =>
      refine .of_returns (Op.returns_pure [] account) fun vs => ?_
      rw [batchOccasions, List.flatMap_nil, List.append_nil]
      exact Op.returns_pure _ _
  | cons a as ih =>
      have hw := account.resolveWith_watches_visits false a
      obtain ⟨r, account', hr⟩ | ⟨e, account', hf⟩ :=
        Op.returns_or_fails (resolveWith false a) account
      · rw [batchOccasions_of_returns hr, List.flatMap_cons]
        exact hw.bind hr ((ih account').map _)
      · rw [batchOccasions_of_fails hf, List.flatMap_singleton]
        exact hw.bind_fails hf

/-! A look-up goes as its commit does, and calls no merger. -/

/-- A look-up that finds a peer answers it and leaves the account. -/
theorem lookup_of_found {account : Account σ} {request : Address} {p : Peer}
    (h : account.directory.bestMatch? request = some p) :
    (lookup request).Returns account p.id account := by
  obtain ⟨q, hq, hr⟩ | ⟨hnone, -⟩ := lookup_commits account request
  · obtain rfl := Option.some.inj (h.symm.trans hq)
    exact hr
  · rw [h] at hnone
    contradiction

/-- A look-up whose commit fails fails with it, and leaves what that left in the storage. -/
theorem lookup_of_fails {account : Account σ} {request : Address} {e : Error} {s : σ}
    (hb : account.directory.bestMatch? request = none)
    (h : (account.directory.addition request).commit.Fails account.storage e s) :
    (lookup request).Fails account e { account with storage := s } := by
  obtain ⟨p, hp, -⟩ | ⟨-, ⟨e', t, hf, hl⟩ | ⟨d, t, hc, -⟩⟩ := lookup_commits account request
  · rw [hb] at hp
    contradiction
  · obtain ⟨rfl, rfl⟩ := h.unique hf
    exact hl
  · exact absurd hc.1 (h.not_ok d)

/-- A look-up whose commit answers publishes the directory and tells of the new peer. -/
theorem lookup_of_returns {account : Account σ} {request : Address} {d : Directory} {s : σ}
    (hb : account.directory.bestMatch? request = none)
    (h : (account.directory.addition request).commit.Returns account.storage d s) :
    (lookup request).Returns account account.directory.lastId.next
      (account.publish s d [.created account.directory.lastId.next]) := by
  obtain ⟨p, hp, -⟩ | ⟨-, ⟨e', t, hf, -⟩ | ⟨d', t, hc, hl⟩⟩ := lookup_commits account request
  · rw [hb] at hp
    contradiction
  · exact absurd h.1 (hf.not_ok d)
  · obtain ⟨rfl, rfl⟩ := h.unique hc
    exact hl

/-- A look-up calls no merger: it absorbs nothing, and goes as its commit does. -/
theorem lookup_watches (account : Account σ) (request : Address) :
    (lookup request).Watches (lookup request) account [] := by
  have hcommit := (account.directory.addition request).commit_attended (σ := σ)
  obtain ⟨p, hp, hr⟩ | ⟨hnone, ⟨e, s, hf, hl⟩ | ⟨d, s, hc, hl⟩⟩ := lookup_commits account request
  · refine .of_returns hr fun vs => ?_
    rw [List.append_nil]
    exact lookup_of_found hp
  · refine .of_fails hl fun vs => ?_
    rw [List.append_nil]
    have hf' : (account.directory.addition request).commit.Fails (account.attended vs).storage e
        ⟨s, vs⟩ := by
      rw [hcommit]
      exact ⟨hf.1, congrArg (Attended.mk · vs) hf.2⟩
    exact lookup_of_fails hnone hf'
  · refine .of_returns hl fun vs => ?_
    rw [List.append_nil]
    have hc' : (account.directory.addition request).commit.Returns (account.attended vs).storage d
        ⟨s, vs⟩ := by
      rw [hcommit]
      exact ⟨hc.1, congrArg (Attended.mk · vs) hc.2⟩
    exact lookup_of_returns hnone hc'

end Account

/-- In a call the mergers are called on its occasions; a merger that is registered is called for
later merges only. -/
theorem Call.perform_watches (c : Call σ) (account : Account σ) :
    c.attended.perform.Watches c.perform account
      ((c.occasions account).flatMap Occasion.visits) := by
  cases c with
  | resolve markSelf request =>
      rw [Call.occasions, List.flatMap_singleton]
      exact (account.resolveWith_watches_visits markSelf request).map _
  | resolveBatch requests => exact (account.resolveBatch_watches requests).map _
  | lookup request => exact (account.lookup_watches request).map _
  | register m =>
      have hr : (Call.register m).perform.Returns account [] (account.register m) :=
        (Op.returns_update _ _).bind (Op.returns_pure _ _)
      refine .of_returns hr fun vs => ?_
      have hm : (account.register m).attended (vs ++ []) =
          (account.attended vs).register m.attended := by
        simp [Account.register, Account.attended]
      rw [Call.occasions, List.flatMap_nil, hm]
      exact (Op.returns_update _ _).bind (Op.returns_pure _ _)

/-- **The mergers are called on the occasions of a run** and never else. -/
theorem Account.after_attended (calls : List (Call σ)) (account : Account σ)
    (vs : List (Visit σ)) : (account.attended vs).after (calls.map Call.attended) =
      (account.after calls).attended (vs ++ (account.occasions calls).flatMap Occasion.visits) := by
  induction calls generalizing account vs with
  | nil =>
      rw [occasions, List.flatMap_nil, List.append_nil]
      rfl
  | cons c cs ih =>
      rw [occasions, List.flatMap_append, ← List.append_assoc]
      refine Eq.trans ?_ (ih (c.perform.run account).state _)
      exact congrArg (·.after (cs.map Call.attended)) ((c.perform_watches account) vs).2

/-! ## Each absorbed handle has one occasion -/

namespace Account

/-- What is absorbed on the occasions of a batch is what the replies to its members tell, as both go
member by member and stop at the same one. -/
theorem batchOccasions_absorbed (requests : List Address) (account : Account σ) :
    (account.batchOccasions requests).flatMap Occasion.absorbed =
      (account.batchReplies requests).flatMap Reply.merged := by
  induction requests generalizing account with
  | nil => rfl
  | cons a as ih =>
      obtain ⟨r, account', hr⟩ | ⟨e, account', hf⟩ :=
        Op.returns_or_fails (resolveWith false a) account
      · have ho : (⟨account, false, a⟩ : Occasion σ).Answers r account' := hr
        rw [batchOccasions_of_returns hr, batchReplies_of_returns hr, List.flatMap_cons,
          List.flatMap_cons, ih, Occasion.absorbed_of_answers ho]
        rfl
      · rw [batchOccasions_of_fails hf, batchReplies_of_fails hf, List.flatMap_singleton,
          Occasion.absorbed, hf.1]
        rfl

end Account

/-- What is absorbed on the occasions of a call is what its replies tell, so the count of
absorptions can be taken from either. -/
theorem Call.occasions_absorbed (c : Call σ) (account : Account σ) :
    (c.occasions account).flatMap Occasion.absorbed = (c.replies account).flatMap Reply.merged := by
  cases c with
  | resolve markSelf request =>
      rw [Call.occasions, List.flatMap_singleton]
      obtain ⟨r, account', hr⟩ | ⟨e, account', hf⟩ :=
        Op.returns_or_fails (Account.resolveWith markSelf request) account
      · have ho : (⟨account, markSelf, request⟩ : Occasion σ).Answers r account' := hr
        have hp : (Call.resolve markSelf request).perform.Returns account
            [.ofResolution request r] account' := hr.bind (Op.returns_pure _ _)
        rw [Occasion.absorbed_of_answers ho, Call.replies_of_ok hp.1, List.flatMap_singleton]
        rfl
      · have hp : (Call.resolve markSelf request).perform.Fails account e account' := hf.bind _
        rw [Occasion.absorbed, hf.1, Call.replies_of_fails hp nofun]
        rfl
  | resolveBatch requests => exact account.batchOccasions_absorbed requests
  | lookup request =>
      obtain ⟨p, account', hr⟩ | ⟨e, account', hf⟩ :=
        Op.returns_or_fails (Account.lookup request) account
      · have hp : (Call.lookup request).perform.Returns account
            [⟨request, false, p, []⟩] account' := hr.bind (Op.returns_pure _ _)
        rw [Call.replies_of_ok hp.1]
        rfl
      · have hp : (Call.lookup request).perform.Fails account e account' := hf.bind _
        rw [Call.replies_of_fails hp nofun]
        rfl
  | register m => rfl

namespace Account

/-- What is absorbed on the occasions of a run is what its replies tell. -/
theorem occasions_absorbed (calls : List (Call σ)) (account : Account σ) :
    (account.occasions calls).flatMap Occasion.absorbed =
      (account.replies calls).flatMap Reply.merged := by
  induction calls generalizing account with
  | nil => rfl
  | cons c cs ih =>
      rw [occasions, replies, List.flatMap_append, List.flatMap_append, c.occasions_absorbed, ih]

/-- **No handle is absorbed twice in a run.** -/
theorem nodup_absorbed (calls : List (Call σ)) {account : Account σ} (hc : account.Coherent)
    (hn : (account.after calls).allotted + 1 < UInt64.size) :
    ((account.occasions calls).flatMap Occasion.absorbed).Nodup := by
  obtain ⟨fs, hdev, hreplies⟩ := after_develops_replies calls hc hn
  rw [hdev.allotted] at hn
  rw [occasions_absorbed, hreplies, List.flatMap_map]
  exact (hdev.directory.nodup_merged hc hn).1

/-- The occasions of a batch find the account coherent, with handles left for each of its
members. -/
theorem coherent_of_mem_batchOccasions {requests : List Address} {account : Account σ}
    (hc : account.Coherent)
    (hn : ((resolveBatch requests).run account).state.allotted + 1 < UInt64.size) {o : Occasion σ}
    (ho : o ∈ account.batchOccasions requests) :
    o.account.Coherent ∧ o.account.allotted + 1 < UInt64.size := by
  induction requests generalizing account with
  | nil => contradiction
  | cons a as ih =>
      have hle := (resolveBatch_addsEvents (a :: as) account).allotted_le
      have hfirst : account.Coherent ∧ account.allotted + 1 < UInt64.size := ⟨hc, by omega⟩
      obtain ⟨e, s, hf⟩ | ⟨r, account', f, hr, hdev, -⟩ := resolveWith_develops hc hfirst.2 false a
      · rw [batchOccasions_of_fails hf] at ho
        obtain rfl := List.mem_singleton.mp ho
        exact hfirst
      · rw [batchOccasions_of_returns hr] at ho
        rw [resolveBatch_cons_state hr] at hn
        have hle' := (resolveBatch_addsEvents as account').allotted_le
        rcases List.mem_cons.mp ho with rfl | ho
        · exact hfirst
        · exact ih (hdev.coherent hc (by omega)) hn ho

end Account

/-- Every occasion of a call finds the account coherent, with handles left. -/
theorem Call.coherent_of_mem_occasions {c : Call σ} {account : Account σ} (hc : account.Coherent)
    (hn : (c.perform.run account).state.allotted + 1 < UInt64.size) {o : Occasion σ}
    (ho : o ∈ c.occasions account) : o.account.Coherent ∧ o.account.allotted + 1 < UInt64.size := by
  cases c with
  | resolve markSelf request =>
      obtain rfl := List.mem_singleton.mp ho
      have hle := ((Call.resolve markSelf request).perform_addsEvents account).allotted_le
      exact ⟨hc, Nat.lt_of_le_of_lt (Nat.succ_le_succ hle) hn⟩
  | resolveBatch requests =>
      rw [Call.perform, Op.state_map] at hn
      exact Account.coherent_of_mem_batchOccasions hc hn ho
  | lookup | register => contradiction

namespace Account

/-- Every occasion of a run finds the account coherent. -/
theorem coherent_of_mem_occasions {calls : List (Call σ)} {account : Account σ}
    (hc : account.Coherent)
    (hn : (account.after calls).allotted + 1 < UInt64.size) {o : Occasion σ}
    (ho : o ∈ account.occasions calls) :
    o.account.Coherent ∧ o.account.allotted + 1 < UInt64.size := by
  induction calls generalizing account with
  | nil => contradiction
  | cons c cs ih =>
      have hn' := allotted_perform_lt hn
      rcases List.mem_append.mp ho with ho | ho
      · exact Call.coherent_of_mem_occasions hc hn' ho
      · exact ih (after_coherent [c] hc hn') hn ho

end Account

/-! ## What becomes of an absorbed handle -/

/-- Where each part of a list is about handles of its own, the members about one handle are in the
part that it belongs to. -/
theorem filter_flatMap_of_nodup {α β : Type} {xs : List α} {parts : α → List β}
    {handles : α → List PeerId} {about : β → PeerId}
    (hparts : ∀ x ∈ xs, ∀ b ∈ parts x, about b ∈ handles x) (hn : (xs.flatMap handles).Nodup)
    {x : α} (hx : x ∈ xs) {i : PeerId} (hi : i ∈ handles x) :
    (xs.flatMap parts).filter (about · = i) = (parts x).filter (about · = i) := by
  induction xs with
  | nil => contradiction
  | cons y ys ih =>
      obtain ⟨hy, hothers⟩ := List.forall_mem_cons.mp hparts
      obtain ⟨-, hys, hne⟩ := List.nodup_append.mp (List.flatMap_cons ▸ hn)
      rw [List.flatMap_cons, List.filter_append]
      rcases List.mem_cons.mp hx with rfl | hx
      · have hnone : (ys.flatMap parts).filter (about · = i) = [] := by
          rw [List.filter_eq_nil_iff]
          intro b hb hbi
          obtain ⟨z, hz, hb⟩ := List.mem_flatMap.mp hb
          have hhandle := hothers z hz b hb
          rw [of_decide_eq_true hbi] at hhandle
          exact hne i hi i (List.mem_flatMap.mpr ⟨z, hz, hhandle⟩) rfl
        rw [hnone, List.append_nil]
      · have hnone : (parts y).filter (about · = i) = [] := by
          rw [List.filter_eq_nil_iff]
          intro b hb hbi
          have hhandle := hy b hb
          rw [of_decide_eq_true hbi] at hhandle
          exact hne i hhandle i (List.mem_flatMap.mpr ⟨x, hx, hi⟩) rfl
        rw [hnone, List.nil_append, ih hothers hys hx]

omit [Storage σ] in
/-- Of the errands for several merges those about one peer are one for each merger. -/
theorem filter_errands (mergers : List (Merger σ)) (surviving : PeerId) {absorbed : List PeerId}
    (hn : absorbed.Nodup) {i : PeerId} (hi : i ∈ absorbed) :
    (errands mergers surviving absorbed).filter (·.2.2 = i) = mergers.map (·, surviving, i) := by
  have hself (j : PeerId) : ∀ e ∈ mergers.map (·, surviving, j), e.2.2 = j := by
    intro e he
    obtain ⟨m, -, rfl⟩ := List.mem_map.mp he
    rfl
  have hhandles : absorbed.flatMap ([·]) = absorbed := List.flatMap_singleton' absorbed
  refine (filter_flatMap_of_nodup (fun j _ e he => List.mem_singleton.mpr (hself j e he))
    (hhandles.symm ▸ hn) hi (List.mem_singleton.mpr rfl)).trans ?_
  rw [List.filter_eq_self]
  exact fun e he => decide_eq_true (hself i e he)

/-- How the mergers follow an occasion that is answered: the failures answered are those of its
visits, the peer has a row, and each handle that it absorbs is another one, which every merger
registered by then is called for, in order, and once in all that is seen. -/
structure Occasion.Followed (o : Occasion σ) (r : Resolution) (after : Account σ)
    (seen : List (Visit σ)) : Prop where
  failures : r.failures = Visit.failures o.visits
  row : after.directory.rows.get? r.peer ≠ none
  ne_peer : ∀ i ∈ r.merged, i ≠ r.peer
  once : ∀ i ∈ r.merged,
    (Visit.about seen i).map Visit.errand = o.account.mergers.map (·, r.peer, i)

/-- **The mergers follow every occasion that is answered**, each once for each absorbed handle in
the whole run. -/
theorem Account.occasions_followed {calls : List (Call σ)} {account : Account σ}
    (hc : account.Coherent) (hn : (account.after calls).allotted + 1 < UInt64.size) {o : Occasion σ}
    (ho : o ∈ account.occasions calls) {r : Resolution} {after : Account σ}
    (h : o.Answers r after) :
    o.Followed r after ((account.occasions calls).flatMap Occasion.visits) := by
  obtain ⟨hct, hnt⟩ := coherent_of_mem_occasions hc hn ho
  have hnodup := nodup_absorbed calls hc hn
  obtain ⟨hfailures, herrands⟩ := Occasion.visits_of_answers h
  obtain ⟨e, s, -, hf⟩ | ⟨d, s, failures, account', hcommit, hr, hfollows⟩ :=
    resolveWith_cases (Directory.Coherent.hasNext hct hnt) o.markSelf o.request
  · exact absurd h.1 (hf.not_ok r)
  · obtain ⟨rfl, rfl⟩ := h.unique hr
    have hnext := Directory.Coherent.hasNext hct hnt
    refine ⟨hfailures, ?_, fun i hi => ?_, fun i hi => ?_⟩
    · rw [hfollows.directory, (commit_draft_returns hnext hcommit).1]
      exact Directory.row_resolved_peer_ne_none hnext o.markSelf o.request
    · exact ((Directory.mem_merged_outcome_iff hnext o.markSelf).mp hi).1
    · have hmerged : (o.account.directory.outcome o.request).merged.Nodup :=
        (Directory.Step.resolved o.account.directory o.markSelf o.request).nodup_merged
      have habout : Visit.about ((account.occasions calls).flatMap Occasion.visits) i =
          Visit.about o.visits i :=
        filter_flatMap_of_nodup (fun o' _ v hv => Occasion.absorbed_mem_of_mem_visits hv) hnodup ho
          (Occasion.absorbed_of_answers h ▸ hi)
      rw [habout, ← filter_errands o.account.mergers _ hmerged hi, ← herrands, Visit.about,
        List.filter_map]
      rfl

end PeerBook
