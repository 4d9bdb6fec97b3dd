import PeerBook.Proofs.Account.Calls

/-!
# PeerBook.Proofs.Account.Replies

What calls ask for (`Call.asks`) and what is answered (`Call.replies`,
`Account.replies`). A batch is one part of it after another, so what it answers
is what its parts answer, up to the first member that fails.

A batch that fails has no answer, but the members before the failure stay
resolved and what they were told counts as replies here; so `Call.replies` is
defined along the members and not from the answer. Where a call succeeds the two
are the same (`Call.replies_of_ok`), and there is a reply to all that it asks for
(`Call.replies_asked_of_ok`).
-/

namespace PeerBook

/-- What a call asks for, and whether it is trusted. -/
def Call.asks {σ : Type} : Call σ → List (Address × Bool)
  | .resolve _ request => [(request, true)]
  | .resolveBatch requests => requests.map (·, true)
  | .lookup request => [(request, false)]
  | .register _ => []

/-- What a reply is to. -/
def Reply.asked (r : Reply) : Address × Bool := (r.request, r.trusted)

variable {σ : Type} [Storage σ]

namespace Account

/-- A batch is one part of it after another. -/
theorem resolveBatch_append (requests requests' : List Address) :
    (resolveBatch (requests ++ requests') : Op (Account σ) _) = do
      let rs ← resolveBatch requests
      let rs' ← resolveBatch requests'
      return rs ++ rs' := by
  induction requests with
  | nil => simp [resolveBatch]
  | cons a as ih => simp [resolveBatch, ih]

/-- A batch is its first members and then the others, wherever it is cut. -/
theorem resolveBatch_split (n : Nat) (requests : List Address) :
    (resolveBatch requests : Op (Account σ) _) = do
      let rs ← resolveBatch (requests.take n)
      let rs' ← resolveBatch (requests.drop n)
      return rs ++ rs' := by
  rw [← resolveBatch_append, List.take_append_drop]

/-! ## What is answered -/

/-- The replies to the members of a batch, up to the first that fails. -/
def batchReplies (account : Account σ) : List Address → List Reply
  | [] => []
  | a :: as =>
    match ((resolveWith false a).run account).result with
    | .ok r =>
      .ofResolution a r :: batchReplies ((resolveWith false a).run account).state as
    | .error _ => []

end Account

/-- The replies to the requests of a call that were carried out. A batch that fails answers none
to its caller, but the members before the failure stay resolved: their replies are among these. -/
def Call.replies (account : Account σ) : Call σ → List Reply
  | .resolveBatch requests => account.batchReplies requests
  | c => (c.perform.run account).result.toOption.getD []

namespace Account

/-- The replies along a run, the oldest first. -/
def replies (account : Account σ) : List (Call σ) → List Reply
  | [] => []
  | c :: cs => c.replies account ++ replies (c.perform.run account).state cs

/-- A batch whose first member is answered has the reply to it, and then those to the others. -/
theorem batchReplies_of_returns {account account' : Account σ} {a : Address} {r : Resolution}
    (hr : (resolveWith false a).Returns account r account') (as : List Address) :
    account.batchReplies (a :: as) = .ofResolution a r :: account'.batchReplies as := by
  rw [batchReplies, hr.1, hr.2]

/-- A batch whose first member fails has no replies. -/
theorem batchReplies_of_fails {account account' : Account σ} {a : Address} {e : Error}
    (hf : (resolveWith false a).Fails account e account') (as : List Address) :
    account.batchReplies (a :: as) = [] := by
  rw [batchReplies, hf.1]

/-- After its first member a batch goes on with the others. -/
theorem resolveBatch_cons_state {account account' : Account σ} {a : Address} {r : Resolution}
    (hr : (resolveWith false a).Returns account r account') (as : List Address) :
    ((resolveBatch (a :: as)).run account).state = ((resolveBatch as).run account').state :=
  (hr.state_bind _).trans (Op.state_map _ _ _)

/-- After its first member has been answered, a batch ends as the rest of it does. -/
theorem resolveBatch_cons_result {account account' : Account σ} {a : Address} {r : Resolution}
    (hr : (resolveWith false a).Returns account r account') (as : List Address) :
    ((resolveBatch (a :: as)).run account).result =
      ((resolveBatch as).run account').result.map (r :: ·) :=
  (hr.result_bind _).trans (Op.result_map _ _ _)

/-- A batch that is answered answers the replies to its members: no member failed, so none is left
out. -/
theorem batchReplies_of_ok (requests : List Address) {account : Account σ} {rs : List Resolution}
    (h : ((resolveBatch requests).run account).result = .ok rs) :
    List.zipWith Reply.ofResolution requests rs = account.batchReplies requests := by
  induction requests generalizing account rs with
  | nil => rfl
  | cons a as ih =>
      obtain ⟨r, account', hr⟩ | ⟨e, account', hf⟩ :=
        Op.returns_or_fails (resolveWith false a) account
      · rw [resolveBatch_cons_result hr] at h
        obtain ⟨rs', hok, rfl⟩ := map_eq_ok_iff.mp h
        rw [batchReplies_of_returns hr, List.zipWith_cons_cons, ih hok]
      · have hbf : (resolveBatch (a :: as)).Fails account e account' := hf.bind _
        exact absurd h (hbf.not_ok rs)

/-- The replies to a batch are those to its first members, and then, if none of these failed, those
to the others. -/
theorem batchReplies_append (requests requests' : List Address) (account : Account σ) :
    account.batchReplies (requests ++ requests') = account.batchReplies requests ++
      match ((resolveBatch requests).run account).result with
      | .ok _ => ((resolveBatch requests).run account).state.batchReplies requests'
      | .error _ => [] := by
  induction requests generalizing account with
  | nil => rfl
  | cons a as ih =>
      rw [List.cons_append]
      obtain ⟨r, account', hr⟩ | ⟨e, account', hf⟩ :=
        Op.returns_or_fails (resolveWith false a) account
      · rw [batchReplies_of_returns hr, batchReplies_of_returns hr, ih,
          resolveBatch_cons_state hr, resolveBatch_cons_result hr, List.cons_append]
        cases ((resolveBatch as).run account').result <;> rfl
      · have hbf : (resolveBatch (a :: as)).Fails account e account' := hf.bind _
        rw [batchReplies_of_fails hf, batchReplies_of_fails hf, hbf.1]
        rfl

end Account

/-- A call that is answered answers its replies. -/
theorem Call.replies_of_ok {c : Call σ} {account : Account σ} {replies : List Reply}
    (h : (c.perform.run account).result = .ok replies) : c.replies account = replies := by
  cases c with
  | resolveBatch requests =>
      rw [Call.perform, Op.result_map] at h
      obtain ⟨rs, hok, rfl⟩ := map_eq_ok_iff.mp h
      exact (Account.batchReplies_of_ok requests hok).symm
  | resolve | lookup | register =>
      rw [Call.replies, h]
      · rfl
      · exact nofun

/-- A call other than a batch that fails has no replies. -/
theorem Call.replies_of_fails {c : Call σ} {account account' : Account σ} {e : Error}
    (h : c.perform.Fails account e account') (hc : ∀ requests, c ≠ .resolveBatch requests) :
    c.replies account = [] := by
  cases c with
  | resolveBatch requests => exact absurd rfl (hc requests)
  | resolve | lookup | register =>
      rw [Call.replies, h.1]
      · rfl
      · exact nofun

/-! ## What the replies are to -/

namespace Account

/-- The replies to a batch are to its first members. -/
theorem batchReplies_asked (requests : List Address) (account : Account σ) :
    (account.batchReplies requests).map Reply.asked <+: requests.map (·, true) := by
  induction requests generalizing account with
  | nil => exact List.prefix_rfl
  | cons a as ih =>
      obtain ⟨r, account', hr⟩ | ⟨e, account', hf⟩ :=
        Op.returns_or_fails (resolveWith false a) account
      · rw [batchReplies_of_returns hr, List.map_cons, List.map_cons]
        exact List.prefix_cons_inj _ |>.mpr (ih account')
      · rw [batchReplies_of_fails hf]
        exact List.nil_prefix

/-- A batch that is answered has a reply to each member, in their order, and all of them are trusted
requests. -/
theorem batchReplies_asked_of_ok (requests : List Address) {account : Account σ}
    {rs : List Resolution} (h : ((resolveBatch requests).run account).result = .ok rs) :
    (account.batchReplies requests).map Reply.asked = requests.map (·, true) := by
  induction requests generalizing account rs with
  | nil => rfl
  | cons a as ih =>
      obtain ⟨r, account', hr⟩ | ⟨e, account', hf⟩ :=
        Op.returns_or_fails (resolveWith false a) account
      · rw [resolveBatch_cons_result hr] at h
        obtain ⟨rs', hok, -⟩ := map_eq_ok_iff.mp h
        rw [batchReplies_of_returns hr, List.map_cons, List.map_cons, ih hok]
        rfl
      · have hbf : (resolveBatch (a :: as)).Fails account e account' := hf.bind _
        exact absurd h (hbf.not_ok rs)

end Account

/-- A call that is answered has a reply to all that it asks for, in the order in which it asks. -/
theorem Call.replies_asked_of_ok {c : Call σ} {account : Account σ} {replies : List Reply}
    (h : (c.perform.run account).result = .ok replies) :
    (c.replies account).map Reply.asked = c.asks := by
  cases c with
  | resolveBatch requests =>
      rw [Call.perform, Op.result_map] at h
      obtain ⟨rs, hok, -⟩ := map_eq_ok_iff.mp h
      exact Account.batchReplies_asked_of_ok requests hok
  | resolve | lookup =>
      rw [Call.replies_of_ok h]
      rw [Call.perform, Op.result_map] at h
      obtain ⟨r, -, rfl⟩ := map_eq_ok_iff.mp h
      rfl
  | register m =>
      rw [Call.replies_of_ok h]
      cases h
      rfl

/-- Every reply of a call is to something that it asks for, whether it succeeds or not. -/
theorem Call.asked_mem_asks {c : Call σ} {account : Account σ} {r : Reply}
    (h : r ∈ c.replies account) : r.asked ∈ c.asks := by
  cases c with
  | resolveBatch requests =>
      exact (Account.batchReplies_asked requests account).subset (List.mem_map_of_mem h)
  | resolve | lookup | register =>
      obtain ⟨replies, account', hr⟩ | ⟨e, account', hf⟩ := Op.returns_or_fails
        (Call.perform _) account
      · rw [← Call.replies_asked_of_ok hr.1]
        exact List.mem_map_of_mem h
      · rw [Call.replies_of_fails hf nofun] at h
        contradiction

/-- Every reply along a run is to something that one of its calls asks for. -/
theorem Account.asked_mem_asks {calls : List (Call σ)} {account : Account σ} {r : Reply}
    (h : r ∈ account.replies calls) : ∃ c ∈ calls, r.asked ∈ c.asks := by
  induction calls generalizing account with
  | nil => contradiction
  | cons c cs ih =>
      rw [Account.replies, List.mem_append] at h
      rcases h with h | h
      · exact ⟨c, List.mem_cons_self, c.asked_mem_asks h⟩
      · obtain ⟨c', hc', hr⟩ := ih h
        exact ⟨c', List.mem_cons_of_mem c hc', hr⟩

end PeerBook
