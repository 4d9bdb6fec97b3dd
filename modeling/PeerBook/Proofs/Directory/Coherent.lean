import PeerBook.Proofs.Directory.Lookup
import PeerBook.Proofs.Directory.Resolution
import PeerBook.Proofs.Redirects.Chains

/-!
# PeerBook.Proofs.Directory.Coherent

How a directory develops while it is in use (`Directory.Leads`), and what stays
true of it: no identifier is on two rows, no handle is above the last one that
was given out, no absorbed handle has a row, and every absorbed handle leads to
one that has (`Directory.Coherent`). So a handle that once stood for a peer
does so for good (`Knows.leads`).

- `Step` says once what one request can do: it resolves on trust, finds a peer,
  or adds one. Each part of the invariant is proved for a resolution and for an
  addition, and `Coherent.step` puts the cases together.
- `Leads` is any number of requests, with what became of each; `Coherent.leads`
  is the induction, and `Leads.invariant` the same for any other property that
  each request keeps.
- A handle is followed through redirects that were added at ends of chains only,
  so `Redirects.EndsAt.insertAll` is what `Knows.resolved` rests on.

The count of handles stands in the invariant, since it is what has to stay below
the greatest number.
-/

namespace PeerBook

open LawfulAddressTable

/-- What became of a request. -/
structure Finding where
  request : Address
  /-- Whether the request was trusted. -/
  trusted : Bool
  result : Reconciliation

/-- The number of rows that findings created. -/
def Finding.creations (fs : List Finding) : Nat := fs.countP (·.result.created)

theorem Finding.creations_cons (f : Finding) (fs : List Finding) :
    Finding.creations (f :: fs) = Finding.creations [f] + Finding.creations fs := by
  rw [Finding.creations, ← List.singleton_append, List.countP_append]
  rfl

namespace Directory

/-! ## Development -/

/-- A directory becomes another through one request. -/
inductive Step : Directory → Finding → Directory → Prop
  | resolved (d : Directory) (markSelf : Bool) (request : Address) :
      Step d ⟨request, true, d.outcome request⟩ (d.resolved markSelf request)
  | found {d : Directory} {request : Address} {p : Peer} (h : d.bestMatch? request = some p) :
      Step d ⟨request, false, ⟨p.id, [], [], false, false⟩⟩ d
  | added {d : Directory} {request : Address} (h : d.bestMatch? request = none) :
      Step d ⟨request, false, ⟨d.lastId.next, [], [], true, true⟩⟩ (d.added request)

/-- A directory becomes another through requests in order. -/
inductive Leads : Directory → List Finding → Directory → Prop
  | refl (d : Directory) : Leads d [] d
  | step {d d' d'' : Directory} {f : Finding} {fs : List Finding} (h : Step d f d')
      (rest : Leads d' fs d'') : Leads d (f :: fs) d''

/-- One request is a development of its own. -/
theorem Step.leads {d d' : Directory} {f : Finding} (h : Step d f d') : Leads d [f] d' :=
  .step h (.refl d')

/-- Developments are put together where one ends and the next begins. -/
theorem Leads.append {d d' d'' : Directory} {fs gs : List Finding} (h : Leads d fs d')
    (h' : Leads d' gs d'') : Leads d (fs ++ gs) d'' := by
  induction h with
  | refl => exact h'
  | step hs _ ih => exact .step hs (ih h')

/-- A handle stands for a peer. -/
def Knows (d : Directory) (i : PeerId) : Prop :=
  ∃ k, d.redirects.EndsAt i k ∧ d.rows.get? k ≠ none

/-- What is true of a directory that gave out `n` handles. -/
structure Coherent (d : Directory) (n : Nat) : Prop where
  lastId_eq : d.lastId.toNat = n
  unambiguous : Unambiguous d.rows.get?
  row_le : ∀ i, d.rows.get? i ≠ none → i.toNat ≤ n
  redirect_le : ∀ i j, d.redirects.get? i = some j → i.toNat ≤ n ∧ j.toNat ≤ n
  no_row : ∀ i j, d.redirects.get? i = some j → d.rows.get? i = none
  knows : ∀ i j, d.redirects.get? i = some j → d.Knows i

theorem coherent_empty : empty.Coherent 0 where
  lastId_eq := rfl
  unambiguous := by
    rintro i j x ⟨a, ha, -⟩
    contradiction
  row_le i h := absurd rfl h
  redirect_le i j h := by contradiction
  no_row i j h := by contradiction
  knows i j h := by contradiction

variable {d d' : Directory} {n : Nat} {f : Finding} {i : PeerId} {request : Address}

namespace Coherent

/-- As long as handles are left, the next one has no row. -/
theorem toNat_next (h : d.Coherent n) (hn : n + 1 < UInt64.size) : d.lastId.next.toNat = n + 1 := by
  have hl := h.lastId_eq
  rw [PeerId.toNat_next (by omega), hl]

/-- The next handle is not zero, which no directory gives out. -/
theorem next_ne_zero (h : d.Coherent n) (hn : n + 1 < UInt64.size) : d.lastId.next ≠ ⟨0⟩ :=
  PeerId.next_ne_zero (by rw [h.lastId_eq]; exact hn)

/-- As long as handles are left, the next one has no row. -/
theorem hasNext (h : d.Coherent n) (hn : n + 1 < UInt64.size) : d.HasNext := by
  refine hasNext_of_row_le ?_ ?_
  · rw [h.lastId_eq]
    exact h.row_le
  · rw [h.lastId_eq]
    exact hn

/-- A handle with a row was never absorbed, since absorbed handles have none. -/
theorem no_redirect (h : d.Coherent n) (hr : d.rows.get? i ≠ none) : d.redirects.get? i = none := by
  cases hi : d.redirects.get? i with
  | none => rfl
  | some j => exact absurd (h.no_row i j hi) hr

/-- A handle with a row stands for a peer: itself. -/
theorem knows_of_row (h : d.Coherent n) (hr : d.rows.get? i ≠ none) : d.Knows i :=
  ⟨i, Redirects.endsAt_self (h.no_redirect hr), hr⟩

/-- A handle that stands for a peer was given out. -/
theorem le_of_knows (h : d.Coherent n) (hi : d.Knows i) : i.toNat ≤ n := by
  obtain ⟨k, ⟨⟨passed, hc⟩, -⟩, hk⟩ := hi
  cases hc with
  | refl => exact h.row_le _ hk
  | step hj _ => exact (h.redirect_le _ _ hj).1

end Coherent

/-! ## Trusted resolutions keep it -/

/-- The peer of a resolution is not among the absorbed ones. -/
theorem not_mem_merged_peer (h : d.HasNext) (request : Address) :
    (d.outcome request).peer ∉ (d.outcome request).merged := by
  intro hm
  exact ((mem_merged_outcome_iff h false).mp hm).1 rfl

/-- The peer of a resolution was never absorbed. -/
theorem Coherent.no_redirect_peer (h : d.Coherent n) (hn : n + 1 < UInt64.size)
    (request : Address) : d.redirects.get? (d.outcome request).peer = none := by
  by_cases hr : d.rows.get? (d.outcome request).peer = none
  · have hp := peer_outcome_of_created ((created_outcome_iff (h.hasNext hn)).mpr hr)
    cases hi : d.redirects.get? (d.outcome request).peer with
    | none => rfl
    | some j =>
        have hle := (h.redirect_le _ j hi).1
        rw [hp, h.toNat_next hn] at hle
        omega
  · exact h.no_redirect hr

/-- Redirects that led to a handle lead to it still, or to the peer that it was absorbed into. -/
theorem Coherent.endsAt_resolved (h : d.Coherent n) (hn : n + 1 < UInt64.size) (markSelf : Bool)
    (request : Address) {k : PeerId} (hk : d.redirects.EndsAt i k) :
    (d.resolved markSelf request).redirects.EndsAt i
      (if k ∈ (d.outcome request).merged then (d.outcome request).peer else k) := by
  have hnext := h.hasNext hn
  rw [redirects_resolved d markSelf]
  exact hk.insertAll
    (fun a ha => h.no_redirect ((mem_merged_outcome_iff hnext markSelf).mp ha).2.1)
    (h.no_redirect_peer hn request) (not_mem_merged_peer hnext request)

/-- Where a row was there is one still, or it was absorbed and there is one where it went. The
peer's own row is in both cases among those that are there. -/
theorem Coherent.row_resolved_of_row (h : d.Coherent n) (hn : n + 1 < UInt64.size)
    (markSelf : Bool) (request : Address) {k : PeerId} (hk : d.rows.get? k ≠ none) :
    (d.resolved markSelf request).rows.get?
      (if k ∈ (d.outcome request).merged then (d.outcome request).peer else k) ≠ none := by
  have hnext := h.hasNext hn
  have hpeer := row_resolved_peer_ne_none hnext markSelf request
  split
  · exact hpeer
  · rename_i hm
    by_cases hkp : k = (d.outcome request).peer
    · rw [hkp]
      exact hpeer
    · exact fun hnone => hm ((mem_merged_outcome_iff hnext markSelf).mpr ⟨hkp, hk, hnone⟩)

/-- A handle goes on standing for a peer. -/
theorem Knows.resolved (hi : d.Knows i) (h : d.Coherent n) (hn : n + 1 < UInt64.size)
    (markSelf : Bool) (request : Address) : (d.resolved markSelf request).Knows i := by
  obtain ⟨k, hk, hkr⟩ := hi
  exact ⟨_, h.endsAt_resolved hn markSelf request hk,
    h.row_resolved_of_row hn markSelf request hkr⟩

/-- The last handle counts the new row, if there is one. -/
theorem Coherent.toNat_lastId_resolved (h : d.Coherent n) (hn : n + 1 < UInt64.size)
    (markSelf : Bool) (request : Address) :
    (d.resolved markSelf request).lastId.toNat =
      n + if (d.outcome request).created = true then 1 else 0 := by
  rw [lastId_resolved]
  split
  · exact h.toNat_next hn
  · exact h.lastId_eq

/-- The peer of a resolution was given out before or is the new one. -/
theorem Coherent.toNat_peer_le (h : d.Coherent n) (hn : n + 1 < UInt64.size)
    (request : Address) : (d.outcome request).peer.toNat ≤
      n + if (d.outcome request).created = true then 1 else 0 := by
  split
  · rename_i hc
    exact Nat.le_of_eq (by rw [peer_outcome_of_created hc, h.toNat_next hn])
  · rename_i hc
    rw [created_outcome_iff (h.hasNext hn)] at hc
    exact h.row_le _ hc

/-- A trusted resolution keeps a directory coherent, with one more handle given out if it added a
row. -/
theorem Coherent.resolved (h : d.Coherent n) (hn : n + 1 < UInt64.size) (markSelf : Bool)
    (request : Address) : (d.resolved markSelf request).Coherent
      (n + if (d.outcome request).created = true then 1 else 0) := by
  have hnext := h.hasNext hn
  have hpeer := h.toNat_peer_le hn request
  have hget (i : PeerId) : (d.resolved markSelf request).redirects.get? i =
      if i ∈ (d.outcome request).merged then some (d.outcome request).peer
      else d.redirects.get? i := by
    rw [redirects_resolved, Redirects.get?_insertAll]
  refine
    { lastId_eq := h.toNat_lastId_resolved hn markSelf request
      unambiguous := unambiguous_resolved hnext h.unambiguous markSelf request
      row_le := fun i hi => ?_
      redirect_le := fun i j hij => ?_
      no_row := fun i j hij => ?_
      knows := fun i j hij => ?_ }
  · by_cases hip : i = (d.outcome request).peer
    · rw [hip]
      exact hpeer
    · exact Nat.le_add_right_of_le (h.row_le i (row_of_row_resolved hnext hip hi))
  · rw [hget] at hij
    split at hij
    · rename_i hm
      cases hij
      have hr := ((mem_merged_outcome_iff hnext markSelf).mp hm).2.1
      exact ⟨Nat.le_add_right_of_le (h.row_le i hr), hpeer⟩
    · obtain ⟨hi, hj⟩ := h.redirect_le i j hij
      exact ⟨Nat.le_add_right_of_le hi, Nat.le_add_right_of_le hj⟩
  · rw [hget] at hij
    split at hij
    · rename_i hm
      exact ((mem_merged_outcome_iff hnext markSelf).mp hm).2.2
    · by_cases hip : i = (d.outcome request).peer
      · rw [hip, h.no_redirect_peer hn request] at hij
        contradiction
      · by_cases hr : (d.resolved markSelf request).rows.get? i = none
        · exact hr
        · exact absurd (h.no_row i j hij) (row_of_row_resolved hnext hip hr)
  · rw [hget] at hij
    refine Knows.resolved ?_ h hn markSelf request
    split at hij
    · rename_i hm
      exact h.knows_of_row ((mem_merged_outcome_iff hnext markSelf).mp hm).2.1
    · exact h.knows i j hij

/-! ## Look-ups keep it -/

/-- A look-up leaves the rows that are there. -/
theorem row_added_of_row (hi : d.rows.get? i ≠ none) (request : Address) :
    (d.added request).rows.get? i ≠ none := by
  rw [get?_rows_added]
  split
  · exact nofun
  · exact hi

/-- After a look-up a handle goes on standing for a peer, as no redirect has changed. -/
theorem Knows.added (hi : d.Knows i) (request : Address) : (d.added request).Knows i := by
  obtain ⟨k, hk, hkr⟩ := hi
  exact ⟨k, hk, row_added_of_row hkr request⟩

/-- A look-up that finds nothing adds a row that shares nothing with another: what it records is
part of an address that meets no row. -/
theorem noNewSharing_added (hnone : d.bestMatch? request = none) :
    NoNewSharing d.rows.get? (d.added request).rows.get? := by
  have hother : ∀ i x, Carries (d.added request).rows.get? i x → i ≠ d.lastId.next →
      Carries d.rows.get? i x ∧ x ∉ request.identifiers := by
    rintro i x ⟨a, ha, hx⟩ hi
    rw [get?_rows_added, if_neg hi] at ha
    refine ⟨⟨a, ha, hx⟩, fun hxr => bestMatch?_eq_none_iff.mp hnone i a ha ?_⟩
    exact Address.sharesWith_iff.mpr ⟨x, hx, hxr⟩
  have hnext : ∀ x, Carries (d.added request).rows.get? d.lastId.next x →
      x ∈ request.identifiers := by
    rintro x ⟨a, ha, hx⟩
    rw [get?_rows_added, if_pos rfl] at ha
    cases ha
    exact mem_of_mem_recordable hx
  intro i j x hij hi hj
  by_cases hin : i = d.lastId.next
  · have hjn : j ≠ d.lastId.next := fun hjn => hij (hin.trans hjn.symm)
    exact absurd (hnext x (hin ▸ hi)) (hother j x hj hjn).2
  · by_cases hjn : j = d.lastId.next
    · exact absurd (hnext x (hjn ▸ hj)) (hother i x hi hin).2
    · exact ⟨(hother i x hi hin).1, (hother j x hj hjn).1⟩

/-- A look-up that finds nothing keeps every identifier on one row at most. -/
theorem unambiguous_added (hu : Unambiguous d.rows.get?) (hnone : d.bestMatch? request = none) :
    Unambiguous (d.added request).rows.get? := (noNewSharing_added hnone).unambiguous hu

/-- A look-up that adds a row keeps a directory coherent, with one more handle given out. The new
handle was never redirected, and no redirect leads to it. -/
theorem Coherent.added (h : d.Coherent n) (hn : n + 1 < UInt64.size)
    (hnone : d.bestMatch? request = none) : (d.added request).Coherent (n + 1) := by
  refine
    { lastId_eq := h.toNat_next hn
      unambiguous := unambiguous_added h.unambiguous hnone
      row_le := fun i hi => ?_
      redirect_le := fun i j hij => ?_
      no_row := fun i j hij => ?_
      knows := fun i j hij => (h.knows i j hij).added request }
  · rw [get?_rows_added] at hi
    split at hi
    · rename_i hin
      exact Nat.le_of_eq (by rw [hin, h.toNat_next hn])
    · exact Nat.le_succ_of_le (h.row_le i hi)
  · obtain ⟨hi, hj⟩ := h.redirect_le i j hij
    exact ⟨Nat.le_succ_of_le hi, Nat.le_succ_of_le hj⟩
  · have hin : i ≠ d.lastId.next := by
      rintro rfl
      have := (h.redirect_le _ j hij).1
      rw [h.toNat_next hn] at this
      omega
    rw [get?_rows_added, if_neg hin]
    exact h.no_row i j hij

/-! ## Whole developments -/

/-- One request keeps a directory coherent, whatever kind of request it is. -/
theorem Coherent.step (h : d.Coherent n) (hs : d.Step f d') (hn : n + 1 < UInt64.size) :
    d'.Coherent (n + Finding.creations [f]) := by
  cases hs with
  | resolved markSelf request =>
      have hr := h.resolved hn markSelf request
      rw [Finding.creations, List.countP_singleton]
      exact hr
  | found _ => exact h
  | added hnone => exact h.added hn hnone

/-- One request leaves a handle standing for a peer. -/
theorem Knows.step (hi : d.Knows i) (h : d.Coherent n) (hs : d.Step f d')
    (hn : n + 1 < UInt64.size) : d'.Knows i := by
  cases hs with
  | resolved markSelf request => exact hi.resolved h hn markSelf request
  | found _ => exact hi
  | added _ => exact hi.added _

variable {fs : List Finding}

/-- **A directory stays coherent** as long as handles are left, by induction over the requests. -/
theorem Coherent.leads (h : d.Coherent n) (hl : d.Leads fs d')
    (hn : n + Finding.creations fs + 1 < UInt64.size) : d'.Coherent (n + Finding.creations fs) := by
  induction hl generalizing n with
  | refl => exact h
  | step hs _ ih =>
      rw [Finding.creations_cons] at hn ⊢
      rw [← Nat.add_assoc] at hn ⊢
      exact ih (h.step hs (by omega)) hn

/-- **A handle that stands for a peer does so for good.** -/
theorem Knows.leads (hi : d.Knows i) (h : d.Coherent n) (hl : d.Leads fs d')
    (hn : n + Finding.creations fs + 1 < UInt64.size) : d'.Knows i := by
  induction hl generalizing n with
  | refl => exact hi
  | step hs _ ih =>
      rw [Finding.creations_cons, ← Nat.add_assoc] at hn
      exact ih (hi.step h hs (by omega)) (h.step hs (by omega)) hn

/-- What each request keeps, with the findings so far, holds in the end with all of them. The step
may use that the directory is coherent and that handles are left, and need not prove either. -/
theorem Leads.invariant {P : List Finding → Directory → Prop} (hl : d.Leads fs d')
    (h : d.Coherent n) (hn : n + Finding.creations fs + 1 < UInt64.size) (base : P [] d)
    (step : ∀ {done f d₁ d₂ m}, d₁.Coherent m → m + 1 < UInt64.size → f ∈ fs → d₁.Step f d₂ →
      P done d₁ → P (done ++ [f]) d₂) : P fs d' := by
  suffices hall : ∀ {done}, P done d → P (done ++ fs) d' from hall base
  clear base
  induction hl generalizing n with
  | refl =>
      intro done hd
      rw [List.append_nil]
      exact hd
  | @step d₁ d₂ _ f fs hs _ ih =>
      intro done hd
      rw [Finding.creations_cons, ← Nat.add_assoc] at hn
      have hfirst := step h (by omega) List.mem_cons_self hs hd
      have hrest := ih (h.step hs (by omega)) hn
        (fun hc hm hg hs => step hc hm (List.mem_cons_of_mem f hg) hs) hfirst
      rw [List.append_assoc] at hrest
      exact hrest

/-- The handles that a request is answered with stand for peers: the peer has a row, and those that
were absorbed lead to it. -/
theorem Coherent.knows_found (h : d.Coherent n) (hs : d.Step f d') (hn : n + 1 < UInt64.size)
    (hi : i = f.result.peer ∨ i ∈ f.result.merged) : d'.Knows i := by
  have h' := h.step hs hn
  cases hs with
  | resolved markSelf request =>
      rcases hi with rfl | hi
      · exact h'.knows_of_row (row_resolved_peer_ne_none (h.hasNext hn) markSelf request)
      · have hr := ((mem_merged_outcome_iff (h.hasNext hn) markSelf).mp hi).2.1
        exact (h.knows_of_row hr).resolved h hn markSelf request
  | found hp =>
      rcases hi with rfl | hi
      · exact h.knows_of_row (by rw [(bestMatch?_spec hp).1]; exact nofun)
      · exact absurd hi List.not_mem_nil
  | added _ =>
      rcases hi with rfl | hi
      · refine h'.knows_of_row ?_
        rw [get?_rows_added, if_pos rfl]
        exact nofun
      · exact absurd hi List.not_mem_nil

/-- Every handle that was answered, as the peer or among the absorbed ones, stands for a peer in the
end. -/
theorem Leads.knows (hl : d.Leads fs d') (h : d.Coherent n)
    (hn : n + Finding.creations fs + 1 < UInt64.size) (hf : f ∈ fs)
    (hi : i = f.result.peer ∨ i ∈ f.result.merged) : d'.Knows i := by
  induction hl generalizing n with
  | refl => contradiction
  | step hs rest ih =>
      rw [Finding.creations_cons, ← Nat.add_assoc] at hn
      rcases List.mem_cons.mp hf with rfl | hf
      · exact (h.knows_found hs (by omega) hi).leads (h.step hs (by omega)) rest hn
      · exact ih (h.step hs (by omega)) hn hf

/-- A created row has the number after all those given out. -/
theorem Coherent.toNat_created (h : d.Coherent n) (hs : d.Step f d') (hn : n + 1 < UInt64.size)
    (hc : f.result.created = true) : f.result.peer.toNat = n + 1 := by
  rw [← h.toNat_next hn]
  cases hs with
  | resolved markSelf request => exact congrArg PeerId.toNat (peer_outcome_of_created hc)
  | found _ => contradiction
  | added _ => rfl

/-- A new row gets a handle above all that were given out. -/
theorem Leads.lt_of_created (hl : d.Leads fs d') (h : d.Coherent n)
    (hn : n + Finding.creations fs + 1 < UInt64.size) (hf : f ∈ fs)
    (hc : f.result.created = true) : n < f.result.peer.toNat := by
  induction hl generalizing n with
  | refl => contradiction
  | step hs rest ih =>
      rw [Finding.creations_cons, ← Nat.add_assoc] at hn
      rcases List.mem_cons.mp hf with rfl | hf
      · rw [h.toNat_created hs (by omega) hc]
        exact Nat.lt_succ_self n
      · exact Nat.lt_of_le_of_lt (Nat.le_add_right _ _) (ih (h.step hs (by omega)) hn hf)

/-- The last of several requests, with the development before it. Induction goes from the first
request on, so statements about the last one need this. -/
theorem Leads.last (hl : d.Leads (fs ++ [f]) d') : ∃ d₁, d.Leads fs d₁ ∧ d₁.Step f d' := by
  induction fs generalizing d with
  | nil =>
      cases hl with
      | step hs rest =>
          cases rest
          exact ⟨d, .refl d, hs⟩
  | cons g gs ih =>
      cases hl with
      | step hs rest =>
          obtain ⟨d₁, hl₁, hs₁⟩ := ih rest
          exact ⟨d₁, .step hs hl₁, hs₁⟩

/-- Right after a trusted request the row of its peer carries the request. -/
theorem Leads.row_last (hl : d.Leads (fs ++ [f]) d') (h : d.Coherent n)
    (hn : n + Finding.creations fs + 1 < UInt64.size) (ht : f.trusted = true) :
    ∃ a, d'.rows.get? f.result.peer = some a ∧ a.covers f.request = true := by
  obtain ⟨d₁, hl₁, hs⟩ := hl.last
  have h₁ := h.leads hl₁ hn
  cases hs with
  | resolved markSelf request => exact row_resolved_peer (h₁.hasNext hn) markSelf request
  | found _ => contradiction
  | added _ => contradiction

/-- A handle that was absorbed stays so: no request removes a redirect. -/
theorem Step.redirect (hs : d.Step f d')
    (hi : d.redirects.get? i ≠ none ∨ i ∈ f.result.merged) : d'.redirects.get? i ≠ none := by
  cases hs with
  | resolved markSelf request =>
      rw [redirects_resolved, Redirects.get?_insertAll]
      split
      · exact nofun
      · rename_i hm
        exact hi.resolve_right hm
  | found _ => exact hi.resolve_right List.not_mem_nil
  | added _ => exact hi.resolve_right List.not_mem_nil

/-- Whatever was absorbed before or on the way is redirected in the end, though perhaps to a handle
that was absorbed later itself. -/
theorem Leads.redirect (hl : d.Leads fs d')
    (hi : d.redirects.get? i ≠ none ∨ ∃ f ∈ fs, i ∈ f.result.merged) :
    d'.redirects.get? i ≠ none := by
  induction hl with
  | refl =>
      rcases hi with hi | ⟨f, hf, -⟩
      · exact hi
      · contradiction
  | step hs _ ih =>
      rcases hi with hi | ⟨g, hg, hm⟩
      · exact ih (.inl (hs.redirect (.inl hi)))
      · rcases List.mem_cons.mp hg with rfl | hg
        · exact ih (.inl (hs.redirect (.inr hm)))
        · exact ih (.inr ⟨g, hg, hm⟩)

/-! ## What is asked of handles -/

/-- A handle is followed to a row that was never absorbed, and that row is what it stands for. -/
def Resolves (d : Directory) (i : PeerId) : Prop :=
  ∃ a, d.rows.get? (d.follow i) = some a ∧ d.redirects.get? (d.follow i) = none ∧
    d.get? i = some ⟨d.follow i, a⟩

/-- A handle that stands for a peer is followed to the row of that peer. -/
theorem Knows.resolves (hi : d.Knows i) : d.Resolves i := by
  obtain ⟨k, hk, hkr⟩ := hi
  have hf : d.follow i = k := Redirects.follow_of_endsAt hk
  obtain ⟨a, ha⟩ := Option.ne_none_iff_exists'.mp hkr
  refine ⟨a, hf ▸ ha, hf ▸ hk.2, ?_⟩
  rw [Directory.get?, hf, ha, Option.map_some]

/-- The handles that stand for a peer are those that one is found for: following ends where the
chain does, and there the row is looked up. -/
theorem Coherent.knows_iff_get? (h : d.Coherent n) : d.Knows i ↔ d.get? i ≠ none := by
  constructor
  · intro hi
    obtain ⟨a, -, -, ha⟩ := hi.resolves
    rw [ha]
    exact nofun
  · intro hi
    cases hr : d.redirects.get? i with
    | some j => exact h.knows i j hr
    | none =>
        have hend := Redirects.endsAt_self hr
        rw [get?, follow, Redirects.follow_of_endsAt hend, ne_eq, Option.map_eq_none_iff] at hi
        exact ⟨i, hend, hi⟩

/-- No handle has both a row and a redirect, and the redirects have no cycle. -/
def Orderly (d : Directory) : Prop :=
  (∀ i, d.rows.get? i = none ∨ d.redirects.get? i = none) ∧
    ∀ i, ¬Relation.TransGen (fun i j => d.redirects.get? i = some j) i i

/-- A coherent directory is orderly: a handle whose chain ends is on no cycle, and each absorbed one
has such a chain. -/
theorem Coherent.orderly (h : d.Coherent n) : d.Orderly := by
  constructor
  · intro i
    cases hi : d.redirects.get? i with
    | none => exact .inr rfl
    | some j => exact .inl (h.no_row i j hi)
  · intro i hc
    obtain ⟨j, hj⟩ : ∃ j, d.redirects.get? i = some j := by
      cases hi : d.redirects.get? i with
      | some j => exact ⟨j, rfl⟩
      | none => exact absurd hc (Redirects.not_transGen_self (Redirects.endsAt_self hi))
    obtain ⟨k, hk, -⟩ := h.knows i j hj
    exact Redirects.not_transGen_self hk hc

end Directory

end PeerBook
