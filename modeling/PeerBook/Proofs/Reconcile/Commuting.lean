import PeerBook.Proofs.AddressTable.Stable
import PeerBook.Proofs.Reconcile.Ownership
import PeerBook.Proofs.Samples

/-!
# PeerBook.Proofs.Reconcile.Commuting

Trusted resolutions that have nothing to do with each other commute. What a
resolution makes of a row is a function of the row, the request and what the
request finds (`row_settled`). Where two requests share no identifier and no row
meets both, whatever one of them moves, merges or takes away leaves what the
other one finds (`Independent.found_settled`); so each does the same before and after
the other, and only the handles of new rows tell which came first
(`independent_resolutions_commute`).

A handle of a new row is drawn in the order of the resolutions, so where both add
a row the two are exchanged (`reordering`). The statement needs two free handles
for that, and tables that answer a request by the rows that meet it
(`StableAddressTable`).
-/

namespace PeerBook

/-- Exchanges two handles. -/
def PeerId.exchange (i j k : PeerId) : PeerId := if k = i then j else if k = j then i else k

/-- An exchange of two handles leaves every other handle. -/
theorem PeerId.exchange_of_ne {i j k : PeerId} (hi : k ≠ i) (hj : k ≠ j) : exchange i j k = k := by
  rw [exchange, if_neg hi, if_neg hj]

@[simp] theorem PeerId.exchange_left (i j : PeerId) : exchange i j i = j := if_pos rfl

@[simp] theorem PeerId.exchange_right (i j : PeerId) : exchange i j j = i := by
  unfold exchange
  split
  · assumption
  · exact if_pos rfl

/-- An exchange made twice is none. -/
@[simp] theorem PeerId.exchange_exchange (i j k : PeerId) : exchange i j (exchange i j k) = k := by
  by_cases hi : k = i
  · rw [hi, exchange_left, exchange_right]
  · by_cases hj : k = j
    · rw [hj, exchange_right, exchange_left]
    · rw [exchange_of_ne hi hj, exchange_of_ne hi hj]

open LawfulAddressTable StableAddressTable

/-! ## What becomes of each row -/

/-- The row that has the whole request already is one of those found. -/
theorem mem_of_coveredBy? {request : Address} {ps : List Peer} {p : Peer}
    (h : coveredBy? request ps = some p) : p ∈ ps := by
  unfold coveredBy? at h
  split at h
  · split at h
    · cases h
      exact List.mem_singleton_self p
    · contradiction
  · contradiction

namespace Plan

/-- The address of the surviving row. -/
def survivor (request : Address) (found : List Peer) : Address :=
  match coveredBy? request found with
  | some p => p.address
  | none => (Plan.of request found).finalAddress request

/-- What a resolution makes of the row of a handle, given what the request finds and the handle of
the surviving row. -/
def reshape (request : Address) (found : List Peer) (peer i : PeerId) (x : Option Address) :
    Option Address :=
  if i = peer then
    some (survivor request found)
  else
    x.bind fun a =>
      if a.sharesWith request then remainder? request (expectedAci request found) ⟨i, a⟩
      else some a

variable {request : Address} {found : List Peer} {peer i : PeerId} {a : Address}

/-- The surviving row gets the address that was gathered, whatever it had. -/
theorem reshape_peer (x : Option Address) :
    reshape request found peer peer x = some (survivor request found) := if_pos rfl

/-- A row that does not meet the request is left alone, unless it is the surviving one, which may be
new. -/
theorem reshape_of_not_sharesWith (hi : i ≠ peer) {x : Option Address}
    (h : ∀ a, x = some a → ¬a.sharesWith request = true) :
    reshape request found peer i x = x := by
  rw [reshape, if_neg hi]
  cases x with
  | none => rfl
  | some a => exact if_neg (h a rfl)

/-- What is left of a row was on it before. -/
theorem subset_of_remainder? {aci : Option Aci} {p : Peer} {b : Address}
    (h : remainder? request aci p = some b) {x : Identifier} (hx : x ∈ b.identifiers) :
    x ∈ p.address.identifiers :=
  ((Address.mem_without? (without?_of_remainder? h)).mp hx).1

/-- What a resolution makes of another row was on it before. -/
theorem subset_of_reshape (hi : i ≠ peer) {x : Option Address} {b : Address}
    (h : reshape request found peer i x = some b) :
    ∃ a, x = some a ∧ ∀ z ∈ b.identifiers, z ∈ a.identifiers := by
  rw [reshape, if_neg hi, Option.bind_eq_some_iff] at h
  obtain ⟨a, rfl, ha⟩ := h
  refine ⟨a, rfl, ?_⟩
  split at ha
  · exact fun z => subset_of_remainder? ha
  · cases ha
    exact fun z hz => hz

/-- Which handle a row has makes no difference, as long as the surviving row is the same one in both
cases. -/
theorem reshape_congr {peer' j : PeerId} (h : j = peer' ↔ i = peer) (x : Option Address) :
    reshape request found peer' j x = reshape request found peer i x := by
  unfold reshape
  by_cases hi : i = peer
  · rw [if_pos hi, if_pos (h.mpr hi)]
  · rw [if_neg hi, if_neg fun hj => hi (h.mp hj)]
    rfl

/-- The next handle makes a difference to an answer only if a row is added. -/
theorem outcome_congr (plan : Plan) (request : Address) (next next' : PeerId) :
    plan.outcome request next' = { plan.outcome request next with
      peer := if (plan.outcome request next).created then next'
        else (plan.outcome request next).peer } := by
  unfold outcome
  cases plan.target <;> rfl

end Plan

section

variable {τ : Type} [LawfulAddressTable τ] {t t' : τ} {request : Address}

/-- **The table after a resolution, row by row.** -/
theorem row_settled (request : Address) (ht : Sound t) (i : PeerId) :
    row (settled request t).2 i =
      Plan.reshape request (found t request) (settled request t).1.peer i (row t i) := by
  by_cases hi : i = (settled request t).1.peer
  · rw [hi, Plan.reshape_peer]
    unfold settled Plan.survivor
    cases hc : coveredBy? request (found t request) with
    | none => exact Plan.row_applyTo_survivor request ht
    | some p => exact ((mem_found ht).mp (mem_of_coveredBy? hc)).1
  · obtain ⟨hr, hn⟩ | ⟨a, ha, hsh, hr⟩ := row_settled_of_ne ht hi
    · rw [Plan.reshape_of_not_sharesWith hi hn, hr]
    · rw [hr, Plan.reshape, if_neg hi, ha, Option.bind_some, if_pos hsh]

/-- What a resolution answers depends on what it finds and, if it adds a row, on the next handle. -/
theorem settled_congr (h : found t' request = found t request) :
    (settled request t').1 = { (settled request t).1 with
      peer := if (settled request t).1.created then nextId t'
        else (settled request t).1.peer } := by
  unfold settled
  rw [h]
  cases coveredBy? request (found t request) with
  | some p => rfl
  | none => exact Plan.outcome_congr _ request _ _

end

/-! ## Requests that have nothing to do with each other -/

/-- Two requests that share no identifier, and no row meets both. -/
structure Independent {τ : Type} [LawfulAddressTable τ] (t : τ) (r₁ r₂ : Address) : Prop where
  disjoint : ∀ x ∈ r₁.identifiers, x ∉ r₂.identifiers
  not_both : ∀ i a, row t i = some a → a.sharesWith r₁ = true → ¬a.sharesWith r₂ = true

section

variable {τ : Type} [StableAddressTable τ] {t : τ} {request r₁ r₂ : Address}

theorem Independent.symm (h : Independent t r₁ r₂) : Independent t r₂ r₁ where
  disjoint x hx hx' := h.disjoint x hx' hx
  not_both i a ha hsh hsh' := h.not_both i a ha hsh' hsh

/-- A row that a resolution adds gets the next handle, and the one after that is the next then; a
resolution that adds none leaves the next handle. -/
theorem nextId_settled (request : Address) (t : τ) :
    nextId (settled request t).2 =
      if (settled request t).1.created then (nextId t).next else nextId t := by
  obtain ⟨p, -, -, hs⟩ | hs := settled_cases request t
  · rw [hs]
    rfl
  · rw [hs]
    unfold Plan.outcome Plan.applyTo
    cases (Plan.of request (found t request)).target with
    | none =>
        dsimp only
        rw [nextId_insert, nextId_changeAll, if_pos rfl]
    | some p =>
        dsimp only
        rw [if_neg Bool.false_ne_true]
        split
        · exact nextId_changeAll t _
        · rw [nextId_change, nextId_changeAll]

/-- A resolution leaves a sound table, as long as the handle after the next one is free. Changes
keep a table sound by themselves; only a new row takes the next handle. -/
theorem sound_settled (request : Address) (ht : Sound t) (hfree : row t (nextId t).next = none) :
    Sound (settled request t).2 := by
  have hadm := admits_losses request ht
  have hs := sound_changeAll ht hadm
  obtain ⟨p, -, -, he⟩ | he := settled_cases request t
  · rw [he]
    exact ht
  · rw [he]
    unfold Plan.applyTo
    cases hp : Plan.target? request (found t request) with
    | none =>
        rw [Plan.target_of, hp]
        refine sound_insert _ hs ?_
        rw [nextId_changeAll, row_changeAll_of_not_mem ht hadm fun hm => ?_]
        · exact hfree
        · obtain ⟨c, hc, hid⟩ := List.mem_map.mp hm
          exact hadm.2 c hc (hid ▸ hfree)
    | some p =>
        rw [Plan.target_of, hp]
        dsimp only
        split
        · exact hs
        · refine sound_change _ hs ?_
          rw [row_losses_target ht hp]
          exact nofun

namespace Independent

/-- A request does not meet what the other one makes the surviving row: that has the identifiers of
the other request, and of rows which the other request met. -/
theorem not_sharesWith_survivor (h : Independent t r₁ r₂) (ht : Sound t) :
    ¬(Plan.survivor r₁ (found t r₁)).sharesWith r₂ = true := by
  have hfound : ∀ p ∈ found t r₁, ¬p.address.sharesWith r₂ = true := by
    intro p hp
    obtain ⟨hr, hsh⟩ := (mem_found ht).mp hp
    exact h.not_both p.id p.address hr hsh
  unfold Plan.survivor
  cases hc : coveredBy? r₁ (found t r₁) with
  | some p => exact hfound p (mem_of_coveredBy? hc)
  | none =>
      intro hsh
      obtain ⟨x, hx, hx₂⟩ := Address.sharesWith_iff.mp hsh
      obtain hx₁ | ⟨p, hp, hxp⟩ := Plan.mem_of_mem_finalAddress hx
      · exact h.disjoint x hx₁ hx₂
      · have hpf : p ∈ found t r₁ := hp.elim Plan.mem_of_target? fun hp => (Plan.mem_absorb.mp hp).1
        exact hfound p hpf (Address.sharesWith_iff.mpr ⟨x, hxp, hx₂⟩)

/-- **A resolution leaves what the other request finds.** The rows that lose or go met the first
request, so the second does not meet them, before or after; and the surviving row it does not meet
either. -/
theorem found_settled (h : Independent t r₁ r₂) (ht : Sound t) :
    found (settled r₁ t).2 r₂ = found t r₂ := by
  have hadm := admits_losses r₁ ht
  have hs := sound_changeAll ht hadm
  have hfinal := h.not_sharesWith_survivor ht
  -- rows that lose or go met the first request, and lose at most
  have hlosses : found (changeAll t (Plan.of r₁ (found t r₁)).losses) r₂ = found t r₂ := by
    refine found_changeAll ht hadm (fun c hc a ha => ?_) fun c hc b hb hsh => ?_
    · obtain ⟨p, hp, hid, -⟩ := Plan.exists_found_of_mem_losses hc
      obtain ⟨hr, hsh⟩ := (mem_found ht).mp hp
      rw [← hid, hr, Option.some.injEq] at ha
      exact h.not_both p.id a (hr.trans (congrArg some ha)) (ha ▸ hsh)
    · obtain ⟨i, x⟩ := c
      obtain rfl : x = some b := hb
      obtain ⟨p, hp, -, -, hrest⟩ := Plan.mem_strip.mp (Plan.mem_losses_some.mp hc)
      obtain ⟨hr, hshp⟩ := (mem_found ht).mp hp
      obtain ⟨z, hz, hz₂⟩ := Address.sharesWith_iff.mp hsh
      refine h.not_both p.id p.address hr hshp (Address.sharesWith_iff.mpr ⟨z, ?_, hz₂⟩)
      exact Plan.subset_of_remainder? hrest hz
  unfold settled
  unfold Plan.survivor at hfinal
  cases hc : coveredBy? r₁ (found t r₁) with
  | some p => rfl
  | none =>
      rw [hc] at hfinal
      dsimp only at hfinal ⊢
      rw [← hlosses]
      unfold Plan.applyTo
      cases hp : Plan.target? r₁ (found t r₁) with
      | none =>
          rw [Plan.target_of, hp]
          exact found_insert hs hfinal
      | some p =>
          rw [Plan.target_of, hp]
          dsimp only
          split
          · rfl
          · have hrow := row_losses_target ht hp
            obtain ⟨hr, hsh⟩ := (mem_found ht).mp (Plan.mem_of_target? hp)
            refine found_change hs (by rw [hrow]; exact nofun) (fun a ha => ?_) fun a ha => ?_
            · rw [hrow, Option.some.injEq] at ha
              exact ha ▸ h.not_both p.id p.address hr hsh
            · exact Option.some.inj ha ▸ hfinal

/-- The two rows that survive are not the same: each met one of the requests or is new. -/
theorem peer_ne (h : Independent t r₁ r₂) (ht : Sound t) (hs : Sound (settled r₁ t).2) :
    (settled r₁ t).1.peer ≠ (settled r₂ (settled r₁ t).2).1.peer := by
  intro he
  have hrow := row_settled r₁ ht (settled r₁ t).1.peer
  rw [Plan.reshape_peer, he] at hrow
  exact h.not_sharesWith_survivor ht (sharesWith_of_row_peer hs hrow)

/-- What the two make of a row they make of it in either order. A row that only one request meets is
left alone by the other, before and after, and no row is met by both. -/
theorem reshape_comm (h : Independent t r₁ r₂) (ht : Sound t) {p₁ p₂ : PeerId} (hne : p₁ ≠ p₂)
    (i : PeerId) :
    Plan.reshape r₂ (found t r₂) p₂ i (Plan.reshape r₁ (found t r₁) p₁ i (row t i)) =
      Plan.reshape r₁ (found t r₁) p₁ i (Plan.reshape r₂ (found t r₂) p₂ i (row t i)) := by
  have hsurvivor₁ := h.not_sharesWith_survivor ht
  have hsurvivor₂ := h.symm.not_sharesWith_survivor ht
  by_cases h₁ : i = p₁
  · subst h₁
    rw [Plan.reshape_peer, Plan.reshape_peer, Plan.reshape_of_not_sharesWith hne]
    intro a ha
    cases ha
    exact hsurvivor₁
  by_cases h₂ : i = p₂
  · subst h₂
    rw [Plan.reshape_peer, Plan.reshape_peer, Plan.reshape_of_not_sharesWith h₁]
    intro a ha
    cases ha
    exact hsurvivor₂
  -- a row that only one request meets is left alone by the other, before and after
  have hkeep {q q' : Address} (hq : ∀ a, row t i = some a → ¬a.sharesWith q' = true) {p : PeerId}
      (hp : i ≠ p) : ∀ b, Plan.reshape q (found t q) p i (row t i) = some b →
        ¬b.sharesWith q' = true := by
    intro b hb hsh
    obtain ⟨a, ha, hsub⟩ := Plan.subset_of_reshape hp hb
    obtain ⟨z, hz, hz'⟩ := Address.sharesWith_iff.mp hsh
    exact hq a ha (Address.sharesWith_iff.mpr ⟨z, hsub z hz, hz'⟩)
  by_cases hm : ∃ a, row t i = some a ∧ a.sharesWith r₁ = true
  · obtain ⟨a, ha, hsh⟩ := hm
    have hn : ∀ b, row t i = some b → ¬b.sharesWith r₂ = true := by
      intro b hb
      rw [ha] at hb
      cases hb
      exact h.not_both i a ha hsh
    rw [Plan.reshape_of_not_sharesWith h₂ (hkeep hn h₁), Plan.reshape_of_not_sharesWith h₂ hn]
  · have hn : ∀ b, row t i = some b → ¬b.sharesWith r₁ = true := fun b hb hsh => hm ⟨b, hb, hsh⟩
    rw [Plan.reshape_of_not_sharesWith h₁ (hkeep hn h₂), Plan.reshape_of_not_sharesWith h₁ hn]

end Independent

/-! ## Either order -/

/-- How handles after two resolutions compare with those after the same in the other order: where
both add a row, the two new handles are exchanged. -/
def reordering (o₁ o₂ : Reconciliation) (next : PeerId) : PeerId → PeerId :=
  if o₁.created && o₂.created then PeerId.exchange next next.next else id

/-- Exchanging the new handles twice changes nothing. -/
theorem reordering_reordering (o₁ o₂ : Reconciliation) (next i : PeerId) :
    reordering o₁ o₂ next (reordering o₁ o₂ next i) = i := by
  unfold reordering
  split
  · exact PeerId.exchange_exchange _ _ i
  · rfl

/-- The handles that are exchanged had no rows, so the exchange does not show in the table
before. -/
theorem row_reordering (ht : Sound t) (hfree : row t (nextId t).next = none)
    (o₁ o₂ : Reconciliation)
    (i : PeerId) : row t (reordering o₁ o₂ (nextId t) i) = row t i := by
  unfold reordering
  split
  · by_cases hi : i = nextId t
    · rw [hi, PeerId.exchange_left, hfree, row_nextId ht]
    · by_cases hj : i = (nextId t).next
      · rw [hj, PeerId.exchange_right, hfree, row_nextId ht]
      · rw [PeerId.exchange_of_ne hi hj]
  · rfl

namespace Independent

/-- The first resolution answers the same as it does after the other one, but for a new handle. -/
theorem settled_first (h : Independent t r₁ r₂) (ht : Sound t) :
    (settled r₁ (settled r₂ t).2).1 = { (settled r₁ t).1 with
      peer := reordering (settled r₁ t).1 (settled r₂ (settled r₁ t).2).1 (nextId t)
        (settled r₁ t).1.peer } := by
  have hcreated := congrArg Reconciliation.created (settled_congr (h.found_settled ht))
  rw [settled_congr (h.symm.found_settled ht), nextId_settled, reordering, hcreated]
  cases h₁ : (settled r₁ t).1.created with
  | false => rfl
  | true =>
      rw [peer_settled_of_created h₁]
      cases (settled r₂ t).1.created <;> simp

/-- The second resolution answers the same as it does before the other one, but for a new handle: it
finds the same rows, and the next handle may be one further on. -/
theorem settled_second (h : Independent t r₁ r₂) (ht : Sound t) :
    (settled r₂ t).1 = { (settled r₂ (settled r₁ t).2).1 with
      peer := reordering (settled r₁ t).1 (settled r₂ (settled r₁ t).2).1 (nextId t)
        (settled r₂ (settled r₁ t).2).1.peer } := by
  have hpeer : (settled r₂ t).1.created = true → (settled r₂ t).1.peer = nextId t :=
    peer_settled_of_created
  rw [settled_congr (h.found_settled ht), nextId_settled, reordering]
  generalize (settled r₂ t).1 = o at hpeer ⊢
  obtain ⟨peer, merged, stripped, created, changed⟩ := o
  cases created with
  | false => cases (settled r₁ t).1.created <;> rfl
  | true =>
      obtain rfl : peer = nextId t := hpeer rfl
      cases (settled r₁ t).1.created <;> simp

end Independent

/-- **Resolutions that have nothing to do with each other commute.** On a sound table with two free
handles: two trusted requests that share no identifier, and that no row meets both, are resolved in
either order, with the same answers and the same table in the end, up to an exchange of the two new
handles where both add a row. -/
theorem independent_resolutions_commute (ht : Sound t) (hfree : row t (nextId t).next = none)
    (h : Independent t r₁ r₂) :
    ∃ o₁ t₁ o₂ t₁₂ o₂' t₂ o₁' t₂₁,
      (reconcile r₁).Returns t o₁ t₁ ∧ (reconcile r₂).Returns t₁ o₂ t₁₂ ∧
      (reconcile r₂).Returns t o₂' t₂ ∧ (reconcile r₁).Returns t₂ o₁' t₂₁ ∧
      o₁' = { o₁ with peer := reordering o₁ o₂ (nextId t) o₁.peer } ∧
      o₂' = { o₂ with peer := reordering o₁ o₂ (nextId t) o₂.peer } ∧
      (∀ i, row t₂₁ (reordering o₁ o₂ (nextId t) i) = row t₁₂ i) ∧ nextId t₂₁ = nextId t₁₂ := by
  have hs₁ := sound_settled r₁ ht hfree
  have hs₂ := sound_settled r₂ ht hfree
  have hfirst := h.settled_first ht
  have hsecond := h.settled_second ht
  refine ⟨_, _, _, _, _, _, _, _, reconcile_returns r₁ ht, reconcile_returns r₂ hs₁,
    reconcile_returns r₂ ht, reconcile_returns r₁ hs₂, hfirst, hsecond, fun i => ?_, ?_⟩
  · rw [row_settled r₁ hs₂, row_settled r₂ ht, row_settled r₂ hs₁, row_settled r₁ ht,
      h.found_settled ht, h.symm.found_settled ht, row_reordering ht hfree,
      congrArg Reconciliation.peer hfirst, congrArg Reconciliation.peer hsecond,
      h.reshape_comm ht (h.peer_ne ht hs₁)]
    -- a renamed handle is the renamed survivor when it is the survivor
    have hinj {j : PeerId} :
        reordering (settled r₁ t).1 (settled r₂ (settled r₁ t).2).1 (nextId t) i =
          reordering (settled r₁ t).1 (settled r₂ (settled r₁ t).2).1 (nextId t) j ↔ i = j :=
      Function.LeftInverse.injective (reordering_reordering _ _ _) |>.eq_iff
    rw [Plan.reshape_congr hinj, Plan.reshape_congr hinj]
  · have hcreated₁ := congrArg Reconciliation.created hfirst
    have hcreated₂ := congrArg Reconciliation.created hsecond
    rw [nextId_settled, nextId_settled, nextId_settled, nextId_settled, hcreated₁, hcreated₂]
    dsimp only
    split <;> split <;> rfl

end

/-! ## Two requests that add a row each -/

/-- A phone-number identity on the row of another account. -/
def Rows.sample : Rows := ⟨[⟨⟨1⟩, .sampleProof⟩, ⟨⟨2⟩, .ofPni (.sample 1)⟩], ⟨3⟩⟩

/-- One request takes the phone-number identity to a new account, the other one is for an account
not met before: the handle of either depends on which comes first. -/
theorem sample_resolutions_commute :
    ∃ o₁ t₁ o₂ t₁₂ o₂' t₂ o₁' t₂₁,
      (reconcile ((Address.ofAci (.sample 1)).withPni (.sample 0))).Returns Rows.sample o₁ t₁ ∧
      (reconcile (.ofAci (.sample 2))).Returns t₁ o₂ t₁₂ ∧
      (reconcile (.ofAci (.sample 2))).Returns Rows.sample o₂' t₂ ∧
      (reconcile ((Address.ofAci (.sample 1)).withPni (.sample 0))).Returns t₂ o₁' t₂₁ ∧
      o₁ = ⟨⟨3⟩, [], [⟨1⟩], true, true⟩ ∧ o₁' = ⟨⟨4⟩, [], [⟨1⟩], true, true⟩ ∧
      o₂ = ⟨⟨4⟩, [], [], true, true⟩ ∧ o₂' = ⟨⟨3⟩, [], [], true, true⟩ ∧
      ∀ i, row t₂₁ (PeerId.exchange ⟨3⟩ ⟨4⟩ i) = row t₁₂ i := by
  have hs : Rows.sample.Distinct := ⟨by decide, by decide⟩
  have h : Independent Rows.sample ((Address.ofAci (.sample 1)).withPni (.sample 0))
      (.ofAci (.sample 2)) := by
    refine ⟨by decide, fun i a ha => ?_⟩
    have hp : (⟨i, a⟩ : Peer) ∈ Rows.sample.peers := (Peer.lookup_eq_some_iff hs.1).mp ha
    have hall : ∀ p ∈ Rows.sample.peers, ¬p.address.sharesWith (.ofAci (.sample 2)) = true := by
      decide
    exact fun _ => hall _ hp
  obtain ⟨o₁, t₁, o₂, t₁₂, o₂', t₂, o₁', t₂₁, h₁, h₁₂, h₂, h₂₁, ho₁, ho₂, hrows, -⟩ :=
    independent_resolutions_commute hs rfl h
  have he₁ : ((reconcile ((Address.ofAci (.sample 1)).withPni (.sample 0))).run
      Rows.sample).result.toOption = some ⟨⟨3⟩, [], [⟨1⟩], true, true⟩ := by decide +kernel
  have he₂ : ((reconcile (.ofAci (.sample 2))).run ((reconcile
      ((Address.ofAci (.sample 1)).withPni (.sample 0))).run Rows.sample).state).result.toOption =
        some ⟨⟨4⟩, [], [], true, true⟩ := by decide +kernel
  rw [h₁.1] at he₁
  rw [h₁.2, h₁₂.1] at he₂
  obtain rfl := Option.some.inj he₁
  obtain rfl := Option.some.inj he₂
  exact ⟨_, t₁, _, t₁₂, o₂', t₂, o₁', t₂₁, h₁, h₁₂, h₂, h₂₁, rfl, ho₁, rfl, ho₂, hrows⟩

end PeerBook
