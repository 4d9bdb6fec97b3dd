import PeerBook.Proofs.Reconcile.Run

/-!
# PeerBook.Proofs.Reconcile.Rows

The table after a trusted resolution, row by row. The surviving row carries the
request, and beyond it only what it or an absorbed row had
(`row_settled_survivor`); every other row keeps exactly what the request does
not carry (`mem_row_settled_of_ne`), and the absorbed rows are those that are
gone (`mem_merged_iff`). A row that does not meet the request is not touched
(`row_settled_of_not_sharesWith`).

A resolution that finds the request on one row already changes nothing
(`settled_of_covers`), every other carries out its plan; `settled_cases` is the
distinction, and is made once in each lemma here so that later modules need not
make it. `settled_induction` is for properties of a table that are kept by any
change and any insertion.
-/

namespace PeerBook

open LawfulAddressTable

variable {τ : Type} [LawfulAddressTable τ] {t : τ} {request : Address}

/-- A resolution finds one row with the whole request and changes nothing, or it carries out its
plan. -/
theorem settled_cases (request : Address) (t : τ) :
    (∃ p, found t request = [p] ∧ p.address.covers request = true ∧
        settled request t = (⟨p.id, [], [], false, false⟩, t)) ∨
      settled request t = ((Plan.of request (found t request)).outcome request (nextId t),
        (Plan.of request (found t request)).applyTo request t) := by
  unfold settled
  cases hc : coveredBy? request (found t request) with
  | none => exact .inr rfl
  | some p =>
      refine .inl ⟨p, ?_, ?_, rfl⟩ <;> unfold coveredBy? at hc <;> split at hc
      · split at hc <;> simp_all
      · contradiction
      · split at hc <;> simp_all
      · contradiction

namespace Plan

/-! ## A plan carried out -/

/-- A plan with a target answers the handle of that. -/
theorem peer_outcome_of_target {plan : Plan} {p : Peer} (h : plan.target = some p)
    (request : Address) (next : PeerId) : (plan.outcome request next).peer = p.id := by
  rw [outcome, h]

/-- A plan without a target answers the handle for a new row. -/
theorem peer_outcome_of_new {plan : Plan} (h : plan.target = none) (request : Address)
    (next : PeerId) : (plan.outcome request next).peer = next := by
  rw [outcome, h]

/-- The target of a plan is the row that was there under the surviving handle. -/
theorem target?_address (ht : Sound t) :
    (target? request (found t request)).map (·.address) =
      row t ((Plan.of request (found t request)).outcome request (nextId t)).peer := by
  cases hp : target? request (found t request) with
  | none => rw [peer_outcome_of_new hp, row_nextId ht, Option.map_none]
  | some p =>
      rw [peer_outcome_of_target hp, ((mem_found ht).mp (mem_of_target? hp)).1, Option.map_some]

/-- What was there under the surviving handle is the target. -/
theorem target?_of_row_peer (ht : Sound t) {i : PeerId} {a : Address} (ha : row t i = some a)
    (hi : i = ((Plan.of request (found t request)).outcome request (nextId t)).peer) :
    target? request (found t request) = some ⟨i, a⟩ := by
  subst hi
  rw [← target?_address ht] at ha
  obtain ⟨p, hp, rfl⟩ := Option.map_eq_some_iff.mp ha
  rw [peer_outcome_of_target hp]
  exact hp

@[simp] theorem merged_outcome (plan : Plan) (request : Address) (next : PeerId) :
    (plan.outcome request next).merged = plan.absorb.map Peer.id := by
  unfold outcome
  split <;> rfl

/-- Afterwards the surviving row holds the final address, whether it was there with another address,
had the final one already or is new. -/
theorem row_applyTo_survivor (request : Address) (ht : Sound t) :
    row ((Plan.of request (found t request)).applyTo request t)
        ((Plan.of request (found t request)).outcome request (nextId t)).peer =
      some ((Plan.of request (found t request)).finalAddress request) := by
  have hs := sound_changeAll ht (admits_losses request ht)
  unfold applyTo
  cases hp : target? request (found t request) with
  | none =>
      rw [peer_outcome_of_new hp, target_of, hp]
      dsimp only
      rw [row_insert _ hs, if_pos (nextId_changeAll t _).symm]
  | some p =>
      have hr := row_losses_target ht hp
      rw [peer_outcome_of_target hp, target_of, hp]
      dsimp only
      split
      · rename_i he
        rw [hr, he]
      · rw [row_change _ hs (by rw [hr]; exact nofun), if_pos rfl]

/-- The other rows are what the losses left of them; the final address goes to the surviving row
alone. -/
theorem row_applyTo_of_ne (ht : Sound t) {i : PeerId}
    (hi : i ≠ ((Plan.of request (found t request)).outcome request (nextId t)).peer) :
    row ((Plan.of request (found t request)).applyTo request t) i =
      row (changeAll t (Plan.of request (found t request)).losses) i := by
  have hs := sound_changeAll ht (admits_losses request ht)
  unfold applyTo
  cases hp : target? request (found t request) with
  | none =>
      rw [peer_outcome_of_new hp] at hi
      rw [target_of, hp]
      dsimp only
      rw [row_insert _ hs, nextId_changeAll, if_neg hi]
  | some p =>
      have hr := row_losses_target ht hp
      rw [peer_outcome_of_target hp] at hi
      rw [target_of, hp]
      dsimp only
      split
      · rfl
      · rw [row_change _ hs (by rw [hr]; exact nofun), if_neg hi]

/-- A found row other than the target is not the surviving one. -/
theorem ne_peer_outcome (ht : Sound t) {p : Peer} (hf : p ∈ found t request)
    (hne : ∀ q, target? request (found t request) = some q → p.id ≠ q.id) :
    p.id ≠ ((Plan.of request (found t request)).outcome request (nextId t)).peer := by
  intro hi
  exact hne _ (target?_of_row_peer ht ((mem_found ht).mp hf).1 hi) rfl

/-- A handle that does not survive is not that of the target. -/
theorem ne_target_of_ne {i next : PeerId}
    (hi : i ≠ ((Plan.of request (found t request)).outcome request next).peer) (p : Peer)
    (hp : target? request (found t request) = some p) : i ≠ p.id := by
  rw [peer_outcome_of_target hp] at hi
  exact hi

end Plan

/-! ## The surviving row -/

/-- The surviving row carries the request, and beyond it only what it or an absorbed row had. So an
identifier never comes to a row from nowhere. -/
theorem row_settled_survivor (request : Address) (ht : Sound t) :
    ∃ a, row (settled request t).2 (settled request t).1.peer = some a ∧
      a.covers request = true ∧
      ∀ x ∈ a.identifiers, x ∈ request.identifiers ∨
        ∃ i b, (i = (settled request t).1.peer ∨ i ∈ (settled request t).1.merged) ∧
          row t i = some b ∧ x ∈ b.identifiers := by
  obtain ⟨p, hf, hc, hs⟩ | hs := settled_cases request t
  · have hm : p ∈ found t request := hf ▸ List.mem_singleton_self p
    have hp := ((mem_found ht).mp hm).1
    rw [hs]
    exact ⟨p.address, hp, hc, fun x hx => .inr ⟨p.id, p.address, .inl rfl, hp, hx⟩⟩
  · rw [hs]
    refine ⟨_, Plan.row_applyTo_survivor request ht, Plan.covers_finalAddress _, fun x hx => ?_⟩
    obtain hx | ⟨p, hp, hx⟩ := Plan.mem_of_mem_finalAddress hx
    · exact .inl hx
    refine .inr ⟨p.id, p.address, ?_⟩
    rcases hp with hp | hp
    · have hr := ((mem_found ht).mp (Plan.mem_of_target? hp)).1
      exact ⟨.inl (Plan.peer_outcome_of_target hp _ _).symm, hr, hx⟩
    · have hr := ((mem_found ht).mp (Plan.mem_absorb.mp hp).1).1
      rw [Plan.merged_outcome]
      exact ⟨.inr (List.mem_map_of_mem hp), hr, hx⟩

/-! ## The other rows -/

/-- Another row is as before and met nothing of the request, or it met the request and is what the
plan leaves of it. -/
theorem row_settled_of_ne (ht : Sound t) {i : PeerId} (hi : i ≠ (settled request t).1.peer) :
    (row (settled request t).2 i = row t i ∧
        ∀ a, row t i = some a → ¬a.sharesWith request = true) ∨
      ∃ a, row t i = some a ∧ a.sharesWith request = true ∧
        row (settled request t).2 i =
          Plan.remainder? request (Plan.expectedAci request (found t request)) ⟨i, a⟩ := by
  obtain ⟨p, hf, -, hs⟩ | hs := settled_cases request t
  · rw [hs] at hi ⊢
    refine .inl ⟨rfl, fun a ha hm => hi ?_⟩
    have hq : (⟨i, a⟩ : Peer) ∈ found t request := (mem_found ht).mpr ⟨ha, hm⟩
    rw [hf, List.mem_singleton] at hq
    exact congrArg Peer.id hq
  · rw [hs] at hi ⊢
    have hne := Plan.ne_target_of_ne hi
    rw [Plan.row_applyTo_of_ne ht hi]
    by_cases hm : i ∈ (found t request).map Peer.id
    · obtain ⟨p, hp, rfl⟩ := List.mem_map.mp hm
      obtain ⟨hr, hsh⟩ := (mem_found ht).mp hp
      exact .inr ⟨p.address, hr, hsh, row_changeAll_of_mem ht (admits_losses request ht)
        (Plan.mem_losses_of_found hp hne)⟩
    · refine .inl ⟨row_changeAll_of_not_mem ht (admits_losses request ht) fun hl => hm ?_, ?_⟩
      · obtain ⟨c, hc, rfl⟩ := List.mem_map.mp hl
        obtain ⟨p, hp, hid, -⟩ := Plan.exists_found_of_mem_losses hc
        exact List.mem_map.mpr ⟨p, hp, hid⟩
      · intro a ha hsh
        exact hm (List.mem_map.mpr ⟨⟨i, a⟩, (mem_found ht).mpr ⟨ha, hsh⟩, rfl⟩)

/-- Another row keeps exactly what the request does not carry, unless it is gone. -/
theorem mem_row_settled_of_ne (ht : Sound t) {i : PeerId}
    (hi : i ≠ (settled request t).1.peer) {b : Address}
    (hb : row (settled request t).2 i = some b) :
    ∃ a, row t i = some a ∧
      ∀ x, x ∈ b.identifiers ↔ x ∈ a.identifiers ∧ x ∉ request.identifiers := by
  obtain ⟨hr, hm⟩ | ⟨a, ha, -, hr⟩ := row_settled_of_ne ht hi
  · have ha := hr.symm.trans hb
    refine ⟨b, ha, fun x => (and_iff_left_of_imp fun hx hxr => hm b ha ?_).symm⟩
    exact Address.sharesWith_iff.mpr ⟨x, hx, hxr⟩
  · rw [hr] at hb
    exact ⟨a, ha, fun x => Address.mem_without? (Plan.without?_of_remainder? hb)⟩

/-- The absorbed rows are those that were there and are gone. Since the surviving row is never among
them, the answer can be told from the table before and after. -/
theorem mem_merged_iff (ht : Sound t) {i : PeerId} :
    i ∈ (settled request t).1.merged ↔
      i ≠ (settled request t).1.peer ∧ row t i ≠ none ∧ row (settled request t).2 i = none := by
  obtain ⟨p, -, -, hs⟩ | hs := settled_cases request t
  · rw [hs]
    constructor
    · intro h
      exact absurd h List.not_mem_nil
    · rintro ⟨-, h, hn⟩
      exact absurd hn h
  · have hrow {j : PeerId} (hj : j ≠ (settled request t).1.peer) := row_settled_of_ne ht hj
    rw [hs] at hrow ⊢
    rw [Plan.merged_outcome, List.mem_map]
    constructor
    · rintro ⟨p, hp, rfl⟩
      obtain ⟨hf, hne, hrest⟩ := Plan.mem_absorb.mp hp
      obtain ⟨hr, -⟩ := (mem_found ht).mp hf
      have hi := Plan.ne_peer_outcome ht hf hne
      refine ⟨hi, by rw [hr]; exact nofun, ?_⟩
      rw [Plan.row_applyTo_of_ne ht hi, ← hrest]
      exact row_changeAll_of_mem ht (admits_losses request ht) (Plan.mem_losses_of_found hf hne)
    · rintro ⟨hi, hr, hn⟩
      obtain ⟨he, -⟩ | ⟨a, ha, hsh, he⟩ := hrow hi
      · exact absurd (he.symm.trans hn) hr
      · have hf : (⟨i, a⟩ : Peer) ∈ found t request := (mem_found ht).mpr ⟨ha, hsh⟩
        exact ⟨⟨i, a⟩, Plan.mem_absorb.mpr ⟨hf, Plan.ne_target_of_ne hi, he.symm.trans hn⟩, rfl⟩

/-! ## What becomes of a row -/

/-- The surviving row met the request, if it was there before. -/
theorem sharesWith_of_row_peer (ht : Sound t) {a : Address}
    (ha : row t (settled request t).1.peer = some a) : a.sharesWith request = true := by
  obtain ⟨p, hf, -, hs⟩ | hs := settled_cases request t
  · have hm : p ∈ found t request := hf ▸ List.mem_singleton_self p
    obtain ⟨hr, hsh⟩ := (mem_found ht).mp hm
    rw [hs] at ha
    cases hr.symm.trans ha
    exact hsh
  · rw [hs] at ha
    exact ((mem_found ht).mp (Plan.mem_of_target? (Plan.target?_of_row_peer ht ha rfl))).2

/-- A row stays under its handle with what the request does not carry, or it met the request and is
the surviving row or absorbed into it. -/
theorem row_settled_cases (ht : Sound t) {i : PeerId} {a : Address} (ha : row t i = some a) :
    (i ≠ (settled request t).1.peer ∧ ∃ b, row (settled request t).2 i = some b ∧
        ∀ x, x ∈ b.identifiers ↔ x ∈ a.identifiers ∧ x ∉ request.identifiers) ∨
      a.sharesWith request = true ∧
        (i = (settled request t).1.peer ∨ i ∈ (settled request t).1.merged) := by
  by_cases hi : i = (settled request t).1.peer
  · exact .inr ⟨sharesWith_of_row_peer ht (hi ▸ ha), .inl hi⟩
  cases hb : row (settled request t).2 i with
  | some b =>
      obtain ⟨a', ha', hab⟩ := mem_row_settled_of_ne ht hi hb
      cases ha.symm.trans ha'
      exact .inl ⟨hi, b, rfl, hab⟩
  | none =>
      have hm : i ∈ (settled request t).1.merged :=
        (mem_merged_iff ht).mpr ⟨hi, by rw [ha]; exact nofun, hb⟩
      obtain ⟨he, -⟩ | ⟨a', ha', hsh, -⟩ := row_settled_of_ne ht hi
      · rw [hb, ha] at he
        contradiction
      · cases ha.symm.trans ha'
        exact .inr ⟨hsh, .inr hm⟩

/-- A row that does not meet the request stays as it is. -/
theorem row_settled_of_not_sharesWith (ht : Sound t) {i : PeerId} {a : Address}
    (ha : row t i = some a) (hn : ¬a.sharesWith request = true) :
    row (settled request t).2 i = some a := by
  have hi : i ≠ (settled request t).1.peer := by
    rintro rfl
    exact hn (sharesWith_of_row_peer ht ha)
  obtain ⟨he, -⟩ | ⟨a', ha', hsh, -⟩ := row_settled_of_ne ht hi
  · exact he.trans ha
  · cases ha.symm.trans ha'
    exact absurd hsh hn

/-- Where one row alone meets the request, and carries all of it, nothing changes. -/
theorem settled_of_covers (ht : Sound t) {i : PeerId} {a : Address} (ha : row t i = some a)
    (hc : a.covers request = true)
    (honly : ∀ j b, row t j = some b → b.sharesWith request = true → j = i) :
    settled request t = (⟨i, [], [], false, false⟩, t) := by
  have hf : found t request = [⟨i, a⟩] :=
    (finds_of_sound ht).eq_singleton ha (Address.sharesWith_of_covers hc) honly
  unfold settled
  rw [hf, coveredBy?, if_pos hc]

/-! ## New rows -/

/-- A new peer has the next handle. -/
theorem peer_settled_of_created (h : (settled request t).1.created = true) :
    (settled request t).1.peer = nextId t := by
  obtain ⟨p, -, -, hs⟩ | hs := settled_cases request t
  · rw [hs] at h
    contradiction
  · rw [hs] at h ⊢
    cases hp : (Plan.of request (found t request)).target with
    | none => exact Plan.peer_outcome_of_new hp _ _
    | some p =>
        rw [Plan.outcome, hp] at h
        contradiction

/-- A new peer absorbs none: where a row could be absorbed it could survive as well, and then it
would have. -/
theorem merged_settled_of_created (ht : Sound t) (h : (settled request t).1.created = true) :
    (settled request t).1.merged = [] := by
  obtain ⟨p, -, -, hs⟩ | hs := settled_cases request t
  · rw [hs] at h
    contradiction
  · rw [hs] at h ⊢
    rw [Plan.merged_outcome]
    cases hp : Plan.target? request (found t request) with
    | none => rw [Plan.absorb_of_new hp fun p hp => ((mem_found ht).mp hp).2, List.map_nil]
    | some p =>
        rw [Plan.outcome, Plan.target_of, hp] at h
        contradiction

/-- A peer is new when it had no row. The handle for a new row is free in a sound table, so a peer
that had a row is never a new one. -/
theorem created_settled_iff (ht : Sound t) :
    (settled request t).1.created = true ↔ row t (settled request t).1.peer = none := by
  constructor
  · intro h
    rw [peer_settled_of_created h]
    exact row_nextId ht
  · intro hn
    obtain ⟨p, hf, -, hs⟩ | hs := settled_cases request t
    · have hm : p ∈ found t request := hf ▸ List.mem_singleton_self p
      rw [hs, ((mem_found ht).mp hm).1] at hn
      contradiction
    · rw [hs] at hn ⊢
      cases hp : Plan.target? request (found t request) with
      | none => rw [Plan.outcome, Plan.target_of, hp]
      | some p =>
          rw [Plan.peer_outcome_of_target hp] at hn
          rw [((mem_found ht).mp (Plan.mem_of_target? hp)).1] at hn
          contradiction

/-! ## What changes and insertions keep -/

/-- Whatever changes and insertions keep a resolution keeps, as it makes nothing but these. With it
nothing has to be known of the plan to see what a resolution cannot touch. -/
theorem settled_induction {P : τ → Prop} (request : Address) (h : P t)
    (hc : ∀ t id x, P t → P (change t id x)) (hi : ∀ t a, P t → P (insert t a)) :
    P (settled request t).2 := by
  have hall : ∀ cs t, P t → P (changeAll t cs) := by
    intro cs
    induction cs with
    | nil => exact fun t ht => ht
    | cons c cs ih => exact fun t ht => ih _ (hc t c.1 c.2 ht)
  obtain ⟨p, -, -, hs⟩ | hs := settled_cases request t
  · rw [hs]
    exact h
  · rw [hs]
    unfold Plan.applyTo
    split
    · split
      · exact hall _ t h
      · exact hc _ _ _ (hall _ t h)
    · exact hi _ _ (hall _ t h)

end PeerBook
