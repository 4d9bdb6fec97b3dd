import PeerBook.Proofs.Reconcile.Rows

/-!
# PeerBook.Proofs.Reconcile.Ownership

Who carries an identifier. Where no identifier is carried by two rows, a
trusted resolution keeps it so (`unambiguous_settled`), and a row that carries
an account identity keeps it (`settled_keeps_aci`): such a row is never
absorbed and never loses it. Where some are, it matters that no more come to be
shared than were before (`NoNewSharing`).

- After a resolution the request is on the surviving row
  (`carries_settled_of_mem`) and no other row has any of it
  (`carries_settled_of_ne`).
- What else the surviving row carries comes from it or from a row that it
  absorbed (`carries_settled_survivor`).

These three are all that the invariants of a directory need to know of a
resolution.
-/

namespace PeerBook

/-- Whether the row of a handle carries an identifier. -/
def Carries (rows : PeerId → Option Address) (i : PeerId) (x : Identifier) : Prop :=
  ∃ a, rows i = some a ∧ x ∈ a.identifiers

/-- Carrying an identifier, as the program tests it on a table of addresses. -/
theorem carries_iff_any {rows : PeerId → Option Address} {i : PeerId} {x : Identifier} :
    Carries rows i x ↔ (rows i).any (·.identifiers.contains x) = true := by
  simp [Carries, Option.any_eq_true]

instance (rows : PeerId → Option Address) (i : PeerId) (x : Identifier) :
    Decidable (Carries rows i x) := decidable_of_iff' _ carries_iff_any

/-- No identifier is carried by two rows. -/
def Unambiguous (rows : PeerId → Option Address) : Prop :=
  ∀ i j x, Carries rows i x → Carries rows j x → i = j

theorem Unambiguous.mono {rows rows' : PeerId → Option Address} (h : Unambiguous rows)
    (hle : ∀ i x, Carries rows' i x → Carries rows i x) : Unambiguous rows' :=
  fun i j x hi hj => h i j x (hle i x hi) (hle j x hj)

/-- Whether an identifier comes to be shared: two rows carry it afterwards, and one of them did not
carry it before. -/
def NewlyShared (before after : PeerId → Option Address) (x : Identifier) : Prop :=
  ∃ i j, i ≠ j ∧ Carries after i x ∧ Carries after j x ∧ ¬Carries before i x

/-- What two rows share afterwards both carried before. -/
def NoNewSharing (before after : PeerId → Option Address) : Prop :=
  ∀ i j x, i ≠ j → Carries after i x → Carries after j x → Carries before i x ∧ Carries before j x

/-- That nothing comes to be shared is that no identifier is newly shared. -/
theorem noNewSharing_iff {before after : PeerId → Option Address} :
    NoNewSharing before after ↔ ¬∃ x, NewlyShared before after x := by
  constructor
  · rintro h ⟨x, i, j, hij, hi, hj, hb⟩
    exact hb (h i j x hij hi hj).1
  · intro h i j x hij hi hj
    exact ⟨Decidable.byContradiction fun hb => h ⟨x, i, j, hij, hi, hj, hb⟩,
      Decidable.byContradiction fun hb => h ⟨x, j, i, Ne.symm hij, hj, hi, hb⟩⟩

namespace NoNewSharing

variable {rows rows' rows'' : PeerId → Option Address}

theorem refl (rows : PeerId → Option Address) : NoNewSharing rows rows :=
  fun _ _ _ _ hi hj => ⟨hi, hj⟩

/-- Two changes after one another share nothing new if neither does. -/
theorem trans (h : NoNewSharing rows rows') (h' : NoNewSharing rows' rows'') :
    NoNewSharing rows rows'' := by
  intro i j x hij hi hj
  obtain ⟨hi', hj'⟩ := h' i j x hij hi hj
  exact h i j x hij hi' hj'

/-- Where nothing was shared nothing comes to be, so uniqueness is kept. -/
theorem unambiguous (h : NoNewSharing rows rows') (hu : Unambiguous rows) :
    Unambiguous rows' := by
  intro i j x hi hj
  refine Decidable.byContradiction fun hij => ?_
  obtain ⟨hi', hj'⟩ := h i j x hij hi hj
  exact hij (hu i j x hi' hj')

end NoNewSharing

open LawfulAddressTable

variable {τ : Type} [LawfulAddressTable τ] {t : τ} {request : Address}

/-- Afterwards the request is on the surviving row. -/
theorem carries_settled_of_mem (ht : Sound t) {x : Identifier} (hx : x ∈ request.identifiers) :
    Carries (row (settled request t).2) (settled request t).1.peer x := by
  obtain ⟨a, ha, hc, -⟩ := row_settled_survivor request ht
  exact ⟨a, ha, Address.covers_iff.mp hc x hx⟩

/-- What another row carries afterwards it carried before, and the request does not. -/
theorem carries_settled_of_ne (ht : Sound t) {i : PeerId} {x : Identifier}
    (hi : i ≠ (settled request t).1.peer) (h : Carries (row (settled request t).2) i x) :
    Carries (row t) i x ∧ x ∉ request.identifiers := by
  obtain ⟨b, hb, hx⟩ := h
  obtain ⟨a, ha, hab⟩ := mem_row_settled_of_ne ht hi hb
  obtain ⟨hxa, hxr⟩ := (hab x).mp hx
  exact ⟨⟨a, ha, hxa⟩, hxr⟩

/-- What the surviving row carries is in the request, or the row or an absorbed one carried it. -/
theorem carries_settled_survivor (ht : Sound t) {x : Identifier}
    (h : Carries (row (settled request t).2) (settled request t).1.peer x) :
    x ∈ request.identifiers ∨ ∃ i, (i = (settled request t).1.peer ∨
      row (settled request t).2 i = none) ∧ Carries (row t) i x := by
  obtain ⟨b, hb, hx⟩ := h
  obtain ⟨a, ha, -, hfrom⟩ := row_settled_survivor request ht
  cases ha.symm.trans hb
  refine (hfrom x hx).imp_right ?_
  rintro ⟨i, c, hi, hc, hxc⟩
  exact ⟨i, hi.imp_right fun hm => ((mem_merged_iff ht).mp hm).2.2, c, hc, hxc⟩

/-- **A resolution keeps every identifier on one row at most**: those of the request are on the
surviving row alone, the others where they were or where their row was absorbed. -/
theorem unambiguous_settled (ht : Sound t) (h : Unambiguous (row t)) :
    Unambiguous (row (settled request t).2) := by
  -- what the survivor carries no other row carries
  have hs : ∀ j x, Carries (row (settled request t).2) (settled request t).1.peer x →
      Carries (row (settled request t).2) j x → j = (settled request t).1.peer := by
    intro j x hx hj
    by_cases hne : j = (settled request t).1.peer
    · exact hne
    obtain ⟨hjt, hxr⟩ := carries_settled_of_ne ht hne hj
    obtain hr | ⟨i, hi, hit⟩ := carries_settled_survivor ht hx
    · exact absurd hr hxr
    obtain rfl := h i j x hit hjt
    rcases hi with hi | hn
    · exact hi
    · obtain ⟨b, hb, -⟩ := hj
      rw [hn] at hb
      contradiction
  intro i j x hi hj
  by_cases hip : i = (settled request t).1.peer
  · rw [hip] at hi ⊢
    exact (hs j x hi hj).symm
  by_cases hjp : j = (settled request t).1.peer
  · rw [hjp] at hj ⊢
    exact hs i x hj hi
  · exact h i j x (carries_settled_of_ne ht hip hi).1 (carries_settled_of_ne ht hjp hj).1

/-! ## Rows with an account identity -/

/-- The survivor of a plan keeps its account identity. If the request has an ACI it is the same one:
a row with another would have been passed over. -/
theorem aci_finalAddress_of_target {found : List Peer} {p : Peer} {z : Aci}
    (hp : Plan.target? request found = some p) (hz : p.address.aci = some z) :
    ((Plan.of request found).finalAddress request).aci = some z := by
  -- a request with another ACI would have passed the row over
  have hr : request.aci = none ∨ request.aci = some z := by
    cases hw : request.aci with
    | none => exact .inl rfl
    | some w =>
        obtain ⟨-, ⟨y, hy, hyp⟩ | ⟨-, k, hk, -⟩⟩ := Plan.target?_cases hp
        · rw [← hw, hy, ← hyp, hz]
          exact .inr rfl
        · obtain ⟨-, -, hc, -⟩ := Plan.eligible_iff.mp hk
          rw [Address.conflictsWith_iff] at hc
          refine .inr (congrArg some ?_)
          by_cases hwz : z = w
          · exact hwz.symm
          · exact absurd ⟨z, w, hz, hw, hwz⟩ hc
  rw [← Address.at?_aci_eq_some] at hz ⊢
  rw [Plan.at?_finalAddress, Plan.target_of, hp, Option.bind_some, hz]
  rcases hr with hr | hr
  · have hn : request.at? .aci = none := by rw [Address.at?, hr, Option.map_none]
    rw [hn, Option.none_or, Option.some_or]
  · rw [Address.at?_aci_eq_some.mpr hr, Option.some_or]

/-- Another row that carries an account identity of its own is not absorbed: at least that identity
is left of it. -/
theorem remainder?_ne_none_of_aci (ht : Sound t) (h : Unambiguous (row t)) {i : PeerId}
    {a : Address} {z : Aci} (ha : row t i = some a) (hsh : a.sharesWith request = true)
    (hz : a.aci = some z)
    (hi : ∀ q, Plan.target? request (found t request) = some q → i ≠ q.id) :
    Plan.remainder? request (Plan.expectedAci request (found t request)) ⟨i, a⟩ ≠ none ∧
      Identifier.aci z ∉ request.identifiers := by
  have hf : (⟨i, a⟩ : Peer) ∈ found t request := (mem_found ht).mpr ⟨ha, hsh⟩
  -- the survivor carries nothing that this row carries
  have hq : ∀ q, Plan.target? request (found t request) = some q → ∀ x,
      x ∈ a.identifiers → x ∉ q.address.identifiers := by
    intro q hq x hxa hxq
    have hqr := ((mem_found ht).mp (Plan.mem_of_target? hq)).1
    exact hi q hq (h i q.id x ⟨a, ha, hxa⟩ ⟨q.address, hqr, hxq⟩)
  have hza := Address.aci_mem_identifiers.mpr hz
  have hzr : Identifier.aci z ∉ request.identifiers := by
    intro hzr
    rw [Address.aci_mem_identifiers] at hzr
    obtain ⟨q, hqt, hqz⟩ := Plan.target?_of_owner hzr hf hz
    exact hq q hqt _ hza (Address.aci_mem_identifiers.mpr hqz)
  refine ⟨fun hn => ?_, hzr⟩
  rcases Plan.remainder?_eq_none_iff.mp hn with hc | ⟨hc, hs⟩
  · exact hzr (Address.covers_iff.mp hc _ hza)
  · cases hw : request.aci with
    | some w =>
        have he : Plan.expectedAci request (found t request) = some w := by
          rw [Plan.expectedAci, hw, Option.some_or]
        refine hc (Address.conflictsWith_iff.mpr ⟨z, w, hz, he, ?_⟩)
        rintro rfl
        exact hzr (Address.aci_mem_identifiers.mpr hw)
    | none =>
        rcases hs with ⟨x, -, hx⟩ | hs
        · rw [Address.at?, hw] at hx
          contradiction
        · obtain ⟨q, hqt, ⟨x, hxq, hx⟩, -⟩ := Plan.target?_of_pni hw hf hs
          obtain ⟨y, hya, hy⟩ := hs
          cases hx.symm.trans hy
          exact hq q hqt x (Address.mem_of_at? hya) (Address.mem_of_at? hxq)

/-- **A row that carries an account identity stays and keeps it**, in a table where no identifier is
on two rows. -/
theorem settled_keeps_aci (request : Address) (ht : Sound t) (h : Unambiguous (row t))
    {i : PeerId} {a : Address} {z : Aci} (ha : row t i = some a) (hz : a.aci = some z) :
    ∃ b, row (settled request t).2 i = some b ∧ b.aci = some z := by
  by_cases hi : i = (settled request t).1.peer
  · obtain ⟨p, -, -, hs⟩ | hs := settled_cases request t
    · rw [hs]
      exact ⟨a, ha, hz⟩
    · rw [hs] at hi ⊢
      rw [hi]
      exact ⟨_, Plan.row_applyTo_survivor request ht,
        aci_finalAddress_of_target (Plan.target?_of_row_peer ht ha hi) hz⟩
  · obtain ⟨hr, -⟩ | ⟨b, hb, hsh, hr⟩ := row_settled_of_ne ht hi
    · exact ⟨a, hr.trans ha, hz⟩
    · cases ha.symm.trans hb
      have hne : ∀ q, Plan.target? request (found t request) = some q → i ≠ q.id := by
        obtain ⟨p, hf, hc, hs⟩ | hs := settled_cases request t
        · intro q hq hiq
          refine hi ?_
          have hqf := Plan.mem_of_target? hq
          rw [hf, List.mem_singleton] at hqf
          rw [hs, hiq, hqf]
        · rw [hs] at hi
          exact Plan.ne_target_of_ne hi
      obtain ⟨hn, hzr⟩ := remainder?_ne_none_of_aci ht h ha hsh hz hne
      obtain ⟨c, hc⟩ := Option.ne_none_iff_exists'.mp hn
      refine ⟨c, hr.trans hc, Address.aci_mem_identifiers.mp ?_⟩
      rw [Address.mem_without? (Plan.without?_of_remainder? hc)]
      exact ⟨Address.aci_mem_identifiers.mpr hz, hzr⟩

end PeerBook
