import PeerBook.Proofs.Address.ByKind
import PeerBook.Proofs.Samples

/-!
# PeerBook.Proofs.Address.Algebra

The operations on addresses fit together. Beside what is said of the rank and of
covering in `ByKind`, joining is associative and idempotent, though not
commutative, since of two identifiers of a kind the second is kept. An address of
which a part was taken away comes back when it is joined with that part, in either
order (`updatedWith_eq_of_covers`): the two have no kind in common.

- `shared?` names the part of an address that another one has, as `without?`
  names what is left; `updatedWith_shared?` puts the two together again.
- `mem_ifAgree` and `mem_unlessAgree` are the two facts about single places that
  all of this comes down to.

`Laws` lists what trusted resolution relies on when it chooses the row that
survives and disposes of the others, and `addresses_obey_laws` says that any
three addresses obey it.
-/

namespace PeerBook.Address

variable {a b c d e s : Address} {x : Identifier}

/-! ## Joining -/

/-- Joining three addresses does not depend on where one begins: of each kind the last one that has
an identifier counts. -/
theorem updatedWith_assoc (a b c : Address) :
    (a.updatedWith b).updatedWith c = a.updatedWith (b.updatedWith c) := by
  refine ext_at? fun k => ?_
  simp only [at?_updatedWith, Option.or_assoc]

theorem updatedWith_self (a : Address) : a.updatedWith a = a := by
  refine ext_at? fun k => ?_
  rw [at?_updatedWith, Option.or_self]

/-- A join has everything of its second part, since that counts before the first. -/
theorem covers_updatedWith (a b : Address) : (a.updatedWith b).covers b = true :=
  covers_iff.mpr fun _ => mem_updatedWith_right

/-- Parts of an address that are all of it together are joined to the address: a kind that both
parts have is one on which they agree. -/
theorem updatedWith_eq_of_covers (ha : e.covers a = true) (hb : e.covers b = true)
    (h : ∀ x ∈ e.identifiers, x ∈ a.identifiers ∨ x ∈ b.identifiers) : a.updatedWith b = e := by
  refine eq_of_covers (covers_iff.mpr fun x hx => ?_) (covers_iff.mpr fun x hx => ?_)
  · rcases h x hx with hxa | hxb
    · rw [mem_identifiers_iff] at hxa ⊢
      rw [at?_updatedWith]
      cases hy : b.at? x.kind with
      | none => exact hxa
      | some y =>
          have hye := mem_identifiers_iff.mp (covers_iff.mp hb y (mem_of_at? hy))
          rw [kind_of_at? hy, mem_identifiers_iff.mp hx] at hye
          exact hye.symm
    · exact mem_updatedWith_right hxb
  · rcases mem_of_mem_updatedWith hx with hxa | hxb
    · exact covers_iff.mp ha x hxa
    · exact covers_iff.mp hb x hxb

/-! ## Taking apart -/

/-- Exceeding is the opposite of being covered. -/
theorem exceeds_eq_false_iff : a.exceeds b = false ↔ b.covers a = true := by
  rw [exceeds, Bool.not_eq_false']

/-- An optional value if it agrees with another. -/
def ifAgree {α : Type} [DecidableEq α] (o p : Option α) : Option α := if agree o p then o else none

/-- The identifiers of `a` that are also those of `b`, if there are any. -/
def shared? (a b : Address) : Option Address :=
  ofIdentifiers? ⟨ifAgree a.aci b.aci, ifAgree a.pni b.pni, ifAgree a.number b.number,
    ifAgree a.username b.username⟩

/-- A value is kept where both places have it; it is the counterpart of `mem_unlessAgree`, and
between them every value of the first place is accounted for. -/
theorem mem_ifAgree {α : Type} [DecidableEq α] {o p : Option α} {y : α} :
    ifAgree o p = some y ↔ o = some y ∧ p = some y := by
  unfold ifAgree
  split
  · rename_i h
    obtain ⟨z, rfl, rfl⟩ := agree_eq_true.mp h
    simp
  · rename_i h
    constructor
    · intro hn
      contradiction
    · rintro ⟨ho, hp⟩
      exact absurd (agree_eq_true.mpr ⟨y, ho, hp⟩) h

/-- The identifiers that are kept place by place are those that both addresses have. -/
theorem mem_toList_ifAgree :
    x ∈ (⟨ifAgree a.aci b.aci, ifAgree a.pni b.pni, ifAgree a.number b.number,
        ifAgree a.username b.username⟩ : Identifiers).toList ↔
      x ∈ a.identifiers ∧ x ∈ b.identifiers := by
  simp only [identifiers, Identifiers.mem_toList_iff]
  cases x <;> exact mem_ifAgree

/-- The part that two addresses share has the identifiers of both. -/
theorem mem_shared? (h : a.shared? b = some s) :
    x ∈ s.identifiers ↔ x ∈ a.identifiers ∧ x ∈ b.identifiers := by
  rw [shared?, ofIdentifiers?_eq_some_iff] at h
  rw [← mem_toList_ifAgree, ← h]
  rfl

/-- Addresses share nothing just if they do not meet. -/
theorem shared?_eq_none_iff : a.shared? b = none ↔ a.sharesWith b = false := by
  rw [shared?, ofIdentifiers?_eq_none_iff, List.eq_nil_iff_forall_not_mem, ← Bool.not_eq_true,
    sharesWith_iff]
  simp only [mem_toList_ifAgree, not_exists]

/-- What is left of an address was part of it. -/
theorem covers_of_without? (h : a.without? b = some d) : a.covers d = true :=
  covers_iff.mpr fun _ hx => ((mem_without? h).mp hx).1

/-- What is left of an address does not meet what was taken away. -/
theorem not_sharesWith_of_without? (h : a.without? b = some d) : d.sharesWith b = false := by
  rw [← Bool.not_eq_true, sharesWith_iff]
  rintro ⟨x, hd, hb⟩
  exact ((mem_without? h).mp hd).2 hb

/-- Where two addresses share nothing, all is left: taking the one from the other changes
nothing. -/
theorem eq_of_shared?_eq_none (h : a.without? b = some d) (hs : a.shared? b = none) : d = a := by
  refine eq_of_covers (covers_iff.mpr fun x hx => ?_) (covers_of_without? h)
  rw [shared?_eq_none_iff, ← Bool.not_eq_true, sharesWith_iff] at hs
  exact (mem_without? h).mpr ⟨hx, fun hb => hs ⟨x, hx, hb⟩⟩

/-- What is left and what was taken away, joined in either order, are the whole: they have no kind
in common, so neither hides an identifier of the other. -/
theorem updatedWith_shared? (h : a.without? b = some d) (hs : a.shared? b = some s) :
    d.updatedWith s = a ∧ s.updatedWith d = a := by
  have hcs : a.covers s = true := covers_iff.mpr fun _ hx => ((mem_shared? hs).mp hx).1
  have hsplit (x : Identifier) (hx : x ∈ a.identifiers) :
      x ∈ d.identifiers ∨ x ∈ s.identifiers := by
    by_cases hb : x ∈ b.identifiers
    · exact .inr ((mem_shared? hs).mpr ⟨hx, hb⟩)
    · exact .inl ((mem_without? h).mpr ⟨hx, hb⟩)
  exact ⟨updatedWith_eq_of_covers (covers_of_without? h) hcs hsplit,
    updatedWith_eq_of_covers hcs (covers_of_without? h) fun x hx => (hsplit x hx).symm⟩

/-! ## The laws -/

/-- What holds of any three addresses. -/
structure Laws (a b c : Address) : Prop where
  /-- The rank is the same both ways, -/
  rank_comm : a.rank b = b.rank a
  /-- it is the strongest kind on which both agree, -/
  rank_eq_some : ∀ k, a.rank b = some k ↔ a.AgreeAt b k ∧ ∀ j, a.AgreeAt b j → j ≤ k
  /-- and there is one if they agree on any. -/
  rank_eq_none : a.rank b = none ↔ ∀ k, ¬a.AgreeAt b k
  /-- Two addresses meet just if they have a rank. -/
  sharesWith_iff : a.sharesWith b = true ↔ ∃ k, a.rank b = some k
  /-- Covering is reflexive, -/
  covers_self : a.covers a = true
  /-- antisymmetric -/
  covers_antisymm : a.covers b = true → b.covers a = true → a = b
  /-- and transitive. -/
  covers_trans : a.covers b = true → b.covers c = true → a.covers c = true
  /-- Joining is associative -/
  updatedWith_assoc : (a.updatedWith b).updatedWith c = a.updatedWith (b.updatedWith c)
  /-- and idempotent; -/
  updatedWith_self : a.updatedWith a = a
  /-- the join covers its second part -/
  covers_updatedWith : (a.updatedWith b).covers b = true
  /-- and has nothing that neither part has. -/
  mem_updatedWith : ∀ x ∈ (a.updatedWith b).identifiers, x ∈ a.identifiers ∨ x ∈ b.identifiers
  /-- Nothing is left of an address without one that covers it, -/
  without?_eq_none : a.without? b = none ↔ b.covers a = true
  /-- which is one that it does not exceed. -/
  without?_eq_none_iff_exceeds : a.without? b = none ↔ a.exceeds b = false
  /-- What is left otherwise is covered by the whole -/
  covers_without? : ∀ d, a.without? b = some d → a.covers d = true
  /-- and does not meet what was taken away, -/
  without?_apart : ∀ d, a.without? b = some d → d.sharesWith b = false
  /-- and it is all of the address if that shared nothing; -/
  without?_of_not_shared : ∀ d, a.without? b = some d → a.shared? b = none → d = a
  /-- otherwise joined with what was shared it is the whole again. -/
  without?_rejoined : ∀ d s, a.without? b = some d → a.shared? b = some s →
    d.updatedWith s = a ∧ s.updatedWith d = a
  /-- What covers an address meets whatever that address meets. -/
  sharesWith_mono : c.covers a = true → a.sharesWith b = true → c.sharesWith b = true

/-- **The algebra of addresses.** Comparing, joining and taking apart obey the laws, for any three
addresses; no law needs the addresses to have anything in common. -/
theorem addresses_obey_laws (a b c : Address) : Laws a b c where
  rank_comm := Address.rank_comm a b
  rank_eq_some _ := rank_eq_some_iff
  rank_eq_none := rank_eq_none_iff
  sharesWith_iff := Option.isSome_iff_exists
  covers_self := Address.covers_self a
  covers_antisymm := eq_of_covers
  covers_trans := Address.covers_trans
  updatedWith_assoc := Address.updatedWith_assoc a b c
  updatedWith_self := Address.updatedWith_self a
  covers_updatedWith := Address.covers_updatedWith a b
  mem_updatedWith _ := mem_of_mem_updatedWith
  without?_eq_none := without?_eq_none_iff
  without?_eq_none_iff_exceeds := without?_eq_none_iff.trans exceeds_eq_false_iff.symm
  covers_without? _ := covers_of_without?
  without?_apart _ := not_sharesWith_of_without?
  without?_of_not_shared _ := eq_of_shared?_eq_none
  without?_rejoined _ _ := updatedWith_shared?
  sharesWith_mono := sharesWith_of_covers_of_sharesWith

/-- The ACI is left of an ACI and a PNI when the PNI is taken away, and comes back together with it.
What is left does not meet the PNI, as the whole does, and with it a number joined to the whole. -/
theorem pni_taken_away_is_put_back :
    sampleProof.without? (ofPni (.sample 0)) = some (ofAci (.sample 0)) ∧
      sampleProof.shared? (ofPni (.sample 0)) = some (ofPni (.sample 0)) ∧
      sampleProof.rank (ofPni (.sample 0)) = some .pni ∧
      sampleProof.covers (ofAci (.sample 0)) = true ∧
      (ofAci (.sample 0)).sharesWith (ofPni (.sample 0)) = false ∧
      (ofAci (.sample 0)).updatedWith (ofPni (.sample 0)) = sampleProof ∧
      ((ofNumber .sample).updatedWith sampleProof).sharesWith (ofPni (.sample 0)) = true := by
  have laws := addresses_obey_laws sampleProof (ofPni (.sample 0))
    ((ofNumber .sample).updatedWith sampleProof)
  have hleft : sampleProof.without? (ofPni (.sample 0)) = some (ofAci (.sample 0)) := by decide
  have hshared : sampleProof.shared? (ofPni (.sample 0)) = some (ofPni (.sample 0)) := by decide
  have hrank : sampleProof.rank (ofPni (.sample 0)) = some .pni := by
    refine (laws.rank_eq_some .pni).mpr ⟨⟨.pni (.sample 0), rfl, rfl⟩, fun j hj => ?_⟩
    cases j with
    | aci =>
        obtain ⟨x, -, hx⟩ := hj
        contradiction
    | pni | number | username => decide
  exact ⟨hleft, hshared, hrank, laws.covers_without? _ hleft, laws.without?_apart _ hleft,
    (laws.without?_rejoined _ _ hleft hshared).1,
    laws.sharesWith_mono (by decide) (laws.sharesWith_iff.mpr ⟨_, hrank⟩)⟩

end PeerBook.Address
