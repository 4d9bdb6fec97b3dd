import PeerBook.Address

/-!
# PeerBook.Proofs.Address.ByKind

An address is a partial function from kinds to identifiers (`Address.at?`), and
each operation on addresses is one equation about that function:

* `at?_updatedWith` — joining two addresses is `Option.or` at every kind;
* `rank_eq_some_iff` — the rank is the strongest kind on which two agree.

What is not about kinds is said of the identifiers as a set: covering and
meeting (`covers_iff`, `sharesWith_iff`), joining (`mem_of_mem_updatedWith`) and
taking apart (`mem_without?`).

The definitions compare the four places one by one; here each of them is opened
once, and what follows is about kinds or about sets. Comparing is symmetric
(`rank_comm`, `sharesWith_comm`), covering is an order (`covers_trans`,
`eq_of_covers`).
-/

namespace PeerBook.Address

/-- The identifier of a given kind. -/
def at? (a : Address) : Kind → Option Identifier
  | .aci => a.aci.map .aci
  | .pni => a.pni.map .pni
  | .number => a.number.map .number
  | .username => a.username.map .username

/-! ## The view -/

/-- What stands at a kind is of that kind. -/
theorem kind_of_at? {a : Address} {k : Kind} {x : Identifier} (h : a.at? k = some x) :
    x.kind = k := by
  cases k <;>
    · obtain ⟨y, -, rfl⟩ := Option.map_eq_some_iff.mp h
      rfl

theorem at?_aci_eq_some {a : Address} {z : Aci} :
    a.at? .aci = some (.aci z) ↔ a.aci = some z := by
  simp [at?]

/-- An identifier belongs to an address when it is the one of its kind, so an address has at most
one of each. -/
theorem mem_identifiers_iff {a : Address} {x : Identifier} :
    x ∈ a.identifiers ↔ a.at? x.kind = some x := by
  rw [identifiers, Identifiers.mem_toList_iff]
  cases x <;> simp [at?, Identifier.kind]

/-- What stands at a kind is one of the identifiers. -/
theorem mem_of_at? {a : Address} {k : Kind} {x : Identifier} (h : a.at? k = some x) :
    x ∈ a.identifiers := by
  rw [mem_identifiers_iff, kind_of_at? h]
  exact h

/-- An account identity belongs to an address when it is the one at its place. -/
theorem aci_mem_identifiers {a : Address} {z : Aci} :
    Identifier.aci z ∈ a.identifiers ↔ a.aci = some z := by
  rw [mem_identifiers_iff]
  exact at?_aci_eq_some

/-- A phone-number identity belongs to an address when it is the one at its place. -/
theorem pni_mem_identifiers {a : Address} {z : Pni} :
    Identifier.pni z ∈ a.identifiers ↔ a.pni = some z := by
  rw [mem_identifiers_iff]
  simp [at?, Identifier.kind]

/-- Addresses with the same identifier of every kind are equal. -/
theorem ext_at? {a b : Address} (h : ∀ k, a.at? k = b.at? k) : a = b := by
  apply ext_identifiers
  apply Identifiers.ext_toList
  intro x
  have hx : x ∈ a.identifiers ↔ x ∈ b.identifiers := by
    rw [mem_identifiers_iff, mem_identifiers_iff, h]
  exact hx

/-! ## Comparing -/

/-- Optional values agree when both are present and equal; two absent ones do not. -/
theorem agree_eq_true {α : Type} [DecidableEq α] {a b : Option α} :
    agree a b = true ↔ ∃ x, a = some x ∧ b = some x := by
  rw [agree, Bool.and_eq_true, beq_iff_eq, Option.isSome_iff_exists]
  constructor
  · rintro ⟨⟨x, hx⟩, hab⟩
    exact ⟨x, hx, hab ▸ hx⟩
  · rintro ⟨x, rfl, rfl⟩
    exact ⟨⟨x, rfl⟩, rfl⟩

/-- Whether two addresses have the same identifier of a kind. -/
def AgreeAt (a b : Address) (k : Kind) : Prop := ∃ x, a.at? k = some x ∧ b.at? k = some x

/-- Optional values agree when the identifiers made of them do. -/
theorem exists_map_eq_iff_agree {α : Type} [DecidableEq α] {f : α → Identifier}
    (hf : ∀ x y, f x = f y → x = y) {o p : Option α} :
    (∃ x, o.map f = some x ∧ p.map f = some x) ↔ agree o p = true := by
  rw [agree_eq_true]
  constructor
  · rintro ⟨z, ho, hp⟩
    obtain ⟨x, rfl, rfl⟩ := Option.map_eq_some_iff.mp ho
    obtain ⟨y, rfl, hxy⟩ := Option.map_eq_some_iff.mp hp
    exact ⟨x, rfl, congrArg some (hf y x hxy)⟩
  · rintro ⟨x, rfl, rfl⟩
    exact ⟨f x, rfl, rfl⟩

theorem agreeAt_aci {a b : Address} : AgreeAt a b .aci ↔ agree a.aci b.aci = true :=
  exists_map_eq_iff_agree fun _ _ => Identifier.aci.inj

theorem agreeAt_pni {a b : Address} : AgreeAt a b .pni ↔ agree a.pni b.pni = true :=
  exists_map_eq_iff_agree fun _ _ => Identifier.pni.inj

theorem agreeAt_number {a b : Address} : AgreeAt a b .number ↔ agree a.number b.number = true :=
  exists_map_eq_iff_agree fun _ _ => Identifier.number.inj

theorem agreeAt_username {a b : Address} :
    AgreeAt a b .username ↔ agree a.username b.username = true :=
  exists_map_eq_iff_agree fun _ _ => Identifier.username.inj

/-- Addresses agree on the kind that is their rank. The program compares the places one after the
other, so this and `le_rank_of_agreeAt` are what is left to say about its order. -/
theorem agreeAt_of_rank {a b : Address} {k : Kind} (h : a.rank b = some k) : AgreeAt a b k := by
  unfold rank at h
  split at h
  · cases h
    exact agreeAt_aci.mpr ‹_›
  split at h
  · cases h
    exact agreeAt_pni.mpr ‹_›
  split at h
  · cases h
    exact agreeAt_number.mpr ‹_›
  split at h
  · cases h
    exact agreeAt_username.mpr ‹_›
  · contradiction

/-- Addresses that agree on a kind have at least its rank, as the places are compared from the
strongest kind on. -/
theorem le_rank_of_agreeAt {a b : Address} {j : Kind} (h : AgreeAt a b j) :
    ∃ k, a.rank b = some k ∧ j ≤ k := by
  unfold rank
  split
  · exact ⟨.aci, rfl, Kind.le_aci j⟩
  split
  · refine ⟨.pni, rfl, ?_⟩
    cases j with
    | aci => exact absurd (agreeAt_aci.mp h) ‹_›
    | pni | number | username => decide
  split
  · refine ⟨.number, rfl, ?_⟩
    cases j with
    | aci => exact absurd (agreeAt_aci.mp h) ‹_›
    | pni => exact absurd (agreeAt_pni.mp h) ‹_›
    | number | username => decide
  cases j with
  | aci => exact absurd (agreeAt_aci.mp h) ‹_›
  | pni => exact absurd (agreeAt_pni.mp h) ‹_›
  | number => exact absurd (agreeAt_number.mp h) ‹_›
  | username => exact ⟨.username, by rw [if_pos (agreeAt_username.mp h)], by decide⟩

theorem AgreeAt.symm {a b : Address} {k : Kind} (h : a.AgreeAt b k) : b.AgreeAt a k :=
  h.imp fun _ ⟨ha, hb⟩ => ⟨hb, ha⟩

/-- The rank is the strongest kind on which both agree: they agree on it, and on no stronger one. -/
theorem rank_eq_some_iff {a b : Address} {k : Kind} :
    a.rank b = some k ↔ a.AgreeAt b k ∧ ∀ j, a.AgreeAt b j → j ≤ k := by
  constructor
  · intro h
    refine ⟨agreeAt_of_rank h, fun j hj => ?_⟩
    obtain ⟨k', hk', hle⟩ := le_rank_of_agreeAt hj
    cases h.symm.trans hk'
    exact hle
  · rintro ⟨hk, hmax⟩
    obtain ⟨k', hk', hle⟩ := le_rank_of_agreeAt hk
    rw [hk', Kind.le_antisymm (hmax k' (agreeAt_of_rank hk')) hle]

/-- There is no rank where both agree on no kind. -/
theorem rank_eq_none_iff {a b : Address} : a.rank b = none ↔ ∀ k, ¬a.AgreeAt b k := by
  constructor
  · intro h k hk
    obtain ⟨j, hj, -⟩ := le_rank_of_agreeAt hk
    cases h.symm.trans hj
  · intro h
    refine Option.eq_none_iff_forall_ne_some.mpr fun k hk => ?_
    exact h k (agreeAt_of_rank hk)

theorem rank_comm (a b : Address) : a.rank b = b.rank a := by
  have hcomm (k : Kind) : a.AgreeAt b k ↔ b.AgreeAt a k := ⟨AgreeAt.symm, AgreeAt.symm⟩
  ext k
  simp only [rank_eq_some_iff, hcomm]

/-- Two addresses meet when they have an identifier in common. -/
theorem sharesWith_iff {a b : Address} :
    a.sharesWith b = true ↔ ∃ x ∈ a.identifiers, x ∈ b.identifiers := by
  rw [sharesWith, Option.isSome_iff_exists]
  constructor
  · rintro ⟨k, hk⟩
    obtain ⟨x, ha, hb⟩ := agreeAt_of_rank hk
    exact ⟨x, mem_of_at? ha, mem_of_at? hb⟩
  · rintro ⟨x, ha, hb⟩
    have hx : AgreeAt a b x.kind := ⟨x, mem_identifiers_iff.mp ha, mem_identifiers_iff.mp hb⟩
    obtain ⟨k, hk, -⟩ := le_rank_of_agreeAt hx
    exact ⟨k, hk⟩

theorem sharesWith_comm {a b : Address} : a.sharesWith b = b.sharesWith a := by
  rw [sharesWith, sharesWith, rank_comm]

/-- The rank is at least that of a phone-number identity when one of the two identities is shared; a
number or a username is not enough. -/
theorem pni_le_rank_iff {a b : Address} :
    (∃ k, a.rank b = some k ∧ .pni ≤ k) ↔ AgreeAt a b .aci ∨ AgreeAt a b .pni := by
  constructor
  · rintro ⟨k, hk, hle⟩
    have ha := agreeAt_of_rank hk
    cases k with
    | aci => exact .inl ha
    | pni => exact .inr ha
    | number | username => exact absurd hle (by decide)
  · rintro (h | h)
    · obtain ⟨k, hk, hle⟩ := le_rank_of_agreeAt h
      exact ⟨k, hk, Nat.le_trans (by decide) hle⟩
    · exact le_rank_of_agreeAt h

/-- One address covers another when it has all its identifiers. At each place the program asks that
the other is empty or equal, which is membership in terms of the list. -/
theorem covers_iff {a b : Address} :
    a.covers b = true ↔ ∀ x ∈ b.identifiers, x ∈ a.identifiers := by
  have part {α : Type} [DecidableEq α] {o p : Option α} :
      (p.isNone || o == p) = true ↔ ∀ x, p = some x → o = some x := by
    cases p <;> simp
  simp only [covers, Bool.and_eq_true, part]
  constructor
  · rintro ⟨⟨⟨h₁, h₂⟩, h₃⟩, h₄⟩ x hx
    rw [identifiers, Identifiers.mem_toList_iff] at hx ⊢
    cases x with
    | aci y => exact h₁ y hx
    | pni y => exact h₂ y hx
    | number y => exact h₃ y hx
    | username y => exact h₄ y hx
  · intro h
    simp only [identifiers, Identifiers.mem_toList_iff] at h
    exact ⟨⟨⟨fun y => h (.aci y), fun y => h (.pni y)⟩, fun y => h (.number y)⟩,
      fun y => h (.username y)⟩

theorem covers_self (a : Address) : a.covers a = true := covers_iff.mpr fun _ => id

/-- Covering is transitive. -/
theorem covers_trans {a b c : Address} (hab : a.covers b = true) (hbc : b.covers c = true) :
    a.covers c = true :=
  covers_iff.mpr fun x hx => covers_iff.mp hab x (covers_iff.mp hbc x hx)

/-- What covers an address meets whatever that address meets. -/
theorem sharesWith_of_covers_of_sharesWith {a b c : Address} (hc : c.covers a = true)
    (h : a.sharesWith b = true) : c.sharesWith b = true := by
  obtain ⟨x, ha, hb⟩ := sharesWith_iff.mp h
  exact sharesWith_iff.mpr ⟨x, covers_iff.mp hc x ha, hb⟩

/-- An address meets whatever it covers. -/
theorem sharesWith_of_covers {a b : Address} (h : a.covers b = true) : a.sharesWith b = true := by
  obtain ⟨x, hx⟩ := List.exists_mem_of_ne_nil _ b.identifiers_ne_nil
  exact sharesWith_iff.mpr ⟨x, covers_iff.mp h x hx, hx⟩

/-- Addresses that cover each other are equal: covering is antisymmetric. -/
theorem eq_of_covers {a b : Address} (h : a.covers b = true) (h' : b.covers a = true) : a = b := by
  apply ext_identifiers
  apply Identifiers.ext_toList
  exact fun x => ⟨covers_iff.mp h' x, covers_iff.mp h x⟩

/-- An address conflicts with an account identity when it carries another one. -/
theorem conflictsWith_iff {a : Address} {o : Option Aci} :
    a.conflictsWith o = true ↔ ∃ y z, a.aci = some y ∧ o = some z ∧ y ≠ z := by
  cases ha : a.aci <;> cases o <;> simp [conflictsWith, ha]

/-- An address of which another has everything is of no other account than that one: the account
identity, if it has any, is the same. -/
theorem not_conflictsWith_of_covers {a b : Address} (h : b.covers a = true) (o : Option Aci) :
    ¬a.conflictsWith (b.aci.or o) = true := by
  intro hc
  obtain ⟨y, z, hy, hz, hne⟩ := conflictsWith_iff.mp hc
  have hyb := covers_iff.mp h _ (aci_mem_identifiers.mpr hy)
  rw [aci_mem_identifiers.mp hyb, Option.some_or] at hz
  exact hne (Option.some.inj hz)

/-! ## Joining and taking apart -/

/-- Of each kind a join has the identifier of its second part, or else that of the first. -/
theorem at?_updatedWith (a b : Address) (k : Kind) :
    (a.updatedWith b).at? k = (b.at? k).or (a.at? k) := by
  cases k <;> simp [at?, updatedWith, Option.map_or]

/-- A join has every identifier of its second part. -/
theorem mem_updatedWith_right {a b : Address} {x : Identifier} (h : x ∈ b.identifiers) :
    x ∈ (a.updatedWith b).identifiers := by
  rw [mem_identifiers_iff] at h ⊢
  rw [at?_updatedWith, h, Option.some_or]

/-- What a join carries was carried by one of its parts. -/
theorem mem_of_mem_updatedWith {a b : Address} {x : Identifier}
    (h : x ∈ (a.updatedWith b).identifiers) : x ∈ a.identifiers ∨ x ∈ b.identifiers := by
  rw [mem_identifiers_iff, at?_updatedWith] at h
  cases hb : b.at? x.kind with
  | none =>
    rw [hb, Option.none_or] at h
    exact .inl (mem_of_at? h)
  | some y =>
    rw [hb, Option.some_or] at h
    cases h
    exact .inr (mem_of_at? hb)

/-- The address with given identifiers is the one that has these at its places; that there is one is
the only thing that is checked. -/
theorem ofIdentifiers?_eq_some_iff {ids : Identifiers} {a : Address} :
    ofIdentifiers? ids = some a ↔ a.toIdentifiers = ids := by
  unfold ofIdentifiers?
  split
  · rw [Option.some.injEq]
    exact ⟨fun h => h ▸ rfl, fun h => ext_identifiers h.symm⟩
  · rename_i hn
    constructor
    · intro h
      contradiction
    · intro h
      exact absurd (h ▸ a.not_empty) hn

/-- A value is kept where the other place does not have it, in particular where that is empty. -/
theorem mem_unlessAgree {α : Type} [DecidableEq α] {o p : Option α} {x : α} :
    unlessAgree o p = some x ↔ o = some x ∧ p ≠ some x := by
  unfold unlessAgree
  split
  · rename_i h
    obtain ⟨y, rfl, rfl⟩ := agree_eq_true.mp h
    simp
  · rename_i h
    constructor
    · intro ho
      exact ⟨ho, fun hp => h (agree_eq_true.mpr ⟨x, ho, hp⟩)⟩
    · exact And.left

/-- No address has the identifiers just if there are none. -/
theorem ofIdentifiers?_eq_none_iff {ids : Identifiers} :
    ofIdentifiers? ids = none ↔ ids.toList = [] := by
  rw [← Identifiers.isEmpty_iff]
  cases h : ids.isEmpty <;> simp [ofIdentifiers?, h]

/-- The identifiers that are kept place by place are those that the other address does not have. -/
theorem mem_toList_unlessAgree {a b : Address} {x : Identifier} :
    x ∈ (⟨unlessAgree a.aci b.aci, unlessAgree a.pni b.pni, unlessAgree a.number b.number,
        unlessAgree a.username b.username⟩ : Identifiers).toList ↔
      x ∈ a.identifiers ∧ x ∉ b.identifiers := by
  simp only [identifiers, Identifiers.mem_toList_iff]
  cases x <;> exact mem_unlessAgree

/-- What is left of an address without another is what the other does not carry. -/
theorem mem_without? {a b c : Address} (h : a.without? b = some c) {x : Identifier} :
    x ∈ c.identifiers ↔ x ∈ a.identifiers ∧ x ∉ b.identifiers := by
  rw [without?, ofIdentifiers?_eq_some_iff] at h
  rw [← mem_toList_unlessAgree, ← h]
  rfl

/-- Nothing is left of an address without another that covers it. -/
theorem without?_eq_none_iff {a b : Address} : a.without? b = none ↔ b.covers a = true := by
  rw [without?, ofIdentifiers?_eq_none_iff, List.eq_nil_iff_forall_not_mem, covers_iff]
  simp only [mem_toList_unlessAgree, not_and, Decidable.not_not]

end PeerBook.Address
