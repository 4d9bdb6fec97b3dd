import PeerBook.Proofs.Address.ByKind
import PeerBook.Proofs.Directory.Codec
import PeerBook.Proofs.Json.Checks

/-!
# PeerBook.Proofs.Address.Parts

The parts of an address are plain UUIDs and texts (`Parts`), to which the rules
for addresses are applied from outside (`Parts.Valid`). An address is its parts
(`Address.parts_inj`), those of addresses are just the ones that keep the rules
(`Address.valid_parts`, `Parts.Valid.exists_address`), and each operation on
addresses comes down to one on parts that checks nothing (`Parts.union`,
`Parts.strip`, `Parts.ofJson`).

Addresses carry their validity in their type, so that they are valid is no
statement about a program. What can be said is that the program refuses just the
parts that break a rule, and makes of the others the address that one expects:
this is what the lemmas `create_eq_ok`, `withNumber_eq_ok`,
`withUsername_eq_ok`, `without?_eq_some` and `Address.decode_iff_parts` say, and
`Validity` puts them together.
-/

namespace PeerBook

/-! ## Parts and rules -/

/-- What an address consists of, before any rule is applied. -/
structure Parts where
  aci : Option Uuid
  pni : Option Uuid
  number : Option String
  username : Option String
  deriving DecidableEq

/-- The parts of identifiers. -/
def Identifiers.parts (ids : Identifiers) : Parts where
  aci := ids.aci.map (·.uuid)
  pni := ids.pni.map (·.uuid)
  number := ids.number.map (·.text)
  username := ids.username.map (·.text)

/-- The parts of an address. -/
def Address.parts (a : Address) : Parts := a.toIdentifiers.parts

namespace Parts

/-- The rules for addresses: there is an identifier, no UUID is nil, a number is a plus sign and at
least one more character without any blank, and a username is not blank. -/
structure Valid (p : Parts) : Prop where
  present : p ≠ ⟨none, none, none, none⟩
  aci : ∀ u, p.aci = some u → u ≠ .nil
  pni : ∀ u, p.pni = some u → u ≠ .nil
  number : ∀ s, p.number = some s → ∃ c rest, s.toList = '+' :: c :: rest ∧
    ∀ d ∈ s.toList, Text.isBlank d = false
  username : ∀ s, p.username = some s → ∃ c ∈ s.toList, Text.isBlank c = false

/-- The parts of both; where both have one, that of `q`. -/
def union (p q : Parts) : Parts :=
  ⟨q.aci.or p.aci, q.pni.or p.pni, q.number.or p.number, q.username.or p.username⟩

/-- The parts of `p` that are not those of `q`. -/
def strip (p q : Parts) : Parts :=
  ⟨Address.unlessAgree p.aci q.aci, Address.unlessAgree p.pni q.pni,
    Address.unlessAgree p.number q.number, Address.unlessAgree p.username q.username⟩

open Json in
/-- The fields of the record of an address, of which only the shape is checked. -/
def jsonFields : List Field :=
  [fieldOr "aci" (asOptional Uuid.ofJson), fieldOr "pni" (asOptional Uuid.ofJson),
    fieldOr "number" (asOptional asText), fieldOr "username" (asOptional asText)]

open Json in
/-- Reads the parts of an address. -/
def ofJson : Decoder Parts := fun j => do
  let fs ← asFields jsonFields j
  let aci ← fs.getD "aci" (asOptional Uuid.ofJson) none
  let pni ← fs.getD "pni" (asOptional Uuid.ofJson) none
  let number ← fs.getD "number" (asOptional asText) none
  let username ← fs.getD "username" (asOptional asText) none
  return ⟨aci, pni, number, username⟩

end Parts

/-! ## Rules for single identifiers -/

/-- The test for nil is equality with the nil UUID. The program looks at the digits one by one, and
nil is the UUID whose digits are all zero. -/
theorem Uuid.isNil_eq_false_iff {u : Uuid} : u.isNil = false ↔ u ≠ .nil := by
  rw [← Bool.not_eq_true]
  refine not_congr ⟨fun h => ?_, ?_⟩
  · obtain ⟨digits, hlength⟩ := u
    have hzero : digits = List.replicate 32 ⟨0, by decide⟩ := by
      rw [List.eq_replicate_iff]
      refine ⟨hlength, fun d hd => Fin.ext ?_⟩
      rw [isNil, List.all_eq_true] at h
      exact beq_iff_eq.mp (h d hd)
    subst hzero
    rfl
  · rintro rfl
    rfl

/-- The rule for numbers in plain terms: a plus sign, at least one more character, and no blank. The
characters need not be digits. -/
theorem isPhoneNumber_iff {s : String} : isPhoneNumber s = true ↔
    ∃ c rest, s.toList = '+' :: c :: rest ∧ ∀ d ∈ s.toList, Text.isBlank d = false := by
  unfold isPhoneNumber
  split
  · rename_i rest hs
    rw [hs]
    cases rest with
    | nil => simp
    | cons c rest => simp [Text.isBlank_plus]
  · rename_i hs
    refine iff_of_false nofun ?_
    rintro ⟨c, rest, he, -⟩
    exact hs _ he

/-- The rule for usernames in plain terms: some character is not blank. -/
theorem isUsername_iff {s : String} :
    isUsername s = true ↔ ∃ c ∈ s.toList, Text.isBlank c = false := by
  simp [isUsername]

theorem Aci.uuid_inj {a b : Aci} : a.uuid = b.uuid ↔ a = b := by
  cases a; cases b; simp

theorem Pni.uuid_inj {a b : Pni} : a.uuid = b.uuid ↔ a = b := by
  cases a; cases b; simp

theorem PhoneNumber.text_inj {a b : PhoneNumber} : a.text = b.text ↔ a = b := by
  cases a; cases b; simp

theorem Username.text_inj {a b : Username} : a.text = b.text ↔ a = b := by
  cases a; cases b; simp

/-- A value that is made where a rule is kept is the one with what it is made of. -/
theorem dite_eq_ok_iff {ε α β : Type} {P : Prop} [Decidable P] {mk : P → α} {e : ε} {view : α → β}
    {a : α} {b : β} (hinj : ∀ x y, view x = view y → x = y) (hview : ∀ h, view (mk h) = b)
    (hrule : view a = b → P) :
    (if h : P then Except.ok (mk h) else Except.error e) = .ok a ↔ view a = b := by
  split
  · rename_i h
    rw [Except.ok.injEq]
    refine ⟨fun ha => ha ▸ hview h, fun ha => hinj _ _ ((hview h).trans ha.symm)⟩
  · rename_i h
    exact iff_of_false nofun fun ha => h (hrule ha)

/-- The check of a UUID gives the account identity with that UUID, if any. -/
theorem Aci.ofUuid_eq_ok {u : Uuid} {a : Aci} : ofUuid u = .ok a ↔ a.uuid = u :=
  dite_eq_ok_iff (fun _ _ => uuid_inj.mp) (fun _ => rfl) fun ha => ha ▸ a.not_nil

/-- The check of a UUID gives the phone-number identity with that UUID, if any. -/
theorem Pni.ofUuid_eq_ok {u : Uuid} {p : Pni} : ofUuid u = .ok p ↔ p.uuid = u :=
  dite_eq_ok_iff (fun _ _ => uuid_inj.mp) (fun _ => rfl) fun hp => hp ▸ p.not_nil

/-- The check of a text gives the phone number with that text, if any. -/
theorem PhoneNumber.ofText_eq_ok {s : String} {n : PhoneNumber} : ofText s = .ok n ↔ n.text = s :=
  dite_eq_ok_iff (fun _ _ => text_inj.mp) (fun _ => rfl) fun hn => hn ▸ n.valid

/-- The check of a text gives the username with that text, if any. -/
theorem Username.ofText_eq_ok {s : String} {u : Username} : ofText s = .ok u ↔ u.text = s :=
  dite_eq_ok_iff (fun _ _ => text_inj.mp) (fun _ => rfl) fun hu => hu ▸ u.valid

/-! ## Addresses and their parts -/

/-- Identifiers are their parts, since each single one is what it is made of. -/
theorem Identifiers.parts_inj {a b : Identifiers} : a.parts = b.parts ↔ a = b := by
  refine ⟨fun h => ?_, congrArg parts⟩
  obtain ⟨a₁, a₂, a₃, a₄⟩ := a
  obtain ⟨b₁, b₂, b₃, b₄⟩ := b
  simp only [parts, Parts.mk.injEq] at h
  obtain ⟨h₁, h₂, h₃, h₄⟩ := h
  rw [Option.map_injective (fun _ _ => Aci.uuid_inj.mp) h₁,
    Option.map_injective (fun _ _ => Pni.uuid_inj.mp) h₂,
    Option.map_injective (fun _ _ => PhoneNumber.text_inj.mp) h₃,
    Option.map_injective (fun _ _ => Username.text_inj.mp) h₄]

namespace Address

/-- An address is its parts: two addresses with the same UUIDs and texts are one. -/
theorem parts_inj {a b : Address} : a.parts = b.parts ↔ a = b :=
  Identifiers.parts_inj.trans ⟨ext_identifiers, congrArg toIdentifiers⟩

/-- **The parts of an address keep the rules.** The proofs that its identifiers carry are brought
back to what they are about. -/
theorem valid_parts (a : Address) : a.parts.Valid where
  present := by
    intro h
    have hne := a.not_empty
    simp only [parts, Identifiers.parts, Parts.mk.injEq, Option.map_eq_none_iff] at h
    obtain ⟨h₁, h₂, h₃, h₄⟩ := h
    simp [Identifiers.isEmpty, h₁, h₂, h₃, h₄] at hne
  aci u h := by
    obtain ⟨x, -, rfl⟩ := Option.map_eq_some_iff.mp h
    exact Uuid.isNil_eq_false_iff.mp x.not_nil
  pni u h := by
    obtain ⟨x, -, rfl⟩ := Option.map_eq_some_iff.mp h
    exact Uuid.isNil_eq_false_iff.mp x.not_nil
  number s h := by
    obtain ⟨x, -, rfl⟩ := Option.map_eq_some_iff.mp h
    exact isPhoneNumber_iff.mp x.valid
  username s h := by
    obtain ⟨x, -, rfl⟩ := Option.map_eq_some_iff.mp h
    exact isUsername_iff.mp x.valid

end Address

/-- **Parts that keep the rules are those of an address**, which is built from them place by place.
So the rules exclude nothing that the type allows. -/
theorem Parts.Valid.exists_address {p : Parts} (h : p.Valid) : ∃ a : Address, a.parts = p := by
  obtain ⟨aci, pni, number, username⟩ := p
  obtain ⟨aci, rfl⟩ : ∃ x : Option Aci, x.map (·.uuid) = aci := by
    cases aci with
    | none => exact ⟨none, rfl⟩
    | some u => exact ⟨some ⟨u, Uuid.isNil_eq_false_iff.mpr (h.aci u rfl)⟩, rfl⟩
  obtain ⟨pni, rfl⟩ : ∃ x : Option Pni, x.map (·.uuid) = pni := by
    cases pni with
    | none => exact ⟨none, rfl⟩
    | some u => exact ⟨some ⟨u, Uuid.isNil_eq_false_iff.mpr (h.pni u rfl)⟩, rfl⟩
  obtain ⟨number, rfl⟩ : ∃ x : Option PhoneNumber, x.map (·.text) = number := by
    cases number with
    | none => exact ⟨none, rfl⟩
    | some s => exact ⟨some ⟨s, isPhoneNumber_iff.mpr (h.number s rfl)⟩, rfl⟩
  obtain ⟨username, rfl⟩ : ∃ x : Option Username, x.map (·.text) = username := by
    cases username with
    | none => exact ⟨none, rfl⟩
    | some s => exact ⟨some ⟨s, isUsername_iff.mpr (h.username s rfl)⟩, rfl⟩
  refine ⟨⟨⟨aci, pni, number, username⟩, ?_⟩, rfl⟩
  have hpresent := h.present
  cases aci <;> cases pni <;> cases number <;> cases username <;>
    simp [Identifiers.isEmpty] at hpresent ⊢

/-! ## Operations on parts -/

section

variable {ε ε' α : Type} {f : ε → ε'} {r : Except ε α} {a : α}

@[simp] theorem mapError_eq_ok_iff : r.mapError f = .ok a ↔ r = .ok a := by
  cases r <;> simp

@[simp] theorem toOption_eq_some_iff : r.toOption = some a ↔ r = .ok a := by
  cases r <;> simp [Except.toOption]

end

/-- What is made of an optional value is made of the value, if there is one. -/
theorem mapM_eq_ok_iff {ε α β : Type} {make : β → Except ε α} {view : α → β}
    (h : ∀ b a, make b = .ok a ↔ view a = b) {b? : Option β} {a? : Option α} :
    b?.mapM make = .ok a? ↔ a?.map view = b? := by
  cases b? with
  | none => cases a? <;> simp [pure, Except.pure]
  | some b =>
      cases a? with
      | none => cases hb : make b <;> simp [hb, Functor.map, Except.map]
      | some a => cases hb : make b <;> simp [hb, Functor.map, Except.map, ← h]

namespace Address

variable {a b c : Address}

/-- **An address is created from parts that keep the rules**, as they are, and from no others. The
identities are checked before, so the rules that can be broken here are about the texts and about
having an identifier at all. -/
theorem create_eq_ok {aci : Option Aci} {pni : Option Pni} {number username : Option String} :
    create aci pni number username = .ok a ↔
      a.parts = ⟨aci.map (·.uuid), pni.map (·.uuid), number, username⟩ := by
  constructor
  · intro h
    unfold create at h
    split at h
    · contradiction
    · obtain ⟨n, hn, hrest⟩ := bind_eq_ok_iff.mp h
      obtain ⟨u, hu, hids⟩ := bind_eq_ok_iff.mp hrest
      obtain rfl := (mapM_eq_ok_iff fun _ _ => PhoneNumber.ofText_eq_ok).mp
        (mapError_eq_ok_iff.mp hn)
      obtain rfl := (mapM_eq_ok_iff fun _ _ => Username.ofText_eq_ok).mp (mapError_eq_ok_iff.mp hu)
      split at hids
      · rename_i a' ha'
        obtain rfl := Except.ok.inj hids
        rw [parts, ofIdentifiers?_eq_some_iff.mp ha']
        rfl
      · contradiction
  · intro h
    obtain ⟨h₁, h₂, rfl, rfl⟩ := Parts.mk.inj h
    obtain rfl := Option.map_injective (fun _ _ => Aci.uuid_inj.mp) h₁
    obtain rfl := Option.map_injective (fun _ _ => Pni.uuid_inj.mp) h₂
    exact create_texts a

/-- A number is put in if it keeps the rule for numbers, in place of the one before; the other parts
stay as they are. -/
theorem withNumber_eq_ok {number : String} :
    a.withNumber number = .ok b ↔ b.parts = { a.parts with number := some number } := by
  unfold withNumber
  constructor
  · intro h
    split at h
    · contradiction
    · rename_i n hn
      obtain rfl := PhoneNumber.ofText_eq_ok.mp hn
      obtain rfl := Except.ok.inj h
      rfl
  · intro h
    obtain ⟨n, -, rfl⟩ := Option.map_eq_some_iff.mp (congrArg Parts.number h)
    rw [PhoneNumber.ofText_text]
    exact congrArg Except.ok (parts_inj.mp h.symm)

/-- A username is put in if it keeps the rule for usernames, in place of the one before; the other
parts stay as they are. -/
theorem withUsername_eq_ok {username : String} :
    a.withUsername username = .ok b ↔ b.parts = { a.parts with username := some username } := by
  unfold withUsername
  constructor
  · intro h
    split at h
    · contradiction
    · rename_i u hu
      obtain rfl := Username.ofText_eq_ok.mp hu
      obtain rfl := Except.ok.inj h
      rfl
  · intro h
    obtain ⟨u, -, rfl⟩ := Option.map_eq_some_iff.mp (congrArg Parts.username h)
    rw [Username.ofText_text]
    exact congrArg Except.ok (parts_inj.mp h.symm)

/-- **The parts of a join are the union**, without a check. -/
theorem parts_updatedWith (a b : Address) : (a.updatedWith b).parts = a.parts.union b.parts := by
  simp [parts, Identifiers.parts, updatedWith, Parts.union, Option.map_or]

/-- Taking away what agrees does not depend on how values are shown, if different ones are shown
differently. -/
theorem map_unlessAgree {α β : Type} [DecidableEq α] [DecidableEq β] {f : α → β}
    (hf : ∀ x y, f x = f y ↔ x = y) (o p : Option α) :
    (unlessAgree o p).map f = unlessAgree (o.map f) (p.map f) := by
  have hagree : agree (o.map f) (p.map f) = agree o p := by
    rw [Bool.eq_iff_iff, agree_eq_true, agree_eq_true]
    cases o <;> cases p <;> simp [hf]
  rw [unlessAgree, unlessAgree, hagree]
  split <;> rfl

/-- **What is left of an address is what is left of its parts**, if that is anything. Nothing is
checked, because parts of an address that are left are still parts that keep the rules. -/
theorem without?_eq_some : a.without? b = some c ↔ c.parts = a.parts.strip b.parts := by
  rw [without?, ofIdentifiers?_eq_some_iff, ← Identifiers.parts_inj]
  have hstrip : (Identifiers.mk (unlessAgree a.aci b.aci) (unlessAgree a.pni b.pni)
      (unlessAgree a.number b.number) (unlessAgree a.username b.username)).parts =
        a.parts.strip b.parts := by
    simp only [Identifiers.parts, Parts.strip, map_unlessAgree fun _ _ => Aci.uuid_inj,
      map_unlessAgree fun _ _ => Pni.uuid_inj, map_unlessAgree fun _ _ => PhoneNumber.text_inj,
      map_unlessAgree fun _ _ => Username.text_inj]
    rfl
  rw [hstrip]
  rfl

end Address

/-! ## Reading -/

section

open Json

variable {α β : Type} {decode : Decoder α} {decode' : Decoder β} {view : α → β}
  (h : ∀ j a, decode j = .ok a ↔ decode' j = .ok (view a))

include h

/-- What may be absent is read as what it shows, or is absent on both sides: with and without a
check null stands for none. -/
theorem asOptional_iff {j : Json} {o : Option α} :
    asOptional decode j = .ok o ↔ asOptional decode' j = .ok (o.map view) := by
  have hvalue (hj : j ≠ .null) {γ : Type} (d : Decoder γ) : asOptional d j = (d j).map some := by
    unfold asOptional
    split
    · contradiction
    · rfl
  by_cases hj : j = .null
  · subst hj
    cases o <;> simp [asOptional]
  · rw [hvalue hj, hvalue hj, map_eq_ok_iff, map_eq_ok_iff]
    constructor
    · rintro ⟨a, ha, rfl⟩
      exact ⟨view a, (h j a).mp ha, rfl⟩
    · rintro ⟨b, hb, ho⟩
      obtain ⟨a, rfl, rfl⟩ := Option.map_eq_some_iff.mp ho.symm
      exact ⟨a, (h j a).mpr hb, rfl⟩

/-- A field that may be absent is read as what it shows, or is absent on both sides. -/
theorem getD_iff {fs : Fields} {name : String} {o : Option α} :
    fs.getD name (asOptional decode) none = .ok o ↔
      fs.getD name (asOptional decode') none = .ok (o.map view) := by
  unfold Fields.getD
  cases fs.lookup name with
  | none => cases o <;> simp
  | some j => exact asOptional_iff h

/-- A field of the checked record is that of the unchecked one with a stricter check. -/
theorem fieldOr_refines (name : String) :
    (fieldOr name (asOptional decode)).Refines (fieldOr name (asOptional decode')) where
  name := rfl
  hasDefault := rfl
  accepts j := by
    intro ha
    obtain ⟨o, ho, -⟩ := map_eq_ok_iff.mp ha
    exact map_eq_ok_iff.mpr ⟨_, (asOptional_iff h).mp ho, rfl⟩

omit h in
/-- A field from which a value was taken passes its check. -/
theorem accepts_of_getD {fs : Fields} {name : String} {o : Option α} {x : Json}
    (hd : fs.getD name (asOptional decode) none = .ok o) (hl : fs.lookup name = some x) :
    (fieldOr name (asOptional decode)).accepts x = .ok () := by
  rw [Fields.getD, hl] at hd
  exact map_eq_ok_iff.mpr ⟨o, hd, rfl⟩

end

/-- An account identity is read from a value if its UUID is. -/
theorem Aci.ofJson_eq_ok (j : Json) (a : Aci) : ofJson j = .ok a ↔ Uuid.ofJson j = .ok a.uuid := by
  rw [ofJson, bind_eq_ok_iff]
  simp [checked, ofUuid_eq_ok]

/-- A phone-number identity is read from a value if its UUID is. -/
theorem Pni.ofJson_eq_ok (j : Json) (p : Pni) : ofJson j = .ok p ↔ Uuid.ofJson j = .ok p.uuid := by
  rw [ofJson, bind_eq_ok_iff]
  simp [checked, ofUuid_eq_ok]

namespace Address

open Json

/-- The fields of an address are those of its parts with stricter checks, place by place. -/
theorem jsonFields_refines : List.Forall₂ Field.Refines jsonFields Parts.jsonFields :=
  .cons (fieldOr_refines Aci.ofJson_eq_ok "aci") <|
    .cons (fieldOr_refines Pni.ofJson_eq_ok "pni") <|
      .cons ⟨rfl, rfl, fun _ => id⟩ (.cons ⟨rfl, rfl, fun _ => id⟩ .nil)

/-- What is read as an address has the parts of its fields. Since an address is its parts, this
determines it; the checks of the fields are in how each of them is read. -/
theorem ofJson_eq_ok {j : Json} {a : Address} : ofJson j = .ok a ↔
    ∃ fs, asFields jsonFields j = .ok fs ∧ fs.getD "aci" (asOptional Aci.ofJson) none = .ok a.aci ∧
      fs.getD "pni" (asOptional Pni.ofJson) none = .ok a.pni ∧
      fs.getD "number" (asOptional asText) none = .ok a.parts.number ∧
      fs.getD "username" (asOptional asText) none = .ok a.parts.username := by
  unfold ofJson
  rw [bind_eq_ok_iff]
  refine exists_congr fun fs => and_congr_right fun _ => ?_
  constructor
  · intro h
    obtain ⟨aci, haci, h⟩ := bind_eq_ok_iff.mp h
    obtain ⟨pni, hpni, h⟩ := bind_eq_ok_iff.mp h
    obtain ⟨number, hnumber, h⟩ := bind_eq_ok_iff.mp h
    obtain ⟨username, husername, h⟩ := bind_eq_ok_iff.mp h
    obtain ⟨h₁, h₂, rfl, rfl⟩ := Parts.mk.inj (create_eq_ok.mp (mapError_eq_ok_iff.mp h))
    obtain rfl := Option.map_injective (fun _ _ => Aci.uuid_inj.mp) h₁
    obtain rfl := Option.map_injective (fun _ _ => Pni.uuid_inj.mp) h₂
    exact ⟨haci, hpni, hnumber, husername⟩
  · rintro ⟨haci, hpni, hnumber, husername⟩
    rw [haci, hpni, hnumber, husername]
    exact mapError_eq_ok_iff.mpr (create_texts a)

end Address

/-- What is read as parts are the fields, each absent or of the right shape. -/
theorem Parts.ofJson_eq_ok {j : Json} {p : Parts} : ofJson j = .ok p ↔
    ∃ fs, Json.asFields jsonFields j = .ok fs ∧
      fs.getD "aci" (Json.asOptional Uuid.ofJson) none = .ok p.aci ∧
      fs.getD "pni" (Json.asOptional Uuid.ofJson) none = .ok p.pni ∧
      fs.getD "number" (Json.asOptional Json.asText) none = .ok p.number ∧
      fs.getD "username" (Json.asOptional Json.asText) none = .ok p.username := by
  simp only [ofJson, bind_eq_ok_iff]
  refine exists_congr fun fs => and_congr_right fun _ => ?_
  constructor
  · rintro ⟨aci, haci, pni, hpni, number, hnumber, username, husername, hp⟩
    obtain rfl := Except.ok.inj hp
    exact ⟨haci, hpni, hnumber, husername⟩
  · rintro ⟨haci, hpni, hnumber, husername⟩
    exact ⟨_, haci, _, hpni, _, hnumber, _, husername, rfl⟩

/-- **An address is read from a value** just if its parts are read from it without checks. One
direction forgets the checks; for the other, a field whose value was taken has passed its own. -/
theorem Address.ofJson_iff_parts {j : Json} {a : Address} :
    ofJson j = .ok a ↔ Parts.ofJson j = .ok a.parts := by
  rw [ofJson_eq_ok, Parts.ofJson_eq_ok]
  refine exists_congr fun fs => ?_
  have haci_iff : fs.getD "aci" (Json.asOptional Aci.ofJson) none = .ok a.aci ↔
      fs.getD "aci" (Json.asOptional Uuid.ofJson) none = .ok a.parts.aci :=
    getD_iff Aci.ofJson_eq_ok
  have hpni_iff : fs.getD "pni" (Json.asOptional Pni.ofJson) none = .ok a.pni ↔
      fs.getD "pni" (Json.asOptional Uuid.ofJson) none = .ok a.parts.pni :=
    getD_iff Pni.ofJson_eq_ok
  rw [Json.asFields_refines_iff jsonFields_refines (by decide), and_assoc, haci_iff, hpni_iff]
  refine and_congr_right fun _ => and_iff_right_of_imp ?_
  -- a field whose value was taken has passed its check
  rintro ⟨haci, hpni, hnumber, husername⟩ name f x hf hl
  have hfound := List.find?_some hf
  obtain rfl : f.name = name := beq_iff_eq.mp hfound
  have hm := List.mem_of_find?_eq_some hf
  simp only [jsonFields, List.mem_cons, List.not_mem_nil, or_false] at hm
  rcases hm with rfl | rfl | rfl | rfl
  · exact accepts_of_getD (haci_iff.mpr haci) hl
  · exact accepts_of_getD (hpni_iff.mpr hpni) hl
  · exact accepts_of_getD hnumber hl
  · exact accepts_of_getD husername hl

/-- **An address is read from a text** just if its parts are read from it without checks. -/
theorem Address.decode_iff_parts {text : String} {a : Address} :
    Json.decode ofJson text = .ok a ↔ Json.decode Parts.ofJson text = .ok a.parts := by
  simp only [Json.decode_eq_ok, ofJson_iff_parts]

end PeerBook
