import PeerBook.Identifier

/-!
# PeerBook.Address

The address of a peer: at most one identifier of each kind, and at least one in
all. `Identifiers` is four places that may be empty, `Address` the same with the
proof that one is filled, so an empty address cannot be built.

- `Address.rank` compares two addresses by the strongest kind on which they
  agree; `Address.sharesWith` only asks whether there is one.
- `Address.covers` and `Address.exceeds` compare what two addresses carry.
- `Address.updatedWith` joins two addresses, and `Address.without?` takes from
  one what the other has, if anything is left.

The laws of these operations are in `PeerBook.Proofs.Address`.
-/

namespace PeerBook

/-! ## The four places -/

/-- At most one identifier of each kind. -/
structure Identifiers where
  aci : Option Aci
  pni : Option Pni
  number : Option PhoneNumber
  username : Option Username
  deriving DecidableEq

namespace Identifiers

/-- Whether no identifier is present. -/
def isEmpty (a : Identifiers) : Bool :=
  a.aci.isNone && a.pni.isNone && a.number.isNone && a.username.isNone

/-- The identifiers, the strongest first. -/
def toList (a : Identifiers) : List Identifier :=
  (a.aci.map .aci).toList ++ (a.pni.map .pni).toList ++ (a.number.map .number).toList ++
    (a.username.map .username).toList

/-- Being empty, which the program tests place by place, is having no identifier to list. -/
theorem isEmpty_iff {a : Identifiers} : a.isEmpty = true ↔ a.toList = [] := by
  obtain ⟨_ | _, _ | _, _ | _, _ | _⟩ := a <;> simp [isEmpty, toList]

/-- An identifier is listed when it stands at the place of its kind: the list view and the four
places say the same. -/
theorem mem_toList_iff {a : Identifiers} {x : Identifier} :
    x ∈ a.toList ↔
      match x with
      | .aci y => a.aci = some y
      | .pni y => a.pni = some y
      | .number y => a.number = some y
      | .username y => a.username = some y := by
  obtain ⟨a₁, a₂, a₃, a₄⟩ := a
  cases x <;> cases a₁ <;> cases a₂ <;> cases a₃ <;> cases a₄ <;> simp [toList, eq_comm]

/-- Collections with the same identifiers are equal: no place can hold what the list does not
show. -/
theorem ext_toList {a b : Identifiers} (h : ∀ x, x ∈ a.toList ↔ x ∈ b.toList) : a = b := by
  obtain ⟨a₁, a₂, a₃, a₄⟩ := a
  obtain ⟨b₁, b₂, b₃, b₄⟩ := b
  have h₁ : a₁ = b₁ := Option.ext fun y => by simpa [mem_toList_iff] using h (.aci y)
  have h₂ : a₂ = b₂ := Option.ext fun y => by simpa [mem_toList_iff] using h (.pni y)
  have h₃ : a₃ = b₃ := Option.ext fun y => by simpa [mem_toList_iff] using h (.number y)
  have h₄ : a₄ = b₄ := Option.ext fun y => by simpa [mem_toList_iff] using h (.username y)
  rw [h₁, h₂, h₃, h₄]

end Identifiers

/-! ## Addresses -/

/-- Everything one peer is known by: never empty. -/
structure Address extends Identifiers where
  not_empty : toIdentifiers.isEmpty = false
  deriving DecidableEq

namespace Address

/-- An address is its four places; the proof that one is filled adds nothing to compare. -/
theorem ext_identifiers {a b : Address} (h : a.toIdentifiers = b.toIdentifiers) : a = b := by
  cases a; cases b; simp_all

/-- The address with given identifiers, if there are any. -/
def ofIdentifiers? (ids : Identifiers) : Option Address :=
  if h : ids.isEmpty = false then some ⟨ids, h⟩ else none

/-- The address of one account identity. -/
def ofAci (a : Aci) : Address := ⟨⟨some a, none, none, none⟩, rfl⟩

/-- The address of one phone-number identity. -/
def ofPni (p : Pni) : Address := ⟨⟨none, some p, none, none⟩, rfl⟩

/-- The address of one phone number. -/
def ofNumber (n : PhoneNumber) : Address := ⟨⟨none, none, some n, none⟩, rfl⟩

/-- The address of one username. -/
def ofUsername (u : Username) : Address := ⟨⟨none, none, none, some u⟩, rfl⟩

/-- Checks the parts of an address: that there is one, then the number, then the username. -/
def create (aci : Option Aci) (pni : Option Pni) (number username : Option String) :
    Except AddressFault Address :=
  if aci.isNone && pni.isNone && number.isNone && username.isNone then
    .error .empty
  else do
    let number ← (number.mapM PhoneNumber.ofText).mapError .identifier
    let username ← (username.mapM Username.ofText).mapError .identifier
    match ofIdentifiers? ⟨aci, pni, number, username⟩ with
    | some a => .ok a
    | none => .error .empty

/-- The address of one phone number, given as text. -/
def fromNumber (number : String) : Except AddressFault Address :=
  create none none (some number) none

/-- The address of one username, given as text. -/
def fromUsername (username : String) : Except AddressFault Address :=
  create none none none (some username)

/-- The address with its account identity replaced. -/
def withAci (a : Address) (aci : Aci) : Address :=
  ⟨{ a.toIdentifiers with aci := some aci }, by simp [Identifiers.isEmpty]⟩

/-- The address with its phone-number identity replaced. -/
def withPni (a : Address) (pni : Pni) : Address :=
  ⟨{ a.toIdentifiers with pni := some pni }, by simp [Identifiers.isEmpty]⟩

/-- The address with its phone number replaced. -/
def withNumber (a : Address) (number : String) : Except AddressFault Address :=
  match PhoneNumber.ofText number with
  | .error fault => .error (.identifier fault)
  | .ok n => .ok ⟨{ a.toIdentifiers with number := some n }, by simp [Identifiers.isEmpty]⟩

/-- The address with its username replaced. -/
def withUsername (a : Address) (username : String) : Except AddressFault Address :=
  match Username.ofText username with
  | .error fault => .error (.identifier fault)
  | .ok u => .ok ⟨{ a.toIdentifiers with username := some u }, by simp [Identifiers.isEmpty]⟩

/-! ## Views -/

/-- The identifiers of an address, the strongest first. -/
def identifiers (a : Address) : List Identifier := a.toIdentifiers.toList

/-- An address is never without an identifier, which is why `Address.strongest` needs no default. -/
theorem identifiers_ne_nil (a : Address) : a.identifiers ≠ [] := fun h => by
  have := a.not_empty
  rw [Identifiers.isEmpty_iff.mpr h] at this
  contradiction

/-- The strongest identifier. -/
def strongest (a : Address) : Identifier := a.identifiers.head a.identifiers_ne_nil

/-- The strongest identifier as text. -/
def identifier (a : Address) : String := toString a.strongest

/-- One identifier with its kind, as descriptions show it. -/
def describe (x : Identifier) : String := toString x.kind ++ "=" ++ toString x

/-- All identifiers with their kinds. -/
def toString (a : Address) : String :=
  "\x7b" ++ String.intercalate ", " (a.identifiers.map describe) ++ "\x7d"

instance : ToString Address := ⟨Address.toString⟩

/-! ## Comparing -/

/-- Whether two optional values are present and equal. -/
def agree {α : Type} [DecidableEq α] (a b : Option α) : Bool := a.isSome && a == b

/-- The strongest kind on which two addresses agree. -/
def rank (a b : Address) : Option Kind :=
  if agree a.aci b.aci then some .aci
  else if agree a.pni b.pni then some .pni
  else if agree a.number b.number then some .number
  else if agree a.username b.username then some .username
  else none

/-- Whether two addresses have an identifier in common. -/
def sharesWith (a b : Address) : Bool := (a.rank b).isSome

/-- Whether every identifier of `b` is one of `a`. -/
def covers (a b : Address) : Bool :=
  (b.aci.isNone || a.aci == b.aci) && (b.pni.isNone || a.pni == b.pni) &&
    (b.number.isNone || a.number == b.number) && (b.username.isNone || a.username == b.username)

/-- Whether some identifier of `a` is none of `b`. -/
def exceeds (a b : Address) : Bool := !b.covers a

/-- Whether `a` carries an account identity other than a given one. -/
def conflictsWith (a : Address) (aci : Option Aci) : Bool :=
  a.aci.isSome && aci.isSome && a.aci != aci

/-- Orders addresses by account identity, then phone-number identity, number and username;
what is absent comes first, and texts are ordered by code points. -/
instance : Ord Address := ⟨fun a b =>
  (compare (a.aci.map (·.uuid)) (b.aci.map (·.uuid))).then <|
    (compare (a.pni.map (·.uuid)) (b.pni.map (·.uuid))).then <|
      (compare (a.number.map (·.text)) (b.number.map (·.text))).then <|
        compare (a.username.map (·.text)) (b.username.map (·.text))⟩

/-! ## Joining and taking apart -/

/-- The identifiers of both; where both have one of a kind, that of `b`. -/
def updatedWith (a b : Address) : Address :=
  ⟨⟨b.aci.or a.aci, b.pni.or a.pni, b.number.or a.number, b.username.or a.username⟩, by
    have hb := b.not_empty
    revert hb
    simp only [Identifiers.isEmpty, Option.isNone_or]
    cases b.aci.isNone <;> cases b.pni.isNone <;> cases b.number.isNone <;>
      cases b.username.isNone <;> simp⟩

/-- An optional value unless it agrees with another. -/
def unlessAgree {α : Type} [DecidableEq α] (a b : Option α) : Option α :=
  if agree a b then none else a

/-- The identifiers of `a` that are none of `b`, if any are left. -/
def without? (a b : Address) : Option Address :=
  ofIdentifiers? ⟨unlessAgree a.aci b.aci, unlessAgree a.pni b.pni,
    unlessAgree a.number b.number, unlessAgree a.username b.username⟩

end Address

end PeerBook
