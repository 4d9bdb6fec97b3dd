/-!
# PeerBook.Kind

The four kinds of identifier, by how strongly sharing one proves that two
addresses are of one peer: an account identity most, then a phone-number
identity, a phone number, and a username least.

The order on kinds is that of `Kind.strength`, which is injective
(`Kind.strength_inj`), so kinds are linearly ordered and an account identity is
the greatest (`Kind.le_aci`). `Kind.all` and `Kind.below` list kinds with the
weakest first; the names are those that stored data and log lines use.
-/

namespace PeerBook

/-- The kinds of identifier, the weakest first. -/
inductive Kind where
  | username
  | number
  | pni
  | aci
  deriving DecidableEq, Repr

namespace Kind

/-- How strongly an identifier of the kind proves identity. -/
def strength : Kind → Nat
  | username => 0
  | number => 1
  | pni => 2
  | aci => 3

instance : LE Kind := ⟨fun a b => a.strength ≤ b.strength⟩

instance : LT Kind := ⟨fun a b => a.strength < b.strength⟩

instance (a b : Kind) : Decidable (a ≤ b) := inferInstanceAs (Decidable (a.strength ≤ b.strength))

instance (a b : Kind) : Decidable (a < b) := inferInstanceAs (Decidable (a.strength < b.strength))

/-- The name of a kind. -/
def name : Kind → String
  | username => "username"
  | number => "number"
  | pni => "pni"
  | aci => "aci"

instance : ToString Kind := ⟨name⟩

/-- All kinds, the weakest first. -/
def all : List Kind := [username, number, pni, aci]

/-- The kinds weaker than a given one, the weakest first. -/
def below (k : Kind) : List Kind := all.filter (· < k)

/-- The kind with a given name. -/
def ofName? (s : String) : Option Kind := all.find? (·.name == s)

@[simp] theorem ofName?_name (k : Kind) : ofName? k.name = some k := by cases k <;> decide

/-- Kinds of one strength are one kind: comparing strengths decides which kind is meant. -/
theorem strength_inj {a b : Kind} (h : a.strength = b.strength) : a = b := by
  revert h; cases a <;> cases b <;> decide

/-- Nothing proves identity more than an account identity, the top of the order. -/
theorem le_aci (k : Kind) : k ≤ aci := by cases k <;> decide

/-- The order of strength is antisymmetric, as strengths are numbers and determine the kind. -/
theorem le_antisymm {a b : Kind} (hab : a ≤ b) (hba : b ≤ a) : a = b :=
  strength_inj (Nat.le_antisymm hab hba)

end Kind

end PeerBook
