import PeerBook.Address

/-!
# PeerBook.Proofs.Samples

Identifiers to try things on: UUIDs of one digit.

A witness of a theorem with hypotheses is an actual run, and needs identifiers
that are valid and differ from each other. Fifteen identities of each kind are
more than any of them uses.
-/

namespace PeerBook

/-- The UUID whose digits are all the same. -/
def Uuid.repeating (d : Fin 16) : Uuid := ⟨List.replicate 32 d, List.length_replicate⟩

/-- A UUID of one digit other than zero is not nil. -/
theorem Uuid.isNil_repeating_succ (d : Fin 15) : (repeating d.succ).isNil = false := by
  unfold repeating isNil
  rw [List.all_replicate]
  simp

/-- One of fifteen account identities. -/
def Aci.sample (n : Nat) : Aci :=
  ⟨.repeating (Fin.ofNat 15 n).succ, Uuid.isNil_repeating_succ _⟩

/-- One of fifteen phone-number identities. -/
def Pni.sample (n : Nat) : Pni :=
  ⟨.repeating (Fin.ofNat 15 n).succ, Uuid.isNil_repeating_succ _⟩

/-- A phone number. -/
def PhoneNumber.sample : PhoneNumber := ⟨"+4915550001", by decide⟩

/-- An account identity and a phone-number identity, proved to belong together. -/
def Address.sampleProof : Address := (ofAci (.sample 0)).withPni (.sample 0)

end PeerBook
