import PeerBook.Json.Decoder
import PeerBook.Json.ReadBack

/-!
# PeerBook.Proofs.Json.Records

Reading back a record that was written from its fields. Where the names of the
members differ and the fields take what is written under them, reading finds
the members that are present (`asFields_record`), each under its name
(`lookup_present`).

Every record of the storage is an instance: its names are given, so that they
differ is decided, and each field takes what its own writer writes. Absent
members are left out when a record is written and are not missed when it is
read; `isPlain_record` is what the parser needs beside this.
-/

namespace PeerBook.Json

/-- The members of a record that are present. -/
def present (members : List (String × Option Json)) : Fields :=
  members.filterMap fun (name, value) => value.map (name, ·)

/-- Whether the fields of a record take a member, if it is present. -/
def Takes (fields : List Field) (m : String × Option Json) : Prop :=
  ∀ j, m.2 = some j → ∃ f, fields.find? (·.name == m.1) = some f ∧ f.accepts j = .ok ()

variable {fields : List Field} {members : List (String × Option Json)}

/-- Members that the fields take are found one after another, behind those found before. No name was
found before and none comes twice, so none is refused. -/
theorem fieldsOfMembers_present (hn : (members.map Prod.fst).Nodup)
    (ht : ∀ m ∈ members, Takes fields m) {found : Fields}
    (hf : ∀ m ∈ members, found.lookup m.1 = none) :
    fieldsOfMembers fields
        (members.filterMap fun (name, value) => value.map fun j => (some name, j)) found =
      .ok (found ++ present members) := by
  induction members generalizing found with
  | nil => simp [fieldsOfMembers, present]
  | cons m ms ih =>
      obtain ⟨name, value⟩ := m
      have hnm := List.nodup_cons.mp hn
      have htail := fun m' hm' => ht m' (List.mem_cons_of_mem _ hm')
      have hftail := fun m' hm' => hf m' (List.mem_cons_of_mem _ hm')
      cases value with
      | none => simpa [present] using ih hnm.2 htail hftail
      | some j =>
          have hhead := hf (name, some j) List.mem_cons_self
          obtain ⟨f, hfind, hacc⟩ := ht (name, some j) List.mem_cons_self j rfl
          -- the member goes to the end of what was found
          have hnext : ∀ m' ∈ ms, (found ++ [(name, j)]).lookup m'.1 = none := by
            intro m' hm'
            have hne : m'.1 ≠ name := fun he => hnm.1 (List.mem_map.mpr ⟨m', hm', he⟩)
            have hb : (m'.1 == name) = false := beq_false_of_ne hne
            rw [List.lookup_append, hftail m' hm', List.lookup_cons, hb]
            rfl
          have := ih hnm.2 htail hnext
          simp only [List.filterMap_cons, Option.map_some, fieldsOfMembers, present]
          dsimp only at hhead hfind
          rw [hfind, hhead]
          dsimp only [Option.isSome_none]
          rw [hacc]
          simpa [present] using this

/-- Reading a record finds the members that are present, in the order in which they were written. -/
theorem asFields_record (hn : (members.map Prod.fst).Nodup)
    (ht : ∀ m ∈ members, Takes fields m) :
    asFields fields (record members) = .ok (present members) :=
  fieldsOfMembers_present hn ht fun _ _ => rfl

/-- A member is found under its name, if it is present; under the name of an absent one nothing is
found, since no other member has that name. -/
theorem lookup_present (hn : (members.map Prod.fst).Nodup) (name : String) :
    (present members).lookup name = (members.lookup name).join := by
  induction members with
  | nil => rfl
  | cons m ms ih =>
      obtain ⟨key, value⟩ := m
      have hnm := List.nodup_cons.mp hn
      have ih := ih hnm.2
      by_cases hk : name = key
      · have hms : ms.lookup key = none := by
          rw [List.lookup_eq_none_iff]
          intro p hp
          exact bne_iff_ne.mpr fun he => hnm.1 (List.mem_map.mpr ⟨p, hp, he.symm⟩)
        subst hk
        rw [hms] at ih
        cases value with
        | none => simpa [present] using ih
        | some j => simp [present]
      · have hb : (name == key) = false := beq_false_of_ne hk
        cases value with
        | none => simpa [present, List.lookup_cons, hb] using ih
        | some j => simpa [present, List.lookup_cons, hb] using ih

/-- A record of plain members is plain: the names are texts, and absent members are not written. -/
theorem isPlain_record (h : ∀ m ∈ members, ∀ j, m.2 = some j → j.isPlain = true) :
    (record members).isPlain = true := by
  induction members with
  | nil => rfl
  | cons m ms ih =>
      obtain ⟨name, value⟩ := m
      have htail := ih fun m' hm' => h m' (List.mem_cons_of_mem _ hm')
      cases value with
      | none => simpa [record] using htail
      | some j =>
          have hj := h (name, some j) List.mem_cons_self j rfl
          simp only [record, isPlain] at htail
          simp [record, isPlain, membersArePlain, hj, htail]

end PeerBook.Json
