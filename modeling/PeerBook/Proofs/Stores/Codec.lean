import PeerBook.Proofs.Directory.Codec
import PeerBook.Stores.All

/-!
# PeerBook.Proofs.Stores.Codec

What the stores write is read back as it was (`Json.Restores`): sessions,
identities, profiles, messages and settings. The profiles are the one record
inside another, and the names of capabilities the one set.

Each record is shown field by field: that the fields take what is written under
their names (`Restores.takes`, `Restores.takesOptional`), and that they are then
read as what was written (`Restores.required`, `Restores.optional`). The general
lemmas about records in `PeerBook.Proofs.Json.Records` put the fields together.
-/

namespace PeerBook

namespace Json

variable {α : Type} {decode : Decoder α} {write : α → Json}

/-- A decoder reads back what a writer writes, and that is plain. -/
structure Restores (decode : Decoder α) (write : α → Json) : Prop where
  read (a : α) : decode (write a) = .ok a
  plain (a : α) : (write a).isPlain = true

/-- What is restored is read back from its text. -/
theorem Restores.decode_compact (h : Restores decode write) (a : α) :
    Json.decode decode (write a).compact = .ok a := by
  rw [Json.decode_compact _ (h.plain a), h.read]

theorem restores_text : Restores asText text := ⟨fun _ => rfl, fun _ => rfl⟩

theorem restores_bool : Restores asBool bool := ⟨fun _ => rfl, fun _ => rfl⟩

theorem restores_uint64 : Restores asUInt64 fun t => nat t.toNat where
  read t := by simp [asUInt64, nat, asNatBelow, Except.map, t.toNat_lt]
  plain _ := rfl

theorem restores_uint32 : Restores asUInt32 fun t => nat t.toNat where
  read t := by simp [asUInt32, nat, asNatBelow, Except.map, t.toNat_lt]
  plain _ := rfl

theorem restores_peer : Restores PeerId.ofJson PeerId.toJson := ⟨PeerId.ofJson_toJson, fun _ => rfl⟩

/-! ## Fields of records -/

variable {fields : List Field} {members : List (String × Option Json)} {name : String}

/-- A field takes what is restored under its name. -/
theorem Restores.takes (h : Restores decode write) (a : α)
    (hf : fields.find? (·.name == name) = some (field name decode)) :
    Takes fields (name, some (write a)) := by
  rintro j ⟨⟩
  exact ⟨_, hf, accepts_of_ok (h.read a) name⟩

variable (name) in
/-- A field that has to be there is read back. -/
theorem Restores.required (h : Restores decode write) {a : α} (hn : (members.map Prod.fst).Nodup)
    (hl : members.lookup name = some (some (write a))) :
    (present members).required name decode = .ok a := by
  rw [Fields.required, lookup_present hn, hl]
  exact h.read a

/-- A field that may be left out takes what is restored under its name. -/
theorem Restores.takesOptional (h : Restores decode write) (hnull : ∀ a, write a ≠ .null)
    (o : Option α) (hf : fields.find? (·.name == name) = some (fieldOr name (asOptional decode))) :
    Takes fields (name, o.map write) :=
  Address.takes_optional hf h.read hnull

variable (name) in
/-- A field that may be left out is read back. -/
theorem Restores.optional (h : Restores decode write) (hnull : ∀ a, write a ≠ .null) {o : Option α}
    (hn : (members.map Prod.fst).Nodup) (hl : members.lookup name = some (o.map write)) :
    (present members).getD name (asOptional decode) none = .ok o := by
  rw [← Option.map_id' (x := o)]
  exact Address.getD_optional (by rw [lookup_present hn, hl]; rfl) h.read hnull

/-- What is written of a value that may be absent is plain. -/
theorem Restores.plainOptional (h : Restores decode write) (o : Option α) :
    ∀ j, o.map write = some j → j.isPlain = true := by
  intro j hj
  obtain ⟨a, -, rfl⟩ := Option.map_eq_some_iff.mp hj
  exact h.plain a

end Json

open Json

/-! ## Sessions and identities -/

/-- A stored session is read back. -/
theorem StoredSession.restores : Restores ofJson toJson where
  read s := by
    obtain ⟨fs, hf, hr, hl⟩ := asFields_pair (m := "record") (n := "live") (by decide)
      (restores_text.read s.record) (restores_bool.read s.live)
    simp [ofJson, toJson, hf, hr, hl, bind, Except.bind, pure, Except.pure]
  plain s := isPlain_record (by simp [Json.text, isPlain])

/-- A level of trust is read back from its name. -/
theorem TrustLevel.restores : Restores ofJson toJson where
  read t := by simp [ofJson, toJson, asNamed, Json.text]
  plain _ := rfl

/-- A byte string is read back from its hexadecimal digits. -/
theorem Identity.restores_bytes : Restores bytesOfJson fun b => .text (Text.Hex.encode b) where
  read b := by simp [bytesOfJson, restores_text.read, bind, Except.bind]
  plain _ := rfl

/-- An identity is read back, its key in hexadecimal digits, with its trust and the time at which it
was first seen. -/
theorem Identity.restores : Restores ofJson toJson where
  read i := by
    have hn : ([("identityKey", some (Json.text (Text.Hex.encode i.key))),
        ("trustLevel", some i.trust.toJson), ("addedAt", some (.nat i.addedAt.toNat))].map
          Prod.fst).Nodup := by simp
    rw [ofJson, toJson, asFields_record hn]
    · simp [bind, Except.bind, pure, Except.pure,
        restores_bytes.required "identityKey" (a := i.key) hn,
        TrustLevel.restores.required "trustLevel" (a := i.trust) hn,
        restores_uint64.required "addedAt" (a := i.addedAt) hn, List.lookup_cons]
    · simp only [List.forall_mem_cons]
      exact ⟨restores_bytes.takes _ rfl, TrustLevel.restores.takes _ rfl,
        restores_uint64.takes _ rfl, nofun⟩
  plain i := isPlain_record (by simp [Json.text, Json.nat, TrustLevel.toJson, isPlain])

/-! ## Messages -/

/-- The members of a written entry of the send log. -/
def SentMessage.members (m : SentMessage) : List (String × Option Json) :=
  [("id", some (.text m.id)), ("recipient", some m.peer.toJson),
    ("deviceId", some (.nat m.device.toNat)), ("timestamp", some (.nat m.timestamp.toNat)),
    ("content", some (.text m.content)), ("urgent", some (.bool m.urgent))]

/-- An entry of the send log is read back, field by field; the content stays in the base 64 in which
it is written. -/
theorem SentMessage.restores : Restores ofJson toJson where
  read m := by
    have hn : (m.members.map Prod.fst).Nodup := by simp [members]
    have hf : asFields jsonFields m.toJson = .ok (present m.members) := by
      refine asFields_record hn ?_
      simp only [List.forall_mem_cons]
      exact ⟨restores_text.takes _ rfl, restores_peer.takes _ rfl, restores_uint32.takes _ rfl,
        restores_uint64.takes _ rfl, restores_text.takes _ rfl, restores_bool.takes _ rfl, nofun⟩
    have h₁ := restores_text.required "id" (a := m.id) hn rfl
    have h₂ := restores_peer.required "recipient" (a := m.peer) hn rfl
    have h₃ := restores_uint32.required "deviceId" (a := m.device) hn rfl
    have h₄ := restores_uint64.required "timestamp" (a := m.timestamp) hn rfl
    have h₅ := restores_text.required "content" (a := m.content) hn rfl
    have h₆ := restores_bool.required "urgent" (a := m.urgent) hn rfl
    simp [ofJson, hf, h₁, h₂, h₃, h₄, h₅, h₆, bind, Except.bind, pure, Except.pure]
  plain m := isPlain_record (by simp [Json.text, Json.nat, PeerId.toJson, isPlain])

/-- The members of a written entry of a cache. -/
def CachedMessage.members (m : CachedMessage) : List (String × Option Json) :=
  [("id", some (.text m.id)), ("recipient", some m.peer.toJson),
    ("envelope", some (.text m.envelope)), ("receivedAt", some (.nat m.receivedAt.toNat))]

/-- An entry of a cache is read back, with or without the fields that an envelope may lack. -/
theorem CachedMessage.restores : Restores ofJson toJson where
  read m := by
    have hn : (m.members.map Prod.fst).Nodup := by simp [members]
    have hf : asFields jsonFields m.toJson = .ok (present m.members) := by
      refine asFields_record hn ?_
      simp only [List.forall_mem_cons]
      exact ⟨restores_text.takes _ rfl, restores_peer.takes _ rfl, restores_text.takes _ rfl,
        restores_uint64.takes _ rfl, nofun⟩
    have h₁ := restores_text.required "id" (a := m.id) hn rfl
    have h₂ := restores_peer.required "recipient" (a := m.peer) hn rfl
    have h₃ := restores_text.required "envelope" (a := m.envelope) hn rfl
    have h₄ := restores_uint64.required "receivedAt" (a := m.receivedAt) hn rfl
    simp [ofJson, hf, h₁, h₂, h₃, h₄, bind, Except.bind, pure, Except.pure]
  plain m := isPlain_record (by simp [Json.text, Json.nat, PeerId.toJson, isPlain])

/-! ## Settings -/

/-- The members of written settings. -/
def Preferences.members (p : Preferences) : List (String × Option Json) :=
  [("mutedUntil", p.mutedUntil.map fun t => .nat t.toNat),
    ("expirationTimerSecs", p.expirationTimerSecs.map fun t => .nat t.toNat),
    ("blocked", p.blocked.map .bool), ("archived", p.archived.map .bool)]

/-- Settings are read back, those that have their default by being left out. Each field may be left
out, so the empty record is that of the default settings. -/
theorem Preferences.restores : Restores ofJson toJson where
  read p := by
    have hn : (p.members.map Prod.fst).Nodup := by simp [members]
    have hf : asFields jsonFields p.toJson = .ok (present p.members) := by
      refine asFields_record hn ?_
      simp only [List.forall_mem_cons]
      exact ⟨restores_uint64.takesOptional nofun _ rfl, restores_uint32.takesOptional nofun _ rfl,
        restores_bool.takesOptional nofun _ rfl, restores_bool.takesOptional nofun _ rfl, nofun⟩
    have h₁ := restores_uint64.optional "mutedUntil" nofun hn (o := p.mutedUntil) rfl
    have h₂ := restores_uint32.optional "expirationTimerSecs" nofun hn
      (o := p.expirationTimerSecs) rfl
    have h₃ := restores_bool.optional "blocked" nofun hn (o := p.blocked) rfl
    have h₄ := restores_bool.optional "archived" nofun hn (o := p.archived) rfl
    simp [ofJson, hf, h₁, h₂, h₃, h₄, bind, Except.bind, pure, Except.pure]
  plain p := by
    refine isPlain_record ?_
    simp only [List.forall_mem_cons]
    exact ⟨restores_uint64.plainOptional _, restores_uint32.plainOptional _,
      restores_bool.plainOptional _, restores_bool.plainOptional _, nofun⟩

/-! ## Profiles -/

/-- A list of strings is read back item by item. -/
theorem asList_map_text (texts : List String) :
    asList asText (.array (texts.map .text)) = .ok texts := by
  show (texts.map Json.text).mapM asText = .ok texts
  induction texts with
  | nil => rfl
  | cons s ss ih =>
      rw [List.map_cons, List.mapM_cons, ih]
      rfl

theorem arePlain_map_text (texts : List String) : arePlain (texts.map .text) = true := by
  induction texts with
  | nil => rfl
  | cons s ss ih => simpa [arePlain, Json.text, isPlain] using ih

namespace Profile

/-- The set of the keys of a set is the set, as its members ascend and a set is determined by
them. -/
theorem setOf_keys (t : Table String Unit) : setOf t.keys = t := by
  apply Table.ofList_eq
  rintro k ⟨⟩
  rw [Table.get?_eq_some_iff]
  have hunit : (∃ u, (k, u) ∈ t.entries) ↔ (k, ()) ∈ t.entries := by
    constructor
    · rintro ⟨⟨⟩, h⟩
      exact h
    · intro h
      exact ⟨(), h⟩
  simpa [Table.keys] using hunit

/-- A set of strings is read back from the list of its members. -/
theorem restores_set :
    Restores setOfJson fun t : Table String Unit => .array (t.keys.map .text) where
  read t := by simp [setOfJson, asList_map_text, Except.map, setOf_keys]
  plain t := arePlain_map_text t.keys

/-- The members of a written profile. -/
def members (p : Profile) : List (String × Option Json) :=
  [("givenName", p.givenName.map .text), ("familyName", p.familyName.map .text),
    ("about", p.about.map .text),
    ("capabilities",
      if p.capabilities.entries.isEmpty then none
      else some (.array (p.capabilities.keys.map .text))),
    ("lastUpdate", p.lastUpdate.map fun t => .nat t.toNat)]

/-- The members of a written profile have different names. -/
theorem names_members (p : Profile) : (p.members.map Prod.fst).Nodup := by simp [members]

/-- No capabilities are left out, and read as such. -/
theorem getD_capabilities (p : Profile) :
    (present p.members).getD "capabilities" setOfJson ∅ = .ok p.capabilities := by
  rw [Fields.getD, lookup_present p.names_members]
  by_cases he : p.capabilities.entries.isEmpty = true
  · have h0 : p.capabilities = ∅ := Table.eq_of_entries (List.isEmpty_iff.mp he)
    simp [members, List.lookup_cons, h0]
  · simp [members, List.lookup_cons, he, restores_set.read]

/-- A profile is read back, what it does not say by being left out. An empty set of capabilities is
left out as well. -/
theorem restores : Restores ofJson toJson where
  read p := by
    have hn := p.names_members
    have hf : asFields jsonFields p.toJson = .ok (present p.members) := by
      refine asFields_record hn ?_
      simp only [List.forall_mem_cons]
      refine ⟨restores_text.takesOptional nofun _ rfl, restores_text.takesOptional nofun _ rfl,
        restores_text.takesOptional nofun _ rfl, fun j hj => ?_,
        restores_uint64.takesOptional nofun _ rfl, nofun⟩
      rw [Option.ite_none_left_eq_some] at hj
      obtain ⟨-, ⟨⟩⟩ := hj
      exact ⟨fieldOr "capabilities" setOfJson, rfl,
        accepts_of_ok (restores_set.read _) "capabilities"⟩
    have h₁ := restores_text.optional "givenName" nofun hn (o := p.givenName) rfl
    have h₂ := restores_text.optional "familyName" nofun hn (o := p.familyName) rfl
    have h₃ := restores_text.optional "about" nofun hn (o := p.about) rfl
    have h₄ := p.getD_capabilities
    have h₅ := restores_uint64.optional "lastUpdate" nofun hn (o := p.lastUpdate) rfl
    simp [ofJson, hf, h₁, h₂, h₃, h₄, h₅, bind, Except.bind, pure, Except.pure]
  plain p := by
    refine isPlain_record ?_
    simp only [List.forall_mem_cons]
    refine ⟨restores_text.plainOptional _, restores_text.plainOptional _,
      restores_text.plainOptional _, fun j hj => ?_, restores_uint64.plainOptional _, nofun⟩
    rw [Option.ite_none_left_eq_some] at hj
    obtain ⟨-, ⟨⟩⟩ := hj
    exact restores_set.plain _

end Profile

/-- The members of a written entry. -/
def ProfileEntry.members (e : ProfileEntry) : List (String × Option Json) :=
  [("profileKey", e.profileKey.map .text), ("profile", e.profile.map Profile.toJson)]

/-- The entry of a peer is read back, with the profile inside, and either of the two may be
missing. -/
theorem ProfileEntry.restores : Restores ofJson toJson where
  read e := by
    have hn : (e.members.map Prod.fst).Nodup := by simp [members]
    have hf : asFields [fieldOr "profileKey" (asOptional asText),
        fieldOr "profile" (asOptional Profile.ofJson)] e.toJson = .ok (present e.members) := by
      refine asFields_record hn ?_
      simp only [List.forall_mem_cons]
      exact ⟨restores_text.takesOptional nofun _ rfl,
        Profile.restores.takesOptional nofun _ rfl, nofun⟩
    have h₁ := restores_text.optional "profileKey" nofun hn (o := e.profileKey) rfl
    have h₂ := Profile.restores.optional "profile" nofun hn (o := e.profile) rfl
    simp [ofJson, hf, h₁, h₂, bind, Except.bind, pure, Except.pure]
  plain e := by
    refine isPlain_record ?_
    simp only [List.forall_mem_cons]
    exact ⟨restores_text.plainOptional _, Profile.restores.plainOptional _, nofun⟩

end PeerBook
