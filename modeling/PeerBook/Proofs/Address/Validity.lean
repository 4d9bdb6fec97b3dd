import PeerBook.Proofs.Address.Parts

/-!
# PeerBook.Proofs.Address.Validity

Every address keeps the rules, however it was made. An identity comes from a
source that names its UUID (`Source`), and a recipe makes an address in any
number of steps (`Recipe`). Whatever it makes has the parts that come out
without checks, and these are valid, and each step refuses just what would break
a rule (`every_address_is_valid`).

`Recipe` has a constructor for every way in which the library makes an address:
from a single identifier, from all parts at once, by replacing a part of
another, by joining two, by taking one from another, and from JSON. So the
induction over recipes is one over everything that can happen to an address
before it is stored; one step of it is `make_iff_of_members`.
-/

namespace PeerBook

/-! ## Identities -/

/-- The digits of a random UUID: one tells its version, and two bits of another its variant. -/
def Uuid.version4 (drawn : Uuid) : Uuid where
  digits := (drawn.digits.set 12 ⟨4, by decide⟩).modify 16 fun d => ⟨8 + d.val % 4, by omega⟩
  length_digits := by simp [drawn.length_digits]

/-- A random UUID has the digit of its version, so it is not nil and needs no check. -/
theorem Uuid.isNil_version4 (drawn : Uuid) : drawn.version4.isNil = false := by
  have hlt : 12 < drawn.version4.digits.length := by simp [drawn.version4.length_digits]
  have hdigit : drawn.version4.digits[12] = ⟨4, by decide⟩ := by simp [version4]
  refine List.all_eq_false.mpr ⟨⟨4, by decide⟩, ?_, by decide⟩
  rw [← hdigit]
  exact List.getElem_mem hlt

/-- A random account identity, which is not checked. -/
def Aci.random (drawn : Uuid) : Aci := ⟨drawn.version4, drawn.isNil_version4⟩

/-- A random phone-number identity, which is not checked. -/
def Pni.random (drawn : Uuid) : Pni := ⟨drawn.version4, drawn.isNil_version4⟩

/-- An account identity is read from the text of its UUID, if that is not nil. -/
theorem Aci.parse_eq_ok (s : String) (a : Aci) :
    parse s = .ok a ↔ Uuid.parse? s = some a.uuid := by
  unfold parse
  cases Uuid.parse? s with
  | none => simp
  | some u => rw [mapError_eq_ok_iff, ofUuid_eq_ok, Option.some.injEq, eq_comm]

/-- The text of a phone-number identity without the mark. -/
def Pni.unmarked (s : String) : String := (Text.afterPrefix? mark s).getD s

/-- A phone-number identity is read from the text of its UUID, the mark taken off. -/
theorem Pni.parse_eq_ok (s : String) (p : Pni) :
    parse s = .ok p ↔ Uuid.parse? (unmarked s) = some p.uuid := by
  unfold parse unmarked
  cases Uuid.parse? ((Text.afterPrefix? mark s).getD s) with
  | none => simp
  | some u => rw [mapError_eq_ok_iff, ofUuid_eq_ok, Option.some.injEq, eq_comm]

/-- Where an identity comes from. -/
inductive Source where
  | uuid (u : Uuid)
  | random (drawn : Uuid)
  | text (s : String)
  | json (s : String)

namespace Source

variable {α : Type} {view : α → Uuid} {ofUuid : Uuid → Except IdentifierFault α}
  {random' : Uuid → α} {parse : String → Except Error α} {ofJson : Json.Decoder α}
  {unmarked : String → String}

/-- The identity of some kind that comes from a source. -/
def make (ofUuid : Uuid → Except IdentifierFault α) (random' : Uuid → α)
    (parse : String → Except Error α) (ofJson : Json.Decoder α) : Source → Option α
  | uuid u => (ofUuid u).toOption
  | random drawn => some (random' drawn)
  | text s => (parse s).toOption
  | json s => (Json.decode ofJson s).toOption

/-- The account identity that comes from a source. -/
def aci? : Source → Option Aci := make Aci.ofUuid Aci.random Aci.parse Aci.ofJson

/-- The phone-number identity that comes from a source. -/
def pni? : Source → Option Pni := make Pni.ofUuid Pni.random Pni.parse Pni.ofJson

/-- The UUID that a source names, without a check. -/
def uuid? (unmarked : String → String) : Source → Option Uuid
  | uuid u => some u
  | random drawn => some drawn.version4
  | text s => Uuid.parse? (unmarked s)
  | json s => (Json.decode Uuid.ofJson s).toOption

/-- **An identity comes from a source that names its UUID**, and from no other. -/
theorem make_eq_some (hu : ∀ u a, ofUuid u = .ok a ↔ view a = u)
    (hr : ∀ drawn a, random' drawn = a ↔ drawn.version4 = view a)
    (hp : ∀ s a, parse s = .ok a ↔ Uuid.parse? (unmarked s) = some (view a))
    (hj : ∀ j a, ofJson j = .ok a ↔ Uuid.ofJson j = .ok (view a)) (source : Source) (a : α) :
    source.make ofUuid random' parse ofJson = some a ↔
      source.uuid? unmarked = some (view a) := by
  cases source with
  | uuid u => rw [make, toOption_eq_some_iff, hu, uuid?, Option.some.injEq, eq_comm]
  | random drawn => rw [make, uuid?, Option.some.injEq, Option.some.injEq, hr]
  | text s => rw [make, toOption_eq_some_iff, hp, uuid?]
  | json s =>
      rw [make, uuid?, toOption_eq_some_iff, toOption_eq_some_iff, Json.decode_eq_ok,
        Json.decode_eq_ok, hj]

/-- An account identity comes from a source that names its UUID. -/
theorem aci?_eq_some (source : Source) (a : Aci) :
    source.aci? = some a ↔ source.uuid? id = some a.uuid :=
  make_eq_some (fun _ _ => Aci.ofUuid_eq_ok) (fun _ _ => Aci.uuid_inj.symm) Aci.parse_eq_ok
    Aci.ofJson_eq_ok source a

/-- A phone-number identity comes from a source that names its UUID, with or without the mark. -/
theorem pni?_eq_some (source : Source) (p : Pni) :
    source.pni? = some p ↔ source.uuid? Pni.unmarked = some p.uuid :=
  make_eq_some (fun _ _ => Pni.ofUuid_eq_ok) (fun _ _ => Pni.uuid_inj.symm) Pni.parse_eq_ok
    Pni.ofJson_eq_ok source p

end Source

/-! ## Recipes -/

/-- A way to make an address, in any number of steps. -/
inductive Recipe where
  | create (aci pni : Option Source) (number username : Option String)
  | ofAci (aci : Source)
  | ofPni (pni : Source)
  | fromNumber (number : String)
  | fromUsername (username : String)
  | withAci (r : Recipe) (aci : Source)
  | withPni (r : Recipe) (pni : Source)
  | withNumber (r : Recipe) (number : String)
  | withUsername (r : Recipe) (username : String)
  | updatedWith (r r' : Recipe)
  | without (r r' : Recipe)
  | read (text : String)

namespace Recipe

/-- The recipes of the addresses that a last step works on. -/
def members : Recipe → List Recipe
  | withAci r _ | withPni r _ | withNumber r _ | withUsername r _ => [r]
  | updatedWith r r' | without r r' => [r, r']
  | _ => []

/-- The address that is made, if any. -/
def make : Recipe → Option Address
  | create aci pni number username => do
    (Address.create (← aci.mapM Source.aci?) (← pni.mapM Source.pni?) number username).toOption
  | ofAci aci => return .ofAci (← aci.aci?)
  | ofPni pni => return .ofPni (← pni.pni?)
  | fromNumber number => (Address.fromNumber number).toOption
  | fromUsername username => (Address.fromUsername username).toOption
  | withAci r aci => return (← r.make).withAci (← aci.aci?)
  | withPni r pni => return (← r.make).withPni (← pni.pni?)
  | withNumber r number => do ((← r.make).withNumber number).toOption
  | withUsername r username => do ((← r.make).withUsername username).toOption
  | updatedWith r r' => return (← r.make).updatedWith (← r'.make)
  | without r r' => do (← r.make).without? (← r'.make)
  | read text => (Json.decode Address.ofJson text).toOption

/-- The parts that come out where nothing is checked; there are none only where a text has none. -/
def parts? : Recipe → Option Parts
  | create aci pni number username => do
    return ⟨← aci.mapM (Source.uuid? id), ← pni.mapM (Source.uuid? Pni.unmarked), number, username⟩
  | ofAci aci => return ⟨← aci.uuid? id, none, none, none⟩
  | ofPni pni => return ⟨none, ← pni.uuid? Pni.unmarked, none, none⟩
  | fromNumber number => some ⟨none, none, number, none⟩
  | fromUsername username => some ⟨none, none, none, username⟩
  | withAci r aci => return { ← r.parts? with aci := some (← aci.uuid? id) }
  | withPni r pni => return { ← r.parts? with pni := some (← pni.uuid? Pni.unmarked) }
  | withNumber r number => return { ← r.parts? with number := some number }
  | withUsername r username => return { ← r.parts? with username := some username }
  | updatedWith r r' => return (← r.parts?).union (← r'.parts?)
  | without r r' => return (← r.parts?).strip (← r'.parts?)
  | read text => (Json.decode Parts.ofJson text).toOption

end Recipe

/-! ## Every recipe -/

/-- What comes from an optional source comes from the source, if there is one. -/
theorem mapM_eq_some_iff {σ α β : Type} {get : σ → Option α} {view : α → β}
    {raw : σ → Option β} (h : ∀ s a, get s = some a ↔ raw s = some (view a)) {s? : Option σ}
    {a? : Option α} : s?.mapM get = some a? ↔ s?.mapM raw = some (a?.map view) := by
  cases s? with
  | none => cases a? <;> simp
  | some s => cases a? <;> simp [h]

/-- An address made of a value that is checked has the parts made of the value unchecked. -/
theorem Address.bind_eq_some_iff {α β : Type} {get : Option α} {raw : Option β} {view : α → β}
    {f : α → Address} {g : β → Parts} {a : Address} (h : ∀ x, get = some x ↔ raw = some (view x))
    (hparts : ∀ x, (f x).parts = g (view x)) (hview : ∀ u, g u = a.parts → ∃ x, view x = u) :
    (get.bind fun x => some (f x)) = some a ↔ (raw.bind fun u => some (g u)) = some a.parts := by
  simp only [Option.bind_eq_some_iff, Option.some.injEq]
  constructor
  · rintro ⟨x, hx, rfl⟩
    exact ⟨view x, (h x).mp hx, (hparts x).symm⟩
  · rintro ⟨u, hu, hg⟩
    obtain ⟨x, rfl⟩ := hview u hg
    exact ⟨x, (h x).mpr hu, parts_inj.mp ((hparts x).trans hg)⟩

namespace Recipe

/-- An address that is made of an account identity has the parts made of its UUID, and is refused
where that is nil. -/
theorem make_of_aci {aci : Source} {f : Aci → Address} {g : Uuid → Parts} {a : Address}
    (hparts : ∀ x, (f x).parts = g x.uuid) (haci : ∀ u, (g u).aci = some u) :
    (aci.aci?.bind fun x => some (f x)) = some a ↔
      ((aci.uuid? id).bind fun u => some (g u)) = some a.parts :=
  Address.bind_eq_some_iff aci.aci?_eq_some hparts fun u hu => by
    obtain ⟨x, -, hx⟩ := Option.map_eq_some_iff.mp ((congrArg Parts.aci hu).symm.trans (haci u))
    exact ⟨x, hx⟩

/-- An address that is made of a phone-number identity has the parts made of its UUID, and is
refused where that is nil. -/
theorem make_of_pni {pni : Source} {f : Pni → Address} {g : Uuid → Parts} {a : Address}
    (hparts : ∀ x, (f x).parts = g x.uuid) (hpni : ∀ u, (g u).pni = some u) :
    (pni.pni?.bind fun x => some (f x)) = some a ↔
      ((pni.uuid? Pni.unmarked).bind fun u => some (g u)) = some a.parts :=
  Address.bind_eq_some_iff pni.pni?_eq_some hparts fun u hu => by
    obtain ⟨x, -, hx⟩ := Option.map_eq_some_iff.mp ((congrArg Parts.pni hu).symm.trans (hpni u))
    exact ⟨x, hx⟩

/-- An address is created from sources just if their UUIDs and the texts are its parts. -/
theorem make_create_iff {aci pni : Option Source} {number username : Option String}
    {a : Address} : (create aci pni number username).make = some a ↔
      (create aci pni number username).parts? = some a.parts := by
  simp only [make, parts?, Option.bind_eq_bind, Option.bind_eq_some_iff, toOption_eq_some_iff,
    Address.create_eq_ok, mapM_eq_some_iff Source.aci?_eq_some,
    mapM_eq_some_iff Source.pni?_eq_some]
  constructor
  · rintro ⟨aci', haci, pni', hpni, ha⟩
    exact ⟨_, haci, _, hpni, congrArg some ha.symm⟩
  · rintro ⟨aci', haci, pni', hpni, ha⟩
    obtain ⟨rfl, rfl, rfl, rfl⟩ := Parts.mk.inj (Option.some.inj ha)
    exact ⟨a.aci, haci, a.pni, hpni, rfl⟩

/-- What an address was made of was made, too: no step invents an address that it works on. -/
theorem members_made {r : Recipe} {a : Address} (h : r.make = some a) :
    ∀ m ∈ r.members, ∃ b, m.make = some b := by
  cases r with
  | create | ofAci | ofPni | fromNumber | fromUsername | read => simp [members]
  | withAci r | withPni r | withNumber r | withUsername r =>
      obtain ⟨b, hb, -⟩ := Option.bind_eq_some_iff.mp h
      simpa [members] using ⟨b, hb⟩
  | updatedWith r r' | without r r' =>
      obtain ⟨b, hb, hrest⟩ := Option.bind_eq_some_iff.mp h
      obtain ⟨c, hc, -⟩ := Option.bind_eq_some_iff.mp hrest
      simpa [members] using ⟨⟨b, hb⟩, c, hc⟩

/-- **One step makes an address of those parts that come out without checks**, if what it works on
was made and has these. -/
theorem make_iff_of_members {r : Recipe} {a : Address}
    (h : ∀ m ∈ r.members, ∃ b, m.make = some b ∧ m.parts? = some b.parts) :
    r.make = some a ↔ r.parts? = some a.parts := by
  cases r with
  | create => exact make_create_iff
  | ofAci aci =>
      simp only [make, parts?, Option.bind_eq_bind, Option.pure_def]
      exact make_of_aci (fun _ => rfl) fun _ => rfl
  | ofPni pni =>
      simp only [make, parts?, Option.bind_eq_bind, Option.pure_def]
      exact make_of_pni (fun _ => rfl) fun _ => rfl
  | fromNumber number =>
      rw [make, toOption_eq_some_iff, Address.fromNumber, Address.create_eq_ok, parts?,
        Option.some.injEq, eq_comm]
      rfl
  | fromUsername username =>
      rw [make, toOption_eq_some_iff, Address.fromUsername, Address.create_eq_ok, parts?,
        Option.some.injEq, eq_comm]
      rfl
  | withAci r aci =>
      obtain ⟨b, hb, hp⟩ := h r (by simp [members])
      simp only [make, parts?, Option.bind_eq_bind, Option.pure_def, hb, hp, Option.bind_some]
      exact make_of_aci (fun _ => rfl) fun _ => rfl
  | withPni r pni =>
      obtain ⟨b, hb, hp⟩ := h r (by simp [members])
      simp only [make, parts?, Option.bind_eq_bind, Option.pure_def, hb, hp, Option.bind_some]
      exact make_of_pni (fun _ => rfl) fun _ => rfl
  | withNumber r number =>
      obtain ⟨b, hb, hp⟩ := h r (by simp [members])
      simp only [make, parts?, Option.bind_eq_bind, Option.pure_def, hb, hp, Option.bind_some]
      rw [toOption_eq_some_iff, Address.withNumber_eq_ok, Option.some.injEq, eq_comm]
  | withUsername r username =>
      obtain ⟨b, hb, hp⟩ := h r (by simp [members])
      simp only [make, parts?, Option.bind_eq_bind, Option.pure_def, hb, hp, Option.bind_some]
      rw [toOption_eq_some_iff, Address.withUsername_eq_ok, Option.some.injEq, eq_comm]
  | updatedWith r r' =>
      obtain ⟨b, hb, hp⟩ := h r (by simp [members])
      obtain ⟨c, hc, hq⟩ := h r' (by simp [members])
      simp only [make, parts?, Option.bind_eq_bind, Option.pure_def, hb, hc, hp, hq,
        Option.bind_some]
      rw [← Address.parts_updatedWith, Option.some.injEq, Option.some.injEq, Address.parts_inj]
  | without r r' =>
      obtain ⟨b, hb, hp⟩ := h r (by simp [members])
      obtain ⟨c, hc, hq⟩ := h r' (by simp [members])
      simp only [make, parts?, Option.bind_eq_bind, Option.pure_def, hb, hc, hp, hq,
        Option.bind_some]
      rw [Address.without?_eq_some, Option.some.injEq, eq_comm]
  | read text =>
      rw [make, toOption_eq_some_iff, Address.decode_iff_parts, parts?, toOption_eq_some_iff]

/-- **An address that was made has the parts that come out without checks**, by induction over the
recipe: each step works on addresses that were made before. -/
theorem parts?_of_make {r : Recipe} {a : Address} (h : r.make = some a) :
    r.parts? = some a.parts := by
  induction r generalizing a with
  | create | ofAci | ofPni | fromNumber | fromUsername | read =>
      exact (make_iff_of_members (by simp [members])).mp h
  | withAci r aci ih | withPni r pni ih | withNumber r number ih | withUsername r username ih =>
      refine (make_iff_of_members fun m hm => ?_).mp h
      obtain ⟨b, hb⟩ := members_made h m hm
      obtain rfl := List.mem_singleton.mp hm
      exact ⟨b, hb, ih hb⟩
  | updatedWith r r' ih ih' | without r r' ih ih' =>
      refine (make_iff_of_members fun m hm => ?_).mp h
      obtain ⟨b, hb⟩ := members_made h m hm
      rcases List.mem_pair.mp hm with rfl | rfl
      · exact ⟨b, hb, ih hb⟩
      · exact ⟨b, hb, ih' hb⟩

end Recipe

/-! ## Validity -/

/-- **Every address is valid.** An address that is made in any number of steps, from UUIDs, texts
and JSON, has the parts that come out of those steps where nothing is checked, and these keep the
rules. And no step refuses more: where the addresses that the last step works on were made, an
address of certain parts is made just if these come out and keep the rules. -/
theorem every_address_is_valid (r : Recipe) :
    (∀ a, r.make = some a → r.parts? = some a.parts ∧ a.parts.Valid) ∧
      ((∀ m ∈ r.members, ∃ b, m.make = some b) →
        ∀ p, (∃ a, r.make = some a ∧ a.parts = p) ↔ r.parts? = some p ∧ p.Valid) := by
  refine ⟨fun a h => ⟨Recipe.parts?_of_make h, a.valid_parts⟩, fun h p => ?_⟩
  have hstep (a : Address) : r.make = some a ↔ r.parts? = some a.parts :=
    Recipe.make_iff_of_members fun m hm =>
      (h m hm).imp fun b hb => ⟨hb, Recipe.parts?_of_make hb⟩
  constructor
  · rintro ⟨a, ha, rfl⟩
    exact ⟨(hstep a).mp ha, a.valid_parts⟩
  · rintro ⟨hp, hvalid⟩
    obtain ⟨a, rfl⟩ := hvalid.exists_address
    exact ⟨a, (hstep a).mpr hp, rfl⟩

/-- A number that is read, joined with a username and taken away again. -/
def Recipe.numberWithdrawn : Recipe :=
  .without
    (.updatedWith (.read "\x7b\"number\":\"+15550001\",\"aci\":null\x7d") (.fromUsername "ada.01"))
    (.fromNumber "+15550001")

/-- The username is left, and where it is taken away as well, there is no address: a step that would
leave nothing is refused. -/
theorem username_outlives_number :
    (∃ a, Recipe.numberWithdrawn.make = some a ∧ a.parts = ⟨none, none, none, some "ada.01"⟩) ∧
      ∀ a, (Recipe.without .numberWithdrawn (.fromUsername "ada.01")).make ≠ some a := by
  have hsteps : ∀ m ∈ Recipe.numberWithdrawn.members, ∃ b, m.make = some b := by
    rintro m (_ | ⟨_, _ | ⟨_, ⟨⟩⟩⟩) <;> exact Option.isSome_iff_exists.mp (by decide +kernel)
  have hmade : ∃ a, Recipe.numberWithdrawn.make = some a ∧
      a.parts = ⟨none, none, none, some "ada.01"⟩ := by
    refine ((every_address_is_valid .numberWithdrawn).2 hsteps _).mpr ⟨by decide +kernel, ?_⟩
    exact ⟨nofun, nofun, nofun, nofun, fun s hs => Option.some.inj hs ▸ ⟨'a', by decide⟩⟩
  refine ⟨hmade, fun a ha => ?_⟩
  obtain ⟨hparts, hvalid⟩ := (every_address_is_valid _).1 a ha
  have hnone : (Recipe.without .numberWithdrawn (.fromUsername "ada.01")).parts? =
    some ⟨none, none, none, none⟩ := by decide +kernel
  exact hvalid.present (Option.some.inj (hparts.symm.trans hnone))

end PeerBook
