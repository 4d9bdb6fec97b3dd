import PeerBook.Directory.Basic
import PeerBook.Proofs.Json.Records

/-!
# PeerBook.Proofs.Directory.Codec

What a directory stores is read back as it was: identities and addresses
(`Address.ofJson_toJson`), rows (`Peer.decode_compact`), redirects
(`Directory.Merge.decode_compact`) and handles.

Rows and redirects are records, so the general lemmas about records do the work and
it remains to say what single fields are read as (`getD_optional`,
`takes_optional`). The last handle and the account's own are stored as numerals and
read without the blanks around them, of which a numeral has none
(`readUInt64_trimBlank`).
-/

namespace PeerBook

open Json

/-! ## Identifiers -/

/-- A UUID is read back from its text. -/
theorem Uuid.ofJson_text (u : Uuid) : Uuid.ofJson (.text u.toString) = .ok u := by
  simp [Uuid.ofJson, asText, Json.text, bind, Except.bind]

/-- An account identity is read back. -/
theorem Aci.ofJson_toJson (a : Aci) : Aci.ofJson a.toJson = .ok a := by
  rw [Aci.ofJson, Aci.toJson, Uuid.ofJson_text]
  simp [checked, bind, Except.bind]

/-- A phone-number identity is read back from the UUID, which is how it is stored. -/
theorem Pni.ofJson_toJson (p : Pni) : Pni.ofJson p.toJson = .ok p := by
  rw [Pni.ofJson, Pni.toJson, Uuid.ofJson_text]
  simp [checked, bind, Except.bind]

/-- A handle is read back, as its number is below the bound of the reader. -/
theorem PeerId.ofJson_toJson (id : PeerId) : PeerId.ofJson id.toJson = .ok id := by
  have hlt : id.value.toNat < UInt64.size := id.value.toNat_lt
  rw [PeerId.ofJson, PeerId.toJson, asUInt64, Json.nat, asNatBelow, if_pos hlt]
  simp [Except.map]

/-! ## Addresses -/

/-- What is no `null` is read as something. -/
theorem asOptional_of_ok {α : Type} {decode : Decoder α} {j : Json} {a : α} (hj : j ≠ .null)
    (h : decode j = .ok a) : asOptional decode j = .ok (some a) := by
  unfold asOptional
  split
  · contradiction
  · rw [h]
    rfl

namespace Address

/-- The members of a written address. -/
def members (a : Address) : List (String × Option Json) :=
  [("aci", a.aci.map Aci.toJson), ("pni", a.pni.map Pni.toJson),
    ("number", a.number.map fun n => .text n.text),
    ("username", a.username.map fun u => .text u.text)]

/-- The members of a written address have different names. -/
theorem names_members (a : Address) : (a.members.map Prod.fst).Nodup := by
  simp [members]

/-- A field that may be absent is read as what was written under its name, or as absent where
nothing was. -/
theorem getD_optional {α β : Type} {decode : Decoder α} {write : β → Json} {view : β → α}
    {name : String} {o : Option β} {fs : Fields} (hl : fs.lookup name = o.map write)
    (hw : ∀ b, decode (write b) = .ok (view b)) (hnull : ∀ b, write b ≠ .null) :
    fs.getD name (asOptional decode) none = .ok (o.map view) := by
  rw [Fields.getD, hl]
  cases o with
  | none => rfl
  | some b => exact asOptional_of_ok (hnull b) (hw b)

/-- A field that may be absent takes what is written under its name. -/
theorem takes_optional {α β : Type} {fields : List Field} {name : String} {decode : Decoder α}
    {write : β → Json} {view : β → α} {o : Option β}
    (hf : fields.find? (·.name == name) = some (fieldOr name (asOptional decode)))
    (hw : ∀ b, decode (write b) = .ok (view b)) (hnull : ∀ b, write b ≠ .null) :
    Takes fields (name, o.map write) := by
  intro j hj
  obtain ⟨b, -, rfl⟩ := Option.map_eq_some_iff.mp hj
  refine ⟨_, hf, ?_⟩
  rw [fieldOr]
  dsimp only
  rw [asOptional_of_ok (hnull b) (hw b)]
  rfl

/-- The fields of an address take its members. -/
theorem takes_members (a : Address) : ∀ m ∈ a.members, Takes jsonFields m := by
  simp only [members, List.forall_mem_cons]
  exact ⟨takes_optional rfl Aci.ofJson_toJson nofun, takes_optional rfl Pni.ofJson_toJson nofun,
    takes_optional rfl (fun _ => rfl) nofun, takes_optional rfl (fun _ => rfl) nofun, nofun⟩

/-- The texts of an address are accepted again, since they came from values that keep the rules. So
the rules, which are applied again on reading, refuse nothing that was written. -/
theorem create_texts (a : Address) :
    create a.aci a.pni (a.number.map (·.text)) (a.username.map (·.text)) = .ok a := by
  have hn : (a.number.map (·.text)).mapM PhoneNumber.ofText = .ok a.number := by
    cases a.number with
    | none => rfl
    | some n =>
        rw [Option.map_some, Option.mapM_some, PhoneNumber.ofText_text]
        rfl
  have hu : (a.username.map (·.text)).mapM Username.ofText = .ok a.username := by
    cases a.username with
    | none => rfl
    | some u =>
        rw [Option.map_some, Option.mapM_some, Username.ofText_text]
        rfl
  have he : ¬(a.aci.isNone && a.pni.isNone && (a.number.map (·.text)).isNone &&
      (a.username.map (·.text)).isNone) = true := by
    rw [Option.isNone_map, Option.isNone_map, ← Identifiers.isEmpty, a.not_empty]
    exact Bool.false_ne_true
  have ho : ofIdentifiers? ⟨a.aci, a.pni, a.number, a.username⟩ = some a := by
    rw [ofIdentifiers?, dif_pos a.not_empty]
  rw [create, if_neg he, hn, hu]
  simp [bind, Except.bind, ho]

/-- **A written address is read back.** Absent identifiers are left out of the record, and a record
without a field is read as an address without that identifier. -/
theorem ofJson_toJson (a : Address) : ofJson a.toJson = .ok a := by
  have hf : asFields jsonFields a.toJson = .ok (present a.members) :=
    asFields_record a.names_members a.takes_members
  have hl (name : String) := lookup_present a.names_members name
  have h₁ : (present a.members).getD "aci" (asOptional Aci.ofJson) none = .ok (a.aci.map id) :=
    getD_optional (hl "aci") Aci.ofJson_toJson nofun
  have h₂ : (present a.members).getD "pni" (asOptional Pni.ofJson) none = .ok (a.pni.map id) :=
    getD_optional (hl "pni") Pni.ofJson_toJson nofun
  have h₃ : (present a.members).getD "number" (asOptional asText) none =
      .ok (a.number.map (·.text)) := getD_optional (hl "number") (fun _ => rfl) nofun
  have h₄ : (present a.members).getD "username" (asOptional asText) none =
      .ok (a.username.map (·.text)) := getD_optional (hl "username") (fun _ => rfl) nofun
  rw [ofJson, hf]
  simp only [bind, Except.bind, h₁, h₂, h₃, h₄, Option.map_id, id_eq, create_texts, mapError_ok]

theorem isPlain_toJson (a : Address) : a.toJson.isPlain = true := by
  show (record a.members).isPlain = true
  apply isPlain_record
  simp only [members, List.forall_mem_cons, Option.map_eq_some_iff]
  grind [Aci.toJson, Pni.toJson, Json.text, isPlain]

end Address

/-! ## Rows and redirects -/

/-- A value that can be decoded passes the check of its field. -/
theorem accepts_of_ok {α : Type} {decode : Decoder α} {j : Json} {a : α} (h : decode j = .ok a)
    (name : String) : (field name decode).accepts j = .ok () := by
  show (decode j).map _ = _
  rw [h]
  rfl

/-- A record of two members that have to be there, as rows and redirects are: both fields are found,
and each is read as what was written. -/
theorem asFields_pair {α β : Type} {m n : String} {decode : Decoder α} {decode' : Decoder β}
    {x y : Json} {a : α} {b : β} (hmn : n ≠ m) (hx : decode x = .ok a) (hy : decode' y = .ok b) :
    ∃ fs, asFields [field m decode, field n decode'] (.record [(m, some x), (n, some y)]) = .ok fs ∧
      fs.required m decode = .ok a ∧ fs.required n decode' = .ok b := by
  have hb : (n == m) = false := beq_false_of_ne hmn
  have hb' : (m == n) = false := beq_false_of_ne (Ne.symm hmn)
  have hn : ([(m, some x), (n, some y)].map Prod.fst).Nodup := by
    simp [Ne.symm hmn]
  have ht : ∀ p ∈ [(m, some x), (n, some y)], Takes [field m decode, field n decode'] p := by
    simp only [List.forall_mem_cons]
    refine ⟨fun j hj => ?_, fun j hj => ?_, nofun⟩
    · cases hj
      exact ⟨field m decode, by simp [field], accepts_of_ok hx m⟩
    · cases hj
      exact ⟨field n decode', by simp [field, hb'], accepts_of_ok hy n⟩
  refine ⟨_, asFields_record hn ht, ?_, ?_⟩
  · rw [Fields.required, lookup_present hn]
    simpa using hx
  · rw [Fields.required, lookup_present hn]
    simpa [List.lookup_cons, hb] using hy

/-- A row is read back from its record. -/
theorem Peer.ofJson_toJson (p : Peer) : Peer.ofJson p.toJson = .ok p := by
  obtain ⟨fs, hf, hid, ha⟩ := asFields_pair (m := "id") (n := "address") (by decide)
    (PeerId.ofJson_toJson p.id) (Address.ofJson_toJson p.address)
  rw [Peer.ofJson, jsonFields, Peer.toJson, hf]
  simp only [bind, Except.bind, hid, ha]
  rfl

theorem Peer.isPlain_toJson (p : Peer) : p.toJson.isPlain = true := by
  apply isPlain_record
  simp [PeerId.toJson, Json.nat, isPlain, Address.isPlain_toJson]

/-- **A written row is read back.** -/
theorem Peer.decode_compact (p : Peer) : Json.decode Peer.ofJson p.toJson.compact = .ok p := by
  rw [Json.decode_compact _ p.isPlain_toJson, Peer.ofJson_toJson]

namespace Directory

/-- A redirect is read back from its record. -/
theorem Merge.ofJson_toJson (m : Merge) : Merge.ofJson m.toJson = .ok m := by
  obtain ⟨fs, hf, ha, hs⟩ := asFields_pair (m := "absorbed") (n := "surviving") (by decide)
    (PeerId.ofJson_toJson m.absorbed) (PeerId.ofJson_toJson m.surviving)
  rw [Merge.ofJson, Merge.toJson, hf]
  simp only [bind, Except.bind, ha, hs]
  rfl

theorem Merge.isPlain_toJson (m : Merge) : m.toJson.isPlain = true := by
  apply isPlain_record
  simp [PeerId.toJson, Json.nat, isPlain]

/-- **A written redirect is read back.** -/
theorem Merge.decode_compact (m : Merge) : Json.decode Merge.ofJson m.toJson.compact = .ok m := by
  rw [Json.decode_compact _ m.isPlain_toJson, Merge.ofJson_toJson]

end Directory

/-! ## Handles as texts -/

namespace Text

/-- A text without blanks at its ends is trimmed to itself; here it is a numeral, which has no blank
anywhere. -/
theorem trimBlank_of_forall {s : String} (h : ∀ c ∈ s.toList, isBlank c = false) :
    trimBlank s = s := by
  have hd : s.toList.dropWhile isBlank = s.toList := by
    cases hs : s.toList with
    | nil => rfl
    | cons c cs =>
        have hc := h c (by simp [hs])
        rw [List.dropWhile_cons, hc]
        rfl
  have hr : s.toList.reverse.dropWhile isBlank = s.toList.reverse := by
    cases hs : s.toList.reverse with
    | nil => rfl
    | cons c cs =>
        have hc := h c (by rw [← List.mem_reverse, hs]; exact List.mem_cons_self)
        rw [List.dropWhile_cons, hc]
        rfl
  rw [trimBlank, hd, hr, List.reverse_reverse, String.ofList_toList]

/-- No digit is blank. -/
theorem isBlank_of_isDigit {c : Char} (h : c.isDigit = true) : isBlank c = false := by
  simp only [Char.isDigit, Bool.and_eq_true, decide_eq_true_eq, ge_iff_le] at h
  have h₁ : 48 ≤ c.toNat := h.1
  have h₂ : c.toNat ≤ 57 := h.2
  simp [isBlank]
  omega

/-- A numeral has no blanks around it to be taken off. -/
theorem trimBlank_toString (n : UInt64) : trimBlank (toString n) = toString n := by
  apply trimBlank_of_forall
  intro c hc
  have hd : c ∈ Nat.toDigits 10 n.toNat := by
    rw [← Nat.toList_repr]
    exact hc
  exact isBlank_of_isDigit (Nat.isDigit_of_mem_toDigits (by decide) (by decide) hd)

/-- A handle that was written is read back. -/
theorem readUInt64_trimBlank (i : PeerId) : readUInt64 (trimBlank (toString i)) = .ok i.value := by
  have ht : trimBlank (toString i) = toString i.value := trimBlank_toString i.value
  rw [ht, readUInt64_toString]

end Text

end PeerBook
