import PeerBook.Proofs.Stores.Records

/-!
# PeerBook.Proofs.Stores.Format

The stored format as a whole. Of every form that a value is stored in
(`Format`) what is written is read back (`Format.restores`), and where the value
stands for bytes so are these: a session, a letter, an envelope and a profile
key lose none of theirs, and an identity has its key inside. What identities are
shown as is read back too (`stored_format_loses_nothing`).

A `Format` names the type of its values with how they are written and read, so
one statement quantifies over all of them. Records that are nested in others
restore on their own; the sections before bring together what was proved of each.
-/

namespace PeerBook

/-! ## Forms of values -/

/-- The forms in which values are stored, each for a type of its own. -/
inductive Format where
  | address
  | peer
  | merge
  | aci
  | pni
  | identity
  | session
  | profile
  | preferences
  | sent
  | cached

namespace Format

/-- The values that have a form. -/
def Value : Format → Type
  | address => Address
  | peer => Peer
  | merge => Directory.Merge
  | aci => Aci
  | pni => Pni
  | identity => Identity
  | session => StoredSession
  | profile => ProfileEntry
  | preferences => Preferences
  | sent => SentMessage
  | cached => CachedMessage

/-- How a value is written. -/
def write : (f : Format) → f.Value → Json
  | address => Address.toJson
  | peer => Peer.toJson
  | merge => Directory.Merge.toJson
  | aci => Aci.toJson
  | pni => Pni.toJson
  | identity => Identity.toJson
  | session => StoredSession.toJson
  | profile => ProfileEntry.toJson
  | preferences => Preferences.toJson
  | sent => SentMessage.toJson
  | cached => CachedMessage.toJson

/-- How a value is read. -/
def read : (f : Format) → Json.Decoder f.Value
  | address => Address.ofJson
  | peer => Peer.ofJson
  | merge => Directory.Merge.ofJson
  | aci => Aci.ofJson
  | pni => Pni.ofJson
  | identity => Identity.ofJson
  | session => StoredSession.ofJson
  | profile => ProfileEntry.ofJson
  | preferences => Preferences.ofJson
  | sent => SentMessage.ofJson
  | cached => CachedMessage.ofJson

end Format

/-! ## Reading back -/

open Json

theorem Aci.restores : Restores ofJson toJson := ⟨ofJson_toJson, fun _ => rfl⟩

theorem Pni.restores : Restores ofJson toJson := ⟨ofJson_toJson, fun _ => rfl⟩

theorem Address.restores : Restores ofJson toJson := ⟨ofJson_toJson, isPlain_toJson⟩

theorem Peer.restores : Restores ofJson toJson := ⟨ofJson_toJson, isPlain_toJson⟩

theorem Directory.Merge.restores : Restores ofJson toJson := ⟨ofJson_toJson, isPlain_toJson⟩

/-- Every form restores the values written in it, by what was proved of each; a new form would have
to be added here. -/
theorem Format.restores (f : Format) : Restores f.read f.write := by
  cases f with
  | address => exact Address.restores
  | peer => exact Peer.restores
  | merge => exact Directory.Merge.restores
  | aci => exact Aci.restores
  | pni => exact Pni.restores
  | identity => exact Identity.restores
  | session => exact StoredSession.restores
  | profile => exact ProfileEntry.restores
  | preferences => exact Preferences.restores
  | sent => exact SentMessage.restores
  | cached => exact CachedMessage.restores

/-! ## Bytes -/

/-- The bytes of a session are read back from its record. -/
theorem Session.bytes_stored (s : Session) : Text.Base64.decode? s.stored.record = some s.record :=
  Text.Base64.decode?_encode s.record

/-- The bytes of a profile key are read back from the entry of its peer. -/
theorem Portrait.bytes_entry (p : Portrait) :
    p.entry.profileKey.map Text.Base64.decode? = p.profileKey.map some := by
  rw [entry, Option.map_map]
  exact congrArg (p.profileKey.map ·) (funext Text.Base64.decode?_encode)

/-- **The stored format loses nothing.** A value of any form is what its compact text is read as;
the bytes behind a session, a profile key, a letter and an envelope are what the record that is read
stands for; and an account identity and a phone-number identity are what they are shown as, the
latter also without its mark. -/
theorem stored_format_loses_nothing :
    (∀ (f : Format) (v : f.Value), Json.decode f.read (f.write v).compact = .ok v) ∧
    (∀ s : Session, (Json.decode StoredSession.ofJson s.stored.toJson.compact).map
      (Text.Base64.decode? ·.record) = .ok (some s.record)) ∧
    (∀ p : Portrait, (Json.decode ProfileEntry.ofJson p.entry.toJson.compact).map
      (·.profileKey.map Text.Base64.decode?) = .ok (p.profileKey.map some)) ∧
    (∀ (l : Letter) (peer : PeerId), (Json.decode SentMessage.ofJson
      (l.message peer).toJson.compact).map SentMessage.bytes = .ok (.ok l.bytes)) ∧
    (∀ (e : Envelope) (peer : PeerId), (Json.decode CachedMessage.ofJson
      (e.message peer).toJson.compact).map CachedMessage.bytes = .ok (.ok e.bytes)) ∧
    (∀ a : Aci, Aci.parse (toString a) = .ok a) ∧
    (∀ p : Pni, Pni.parse (toString p) = .ok p ∧ Pni.parse (toString p.uuid) = .ok p) := by
  refine ⟨fun f => f.restores.decode_compact, fun s => ?_, fun p => ?_, fun l peer => ?_,
    fun e peer => ?_, Aci.parse_toString, fun p => ⟨Pni.parse_toString p, Pni.parse_uuid p⟩⟩
  · rw [StoredSession.restores.decode_compact]
    exact congrArg Except.ok s.bytes_stored
  · rw [ProfileEntry.restores.decode_compact]
    exact congrArg Except.ok p.bytes_entry
  · rw [SentMessage.restores.decode_compact]
    exact congrArg Except.ok (l.bytes_message peer)
  · rw [CachedMessage.restores.decode_compact]
    exact congrArg Except.ok (e.bytes_message peer)

end PeerBook
