import PeerBook.Proofs.Storage.Submission
import PeerBook.Proofs.Stores.Codec
import PeerBook.Proofs.Stores.Keys

/-!
# PeerBook.Proofs.Stores.Records

What the stores write. A record has a key and a text for every peer, and a store
is well written where all it has are records of its peers (`Store.Written`).
Writes that put such records, or remove keys of the store, keep it well written
(`Store.Written.applyAll`), and from a well-written store everything is read
back.

A record does not say whom it is of: the same letter can be for one peer and,
after a merge, for another. `Written` is the invariant of a store in use; it has
the set of peers that may have records as a parameter, so that "nothing is left
of an absorbed peer" is the same invariant with fewer peers.
-/

namespace PeerBook

/-! ## Records -/

/-- A message that was sent, whoever it was sent to. -/
structure Letter where
  id : String
  device : UInt32
  timestamp : UInt64
  bytes : List UInt8
  urgent : Bool
  deriving DecidableEq

/-- The entry of the send log for a letter to a peer. -/
def Letter.message (l : Letter) (peer : PeerId) : SentMessage :=
  ⟨l.id, peer, l.device, l.timestamp, Text.Base64.encode l.bytes, l.urgent⟩

/-- An envelope that arrived, whoever it came from. -/
structure Envelope where
  id : String
  bytes : List UInt8
  receivedAt : UInt64
  deriving DecidableEq

/-- The entry of a cache for an envelope of a peer. -/
def Envelope.message (e : Envelope) (peer : PeerId) : CachedMessage :=
  ⟨e.id, peer, Text.Base64.encode e.bytes, e.receivedAt⟩

/-- The bytes of a letter are read back from its entry. -/
@[simp] theorem Letter.bytes_message (l : Letter) (peer : PeerId) :
    (l.message peer).bytes = .ok l.bytes := by
  simp [SentMessage.bytes, message]

/-- The bytes of an envelope are read back from its entry. -/
@[simp] theorem Envelope.bytes_message (e : Envelope) (peer : PeerId) :
    (e.message peer).bytes = .ok e.bytes := by
  simp [CachedMessage.bytes, message]

/-- A session as it is stored. -/
def Session.stored (s : Session) : StoredSession := ⟨Text.Base64.encode s.record, s.live⟩

/-- What is known of a peer: the profile key, and the profile. -/
structure Portrait where
  profileKey : Option (List UInt8)
  profile : Option Profile
  deriving DecidableEq

namespace Portrait

/-- The portrait as it is stored. -/
def entry (p : Portrait) : ProfileEntry := ⟨p.profileKey.map Text.Base64.encode, p.profile⟩

/-- The portrait with its gaps filled from another. -/
def or (p q : Portrait) : Portrait := ⟨p.profileKey.or q.profileKey, (p.entry.or q.entry).profile⟩

/-- Filling the gaps of a portrait fills those of its entry. -/
theorem entry_or (p q : Portrait) : (p.or q).entry = p.entry.or q.entry := by
  simp [or, entry, ProfileEntry.or, Option.map_or]

end Portrait

/-- A record of a store, whoever it is of. -/
inductive Record : Store → Type where
  | session (device : UInt32) (s : Session) : Record .sessions
  | identity (i : Identity) : Record .identities
  | profile (p : Portrait) : Record .profiles
  | sent (l : Letter) : Record .sendLog
  | cached {cache : MessageCache} (e : Envelope) : Record (.messages cache)
  | settings (p : Preferences) : Record .preferences
  | mark : Record .preferences

namespace Record

variable {st : Store}

/-- The key of a record of a peer. -/
def key : {st : Store} → Record st → PeerId → String
  | _, session device _, peer => Sessions.key peer device
  | _, identity _, peer => Identities.key peer
  | _, profile _, peer => Profiles.key peer
  | _, sent l, peer => SendLog.key peer l.id
  | .messages cache, cached e, peer => cache.key peer e.id
  | _, settings _, peer => Preferences.key peer
  | _, mark, peer => Preferences.syncKey peer

/-- The text of a record of a peer. -/
def text : {st : Store} → Record st → PeerId → String
  | _, session _ s, _ => s.stored.toJson.compact
  | _, identity i, _ => i.toJson.compact
  | _, profile p, _ => p.entry.toJson.compact
  | _, sent l, peer => (l.message peer).toJson.compact
  | _, cached e, peer => (e.message peer).toJson.compact
  | _, settings p, _ => p.toJson.compact
  | _, mark, _ => Preferences.mark

/-- A record of a peer lies under a key that the peer holds. -/
theorem holds (r : Record st) (peer : PeerId) : st.Holds peer (r.key peer) := by
  cases r with
  | session | sent | cached => exact Text.hasPrefix_append _ _
  | identity | profile => rfl
  | settings => exact .inl rfl
  | mark => exact .inr rfl

end Record

/-! ## Well-written stores -/

namespace Store

variable {st : Store} {live P : PeerId → Prop} {c : Contents} {ws : List Write} {peer : PeerId}
  {key value : String}

/-- All that a store has are records of peers of a kind. -/
def Written (st : Store) (live : PeerId → Prop) (c : Contents) : Prop :=
  ∀ key value, st.Keeps key → c.get? key = some value →
    ∃ peer, ∃ r : Record st, live peer ∧ key = r.key peer ∧ value = r.text peer

/-- A write puts a record of a peer of a kind, or removes a key of the store. -/
def Admits (st : Store) (P : PeerId → Prop) : Write → Prop
  | .put key value => ∃ peer, ∃ r : Record st, P peer ∧ key = r.key peer ∧ value = r.text peer
  | .del key => st.Keeps key

/-- Admitted writes are about keys of the store. -/
theorem Admits.keeps {w : Write} (h : st.Admits P w) : st.Keeps w.key := by
  cases w with
  | del key => exact h
  | put key value =>
      obtain ⟨peer, r, -, rfl, -⟩ := h
      exact (r.holds peer).keeps

theorem Admits.mono {Q : PeerId → Prop} {w : Write} (h : st.Admits P w)
    (hPQ : ∀ peer, P peer → Q peer) : st.Admits Q w := by
  cases w with
  | del key => exact h
  | put key value =>
      obtain ⟨peer, r, hp, hr⟩ := h
      exact ⟨peer, r, hPQ peer hp, hr⟩

/-- Where nothing is stored every store is well written. -/
theorem written_empty (st : Store) (live : PeerId → Prop) : st.Written live ∅ := by
  intro key value _ h
  simp at h

theorem Written.mono {live' : PeerId → Prop} (h : st.Written live c)
    (hl : ∀ key value peer, c.get? key = some value → st.Holds peer key → live peer → live' peer) :
    st.Written live' c := by
  intro key value hk hv
  obtain ⟨peer, r, hp, rfl, rfl⟩ := h key value hk hv
  exact ⟨peer, r, hl _ _ peer hv (r.holds peer) hp, rfl, rfl⟩

/-- **Admitted writes keep a store well written.** -/
theorem Written.applyAll (h : st.Written live c) (hw : ∀ w ∈ ws, st.Admits live w) :
    st.Written live (c.applyAll ws) := by
  intro key value hk hv
  obtain hkeep | ⟨w, hm, rfl, hval⟩ := Contents.get?_applyAll_or c ws key
  · exact h key value hk (hkeep ▸ hv)
  · rw [hv] at hval
    cases w with
    | del key => exact absurd hval nofun
    | put key value' =>
        obtain rfl := Option.some.inj hval
        exact hw _ hm

/-- Writes to keys that a store does not keep leave it as it is. -/
theorem Written.of_not_keeps (h : st.Written live c) (hw : ∀ w ∈ ws, ¬st.Keeps w.key) :
    st.Written live (c.applyAll ws) := by
  intro key value hk hv
  rw [Contents.get?_applyAll_of_ne c fun w hm he => hw w hm (he ▸ hk)] at hv
  exact h key value hk hv

/-- What a peer holds is a record of it. -/
theorem Written.of_holds (h : st.Written live c) (hk : st.Holds peer key)
    (hv : c.get? key = some value) :
    live peer ∧ ∃ r : Record st, key = r.key peer ∧ value = r.text peer := by
  obtain ⟨peer', r, hl, rfl, rfl⟩ := h key value hk.keeps hv
  obtain rfl := hk.unique (r.holds peer')
  exact ⟨hl, r, rfl, rfl⟩

/-! ## Reading back -/

/-- What lies under a key that a peer holds is read as its records are. -/
theorem Written.json? {α β : Type} {decoder : Json.Decoder α} {f : β → α} (h : st.Written live c)
    (hk : st.Holds peer key)
    (hd : ∀ r : Record st, key = r.key peer → ∃ b, Json.decode decoder (r.text peer) = .ok (f b)) :
    ∃ b? : Option β, c.json? decoder key = .ok (b?.map f) := by
  cases hv : c.get? key with
  | none => exact ⟨none, Contents.json?_of_none hv decoder⟩
  | some value =>
      obtain ⟨-, r, hr, rfl⟩ := h.of_holds hk hv
      obtain ⟨b, hb⟩ := hd r hr
      exact ⟨some b, Contents.json?_of_decode hv hb⟩

/-- The session of a device can be read, if there is one. -/
theorem Written.session (h : sessions.Written live c) (peer : PeerId) (device : UInt32) :
    ∃ s? : Option Session, c.json? StoredSession.ofJson (Sessions.key peer device) =
      .ok (s?.map Session.stored) := by
  refine h.json? (Text.hasPrefix_append _ _) fun r _ => ?_
  cases r with
  | session _ s => exact ⟨s, StoredSession.restores.decode_compact s.stored⟩

/-- The identity of a peer can be read, if there is one. -/
theorem Written.identity (h : identities.Written live c) (peer : PeerId) :
    ∃ i?, c.json? Identity.ofJson (Identities.key peer) = .ok i? := by
  obtain ⟨i?, hi⟩ := h.json? (f := id) rfl fun r _ => by
    cases r with
    | identity i => exact ⟨i, Identity.restores.decode_compact i⟩
  exact ⟨i?.map id, hi⟩

/-- The entry of a peer can be read, if there is one. -/
theorem Written.portrait (h : profiles.Written live c) (peer : PeerId) :
    ∃ p? : Option Portrait,
      c.json? ProfileEntry.ofJson (Profiles.key peer) = .ok (p?.map Portrait.entry) := by
  refine h.json? rfl fun r _ => ?_
  cases r with
  | profile p => exact ⟨p, ProfileEntry.restores.decode_compact p.entry⟩

/-- The settings of a peer can be read, if there are any. -/
theorem Written.settings (h : preferences.Written live c) (peer : PeerId) :
    ∃ p?, c.json? Preferences.ofJson (Preferences.key peer) = .ok p? := by
  obtain ⟨p?, hp⟩ := h.json? (f := id) (.inl rfl) fun r hr => by
    cases r with
    | settings p => exact ⟨p, Preferences.restores.decode_compact p⟩
    | mark => exact absurd hr (Preferences.key_ne_syncKey peer peer)
  exact ⟨p?.map id, hp⟩

/-- Under the keys of a peer there are letters to it. -/
theorem Written.sent (h : sendLog.Written live c) (hk : sendLog.Holds peer key)
    (hv : c.get? key = some value) :
    ∃ l : Letter, key = SendLog.key peer l.id ∧ value = (l.message peer).toJson.compact ∧
      Json.decode SentMessage.ofJson value = .ok (l.message peer) := by
  obtain ⟨-, r, rfl, rfl⟩ := h.of_holds hk hv
  cases r with
  | sent l => exact ⟨l, rfl, rfl, SentMessage.restores.decode_compact _⟩

/-- Under the keys of a peer there are envelopes of it. -/
theorem Written.cached {cache : MessageCache} (h : (messages cache).Written live c)
    (hk : (messages cache).Holds peer key) (hv : c.get? key = some value) :
    ∃ e : Envelope, key = cache.key peer e.id ∧ value = (e.message peer).toJson.compact ∧
      Json.decode CachedMessage.ofJson value = .ok (e.message peer) := by
  obtain ⟨-, r, rfl, rfl⟩ := h.of_holds hk hv
  cases r with
  | cached e => exact ⟨e, rfl, rfl, CachedMessage.restores.decode_compact _⟩

end Store

end PeerBook
