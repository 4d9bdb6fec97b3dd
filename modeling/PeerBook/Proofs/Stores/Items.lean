import PeerBook.Proofs.Stores.Moves

/-!
# PeerBook.Proofs.Stores.Items

The things that the stores have of a peer: the session of a device, an identity,
the parts of a portrait, letters, envelopes, settings. When the peer is absorbed
an item gives way to what the survivor has in its place (`Item.Superseded`), or
it is removed under the old key and put under the new one (`Item.moved`).

An item is smaller than a record: a portrait and the settings of a peer are each
one record with several items, and a merge may take along some of them and leave
others. Of every kind it is shown that the batch takes the item along
(`Item.Moved`): what is put under the new key has it, and the old key goes. What
holds when the batch is cut short is then said of all kinds at once.
-/

namespace PeerBook

/-! ## Parts of records -/

/-- The parts of a portrait. -/
inductive Portrait.Part where
  | profileKey
  | givenName
  | familyName
  | about
  | capabilities
  | lastUpdate

/-- What is known where a part is known. -/
abbrev Portrait.Part.Value : Part → Type
  | profileKey => List UInt8
  | capabilities => Table String Unit
  | lastUpdate => UInt64
  | givenName | familyName | about => String

namespace Portrait

/-- A part of a portrait, if it is known; no capabilities are a gap. -/
def get? (p : Portrait) : (part : Part) → Option part.Value
  | .profileKey => p.profileKey
  | .givenName => p.profile.bind (·.givenName)
  | .familyName => p.profile.bind (·.familyName)
  | .about => p.profile.bind (·.about)
  | .capabilities =>
    p.profile.bind fun q => if q.capabilities.entries.isEmpty then none else some q.capabilities
  | .lastUpdate => p.profile.bind (·.lastUpdate)

/-- Gaps are filled part by part. -/
theorem get?_or (p q : Portrait) (part : Part) :
    (p.or q).get? part = (p.get? part).or (q.get? part) := by
  obtain ⟨_, _ | p⟩ := p <;> obtain ⟨_, _ | q⟩ := q <;> cases part <;>
    simp [get?, or, entry, ProfileEntry.or, Profile.or]
  by_cases hp : p.capabilities.entries = [] <;> simp [hp]

end Portrait

namespace Preferences

/-- The single settings. -/
inductive Setting where
  | mutedUntil
  | expirationTimerSecs
  | blocked
  | archived

/-- What a setting is set to. -/
abbrev Setting.Value : Setting → Type
  | mutedUntil => UInt64
  | expirationTimerSecs => UInt32
  | blocked | archived => Bool

/-- A setting, if it is not the default. -/
def get? (p : Preferences) : (setting : Setting) → Option setting.Value
  | .mutedUntil => p.mutedUntil
  | .expirationTimerSecs => p.expirationTimerSecs
  | .blocked => p.blocked
  | .archived => p.archived

/-- Gaps are filled setting by setting. -/
theorem get?_or (p q : Preferences) (setting : Setting) :
    (p.or q).get? setting = (p.get? setting).or (q.get? setting) := by
  cases setting <;> rfl

end Preferences

/-! ## Items -/

/-- Something that a store has of a peer. -/
inductive Item : Store → Type where
  | session (device : UInt32) (s : Session) : Item .sessions
  | identity (i : Identity) : Item .identities
  | part (part : Portrait.Part) (value : part.Value) : Item .profiles
  | letter (l : Letter) : Item .sendLog
  | envelope {cache : MessageCache} (e : Envelope) : Item (.messages cache)
  | setting (setting : Preferences.Setting) (value : setting.Value) : Item .preferences
  | mark : Item .preferences

namespace Item

variable {st : Store}

/-- The key of the record that an item of a peer is in. -/
def key : {st : Store} → Item st → PeerId → String
  | _, session device _, peer => Sessions.key peer device
  | _, identity _, peer => Identities.key peer
  | _, part _ _, peer => Profiles.key peer
  | _, letter l, peer => SendLog.key peer l.id
  | .messages cache, envelope e, peer => cache.key peer e.id
  | _, setting _ _, peer => Preferences.key peer
  | _, mark, peer => Preferences.syncKey peer

/-- An item of a peer can be read from a content. -/
def Stored (c : Contents) (peer : PeerId) : {st : Store} → Item st → Prop
  | _, session device s =>
    c.json? StoredSession.ofJson (Sessions.key peer device) = .ok (some s.stored)
  | _, identity i => c.json? Identity.ofJson (Identities.key peer) = .ok (some i)
  | _, part f value => ∃ p : Portrait,
    c.json? ProfileEntry.ofJson (Profiles.key peer) = .ok (some p.entry) ∧ p.get? f = some value
  | _, letter l => c.json? SentMessage.ofJson (SendLog.key peer l.id) = .ok (some (l.message peer))
  | .messages cache, envelope e =>
    c.json? CachedMessage.ofJson (cache.key peer e.id) = .ok (some (e.message peer))
  | _, setting f value => ∃ p : Preferences,
    c.json? Preferences.ofJson (Preferences.key peer) = .ok (some p) ∧ p.get? f = some value
  | _, mark => c.get? (Preferences.syncKey peer) ≠ none

/-- What a survivor has in the place of an item: a live session of the device, an identity, the same
part of the portrait, the same setting. Messages have no place. -/
def Superseded (c : Contents) (surviving : PeerId) : {st : Store} → Item st → Prop
  | _, session device _ => ∃ s : Session, s.live = true ∧ (session device s).Stored c surviving
  | _, identity _ => ∃ i, (identity i).Stored c surviving
  | _, part f _ => ∃ value, (part f value).Stored c surviving
  | _, setting f _ => ∃ value, (setting f value).Stored c surviving
  | _, letter _ | _, envelope _ | _, mark => False

variable {c c' : Contents} {surviving absorbed peer : PeerId} {item : Item st} {keys : List String}
  {ws : List Write}

/-- An item of a peer is under a key that the peer holds. -/
theorem holds_key (item : Item st) (peer : PeerId) : st.Holds peer (item.key peer) := by
  cases item with
  | session | letter | envelope => exact Text.hasPrefix_append _ _
  | identity | part => rfl
  | setting => exact .inl rfl
  | mark => exact .inr rfl

/-- Only the value under its key matters for an item. -/
theorem stored_congr (h : c'.get? (item.key peer) = c.get? (item.key peer)) :
    item.Stored c' peer ↔ item.Stored c peer := by
  cases item <;> simp only [key] at h <;> simp only [Stored, Contents.json?_congr h, h]

/-- Where an item can be read there is something under its key. -/
theorem Stored.exists_get? (h : item.Stored c peer) : ∃ raw, c.get? (item.key peer) = some raw := by
  cases item with
  | session _ _ | identity _ | letter _ | envelope _ =>
      obtain ⟨raw, hraw, -⟩ := Contents.json?_eq_ok.mp h
      exact ⟨raw, hraw⟩
  | part _ _ | setting _ _ =>
      obtain ⟨p, hp, -⟩ := h
      obtain ⟨raw, hraw, -⟩ := Contents.json?_eq_ok.mp hp
      exact ⟨raw, hraw⟩
  | mark => exact Option.ne_none_iff_exists'.mp h

/-! ## Items on the move -/

/-- A batch takes an item along: its key is removed, and what is put under the new key has the
item. -/
structure Moved (item : Item st) (surviving absorbed : PeerId) (ws : List Write) : Prop where
  removed : .del (item.key absorbed) ∈ ws
  put : ∃ value, .put (item.key surviving) value ∈ ws
  carried : ∀ value, .put (item.key surviving) value ∈ ws → ∀ c' : Contents,
    c'.get? (item.key surviving) = some value → item.Stored c' surviving

/-- Where messages move one by one, the message that is the item takes it along, if no other one
comes under its new key. -/
theorem Moved.of_found {μ : Type} {found : List μ} {old new text : μ → String} {m : μ}
    (hws : ∀ w, w ∈ ws ↔ ∃ m ∈ found, w = .del (old m) ∨ w = .put (new m) (text m))
    (hm : m ∈ found) (hold : old m = item.key absorbed) (hnew : new m = item.key surviving)
    (hsame : ∀ m' ∈ found, new m' = item.key surviving → m' = m)
    (hstored : ∀ c' : Contents, c'.get? (item.key surviving) = some (text m) →
      item.Stored c' surviving) : item.Moved surviving absorbed ws where
  removed := (hws _).mpr ⟨m, hm, .inl (by rw [hold])⟩
  put := ⟨text m, (hws _).mpr ⟨m, hm, .inr (by rw [hnew])⟩⟩
  carried value hput c' hv := by
    obtain ⟨m', hm', he⟩ := (hws _).mp hput
    obtain ⟨hkey, rfl⟩ := Write.put.inj (he.resolve_left nofun)
    obtain rfl := hsame m' hm' hkey.symm
    exact hstored c' hv

end Item

/-! ### The device of a key -/

/-- What follows the last slash of a key is what was put behind it, if there is no slash in that. -/
theorem Text.afterLast_append {ch : Char} {p s : String} (hp : [ch] <:+ p.toList)
    (hs : ch ∉ s.toList) : afterLast ch (p ++ s) = s := by
  obtain ⟨q, hq⟩ := hp
  have hkeep : ∀ x ∈ s.toList.reverse, (x != ch) = true := by
    intro x hx
    simpa using fun he : x = ch => hs (he ▸ List.mem_reverse.mp hx)
  rw [afterLast, String.toList_append, ← hq, List.reverse_append,
    List.takeWhile_append_of_pos hkeep]
  simp

namespace Sessions

/-- The device of a session is found again in its key. -/
@[simp] theorem deviceOf?_key (peer : PeerId) (device : UInt32) :
    deviceOf? (key peer device) = some device := by
  have hend : ['/'] <:+ (peerPrefix peer).toList := by
    rw [peerPrefix, String.toList_append]
    exact List.suffix_append _ _
  have hdigits : '/' ∉ (toString device).toList := Text.slash_notMem device.toNat
  rw [deviceOf?, key, Text.afterLast_append hend hdigits]
  exact congrArg Except.toOption (Text.readUInt32_toString device)

/-- The sessions of different devices have different keys. -/
theorem key_inj {peer : PeerId} {a b : UInt32} (h : key peer a = key peer b) : a = b := by
  simpa using congrArg deviceOf? h

/-- The survivor takes over a session unless it has a live one of the device. -/
theorem move_key {c : Contents} {surviving absorbed : PeerId} {device : UInt32} {raw : String}
    {s? : Option Session} (hraw : c.get? (key absorbed device) = some raw)
    (hs : c.json? StoredSession.ofJson (key surviving device) = .ok (s?.map Session.stored)) :
    move c surviving (key absorbed device) = .ok (.del (key absorbed device) ::
      if s?.any (·.live) then [] else [.put (key surviving device) raw]) := by
  unfold move
  rw [deviceOf?_key]
  simp only [hraw, hs, bind, Except.bind, pure, Except.pure]
  cases s? <;> rfl

end Sessions

namespace Item

variable {st : Store} {c : Contents} {surviving absorbed : PeerId} {keys : List String}
  {ws : List Write} {live : PeerId → Prop}

/-- A session is taken along unless the survivor has a live one of the device. The key of the
absorbed peer with this device is the only one whose removal and write are about it. -/
theorem moved_session {device : UInt32} {s : Session} (h : Store.sessions.Written live c)
    (hk : Store.sessions.Held c absorbed keys) (hb : Sessions.batch c surviving keys = .ok ws)
    (hi : (session device s).Stored c absorbed) (hn : ¬(session device s).Superseded c surviving) :
    (session device s).Moved surviving absorbed ws := by
  obtain ⟨raw, hraw, hd⟩ := Contents.json?_eq_ok.mp hi
  obtain ⟨s?, hs⟩ := h.session surviving device
  have hlive : ¬s?.any (·.live) = true := by
    cases s? with
    | none => simp
    | some t => exact fun ht => hn ⟨t, ht, hs⟩
  have hmove := Sessions.move_key hraw hs
  rw [if_neg hlive] at hmove
  have hkey : Sessions.key absorbed device ∈ keys :=
    (hk _).mpr ⟨⟨raw, hraw⟩, Text.hasPrefix_append _ _⟩
  have hmem {w : Write} (hw : w ∈ [.del (Sessions.key absorbed device),
      .put (Sessions.key surviving device) raw]) : w ∈ ws :=
    (Sessions.mem_batch_iff hb).mpr ⟨_, hkey, _, hmove, hw⟩
  refine ⟨hmem List.mem_cons_self, ⟨raw, hmem (List.mem_cons_of_mem _ List.mem_cons_self)⟩, ?_⟩
  intro value hput c' hv
  obtain ⟨k, hks, ws', hm, hw⟩ := (Sessions.mem_batch_iff hb).mp hput
  obtain ⟨rest, rfl, hrest⟩ := Sessions.move_eq_ok hm
  obtain ⟨device', raw', hdev, hraw', he⟩ := hrest _ ((List.mem_cons.mp hw).resolve_left nofun)
  obtain ⟨hkey', rfl⟩ := Write.put.inj he
  -- the key of the absorbed peer with this device is that of the session
  obtain ⟨-, r, rfl, -⟩ := h.of_holds ((hk k).mp hks).2 hraw'
  cases r with
  | session device'' _ =>
      obtain rfl := Option.some.inj ((Sessions.deviceOf?_key absorbed device'').symm.trans hdev)
      obtain rfl := Sessions.key_inj hkey'
      obtain rfl := Option.some.inj (hraw.symm.trans hraw')
      exact Contents.json?_of_decode hv hd

/-- An identity is taken along unless the survivor has one; its text is put as it was. -/
theorem moved_identity {i : Identity} (h : Store.identities.Written live c)
    (hi : (identity i).Stored c absorbed) (hn : ¬(identity i).Superseded c surviving) :
    (identity i).Moved surviving absorbed (Identities.batch c surviving absorbed) := by
  obtain ⟨raw, hraw, hd⟩ := Contents.json?_eq_ok.mp hi
  have hnone : c.get? (Identities.key surviving) = none := by
    obtain ⟨i?, hj⟩ := h.identity surviving
    cases i? with
    | none => exact Contents.get?_of_json?_none hj
    | some i' => exact absurd ⟨i', hj⟩ hn
  have hb : Identities.batch c surviving absorbed =
      [.del (Identities.key absorbed), .put (Identities.key surviving) raw] := by
    simp [Identities.batch, hraw, hnone]
  rw [hb]
  refine ⟨by simp [key], ⟨raw, by simp [key]⟩, fun value hput c' hv => ?_⟩
  obtain rfl : value = raw := by simpa [key] using hput
  exact Contents.json?_of_decode hv hd

/-- A part of a portrait is taken along unless the survivor's is known: in the filled portrait the
part is that of the absorbed peer. -/
theorem moved_part {f : Portrait.Part} {value : f.Value} (h : Store.profiles.Written live c)
    (hb : Profiles.batch c surviving absorbed = .ok ws) (hi : (part f value).Stored c absorbed)
    (hn : ¬(part f value).Superseded c surviving) : (part f value).Moved surviving absorbed ws := by
  obtain ⟨p, hp, hf⟩ := hi
  obtain ⟨q?, hq⟩ := h.portrait surviving
  obtain ⟨hnone, -⟩ | ⟨theirs, mine, ht, hm, rfl⟩ := Profiles.batch_eq_ok hb
  · exact nomatch hp.symm.trans hnone
  obtain rfl : p.entry = theirs := by simpa [hp] using ht
  obtain rfl : q?.map Portrait.entry = mine := by simpa [hq] using hm
  have hmerged : ((q?.map Portrait.entry).map (·.or p.entry)).getD p.entry =
      ((q?.map (·.or p)).getD p).entry := by
    cases q? <;> simp [Portrait.entry_or]
  rw [hmerged]
  refine ⟨by simp [key], ⟨_, List.mem_cons_self⟩, fun raw hput c' hv => ?_⟩
  obtain rfl : raw = ((q?.map (·.or p)).getD p).entry.toJson.compact := by simpa [key] using hput
  refine ⟨_, Contents.json?_of_decode hv (ProfileEntry.restores.decode_compact _), ?_⟩
  cases q? with
  | none => exact hf
  | some q =>
      have hgap : q.get? f = none :=
        Option.eq_none_iff_forall_not_mem.mpr fun value' hv' => hn ⟨value', q, hq, hv'⟩
      rw [Option.map_some, Option.getD_some, Portrait.get?_or, hgap, Option.none_or, hf]

/-- A setting is taken along unless the survivor's is set: in the filled settings it is that of the
absorbed peer. -/
theorem moved_setting {f : Preferences.Setting} {value : f.Value}
    (h : Store.preferences.Written live c) (hb : Preferences.batch c surviving absorbed = .ok ws)
    (hi : (setting f value).Stored c absorbed) (hn : ¬(setting f value).Superseded c surviving) :
    (setting f value).Moved surviving absorbed ws := by
  obtain ⟨p, hp, hf⟩ := hi
  obtain ⟨q?, hq⟩ := h.settings surviving
  obtain ⟨settings, rfl, ⟨hnone, -⟩ | ⟨theirs, mine, ht, hm, rfl⟩⟩ := Preferences.batch_eq_ok hb
  · exact nomatch hp.symm.trans hnone
  obtain rfl : p = theirs := by simpa [hp] using ht
  obtain rfl : q?.getD .empty = mine := by
    simpa [Preferences.stored, hq, Except.map] using hm
  refine ⟨by simp [key], ⟨_, List.mem_cons_self⟩, fun raw hput c' hv => ?_⟩
  obtain rfl : raw = ((q?.getD .empty).or p).toJson.compact := by
    simpa [key, Preferences.key_ne_syncKey] using hput
  refine ⟨_, Contents.json?_of_decode hv (Preferences.restores.decode_compact _), ?_⟩
  rw [Preferences.get?_or]
  cases q? with
  | none => cases f <;> exact hf
  | some q =>
      have hgap : q.get? f = none :=
        Option.eq_none_iff_forall_not_mem.mpr fun value' hv' => hn ⟨value', q, hq, hv'⟩
      rw [Option.getD_some, hgap, Option.none_or, hf]

/-- Every letter is taken along. The letter that comes under its new key was found under the key of
this one, so it is this one. -/
theorem moved_letter {l : Letter} (h : Store.sendLog.Written live c)
    (hk : Store.sendLog.Held c absorbed keys) {found : List SentMessage}
    (hf : SendLog.found c keys = .ok found) (hi : (letter l).Stored c absorbed) :
    (letter l).Moved surviving absorbed (SendLog.moves surviving absorbed found) := by
  obtain ⟨raw, hraw, -⟩ := Contents.json?_eq_ok.mp hi
  have hfound : l.message absorbed ∈ found :=
    (SendLog.mem_found_iff hf).mpr ⟨_, (hk _).mpr ⟨⟨raw, hraw⟩, Text.hasPrefix_append _ _⟩, hi⟩
  refine .of_found (fun _ => SendLog.mem_moves_iff) hfound rfl rfl (fun m hm hkey => ?_)
    fun c' hv => ?_
  · obtain ⟨k, hks, hj⟩ := (SendLog.mem_found_iff hf).mp hm
    obtain ⟨l', rfl, rfl⟩ := h.letter_of_json? ((hk k).mp hks).2 hj
    -- the letter that comes under this key was found under that of the item
    have hid : l'.id = l.id := (String.append_right_inj _).mp hkey
    rw [hid] at hj
    exact Option.some.inj (Except.ok.inj (hj.symm.trans hi))
  · exact Contents.json?_of_decode hv (SentMessage.restores.decode_compact (l.message surviving))

/-- Every envelope is taken along, for the same reason as a letter. -/
theorem moved_envelope {cache : MessageCache} {e : Envelope}
    (h : (Store.messages cache).Written live c) (hk : (Store.messages cache).Held c absorbed keys)
    (hi : (envelope e : Item (.messages cache)).Stored c absorbed) :
    (envelope e : Item (.messages cache)).Moved surviving absorbed
      (cache.moves surviving absorbed (MessageCache.found c keys)) := by
  obtain ⟨raw, hraw, -⟩ := Contents.json?_eq_ok.mp hi
  have hfound : e.message absorbed ∈ MessageCache.found c keys :=
    MessageCache.mem_found_iff.mpr
      ⟨_, (hk _).mpr ⟨⟨raw, hraw⟩, Text.hasPrefix_append _ _⟩, hi⟩
  refine .of_found (fun _ => MessageCache.mem_moves_iff) hfound rfl rfl (fun m hm hkey => ?_)
    fun c' hv => ?_
  · obtain ⟨k, hks, hj⟩ := MessageCache.mem_found_iff.mp hm
    obtain ⟨e', rfl, rfl⟩ := h.envelope_of_json? ((hk k).mp hks).2 hj
    have hid : e'.id = e.id := (String.append_right_inj _).mp hkey
    rw [hid] at hj
    exact Option.some.inj (Except.ok.inj (hj.symm.trans hi))
  · exact Contents.json?_of_decode hv (CachedMessage.restores.decode_compact (e.message surviving))

/-- **A merge takes along what the survivor has nothing in place of**, in every store: the old key
is removed, and what is put under the new one has the item. -/
theorem moved {item : Item st} (h : st.Written live c) (hk : st.Held c absorbed keys)
    (hb : st.batch c surviving absorbed keys = .ok ws) (hi : item.Stored c absorbed)
    (hn : ¬item.Superseded c surviving) : item.Moved surviving absorbed ws := by
  cases item with
  | session device s => exact moved_session h hk hb hi hn
  | identity i =>
      obtain rfl := Except.ok.inj hb
      exact moved_identity h hi hn
  | part f value => exact moved_part h hb hi hn
  | letter l =>
      obtain ⟨found, hf, rfl⟩ := map_eq_ok_iff.mp hb
      exact moved_letter h hk hf hi
  | envelope e =>
      obtain rfl := Except.ok.inj hb
      exact moved_envelope h hk hi
  | setting f value => exact moved_setting h hb hi hn
  | mark =>
      obtain ⟨settings, rfl, -⟩ := Preferences.batch_eq_ok hb
      refine ⟨by simp [key], ⟨Preferences.mark, by simp [key]⟩, fun value _ c' hv => ?_⟩
      exact Option.ne_none_iff_exists'.mpr ⟨value, hv⟩

end Item

end PeerBook
