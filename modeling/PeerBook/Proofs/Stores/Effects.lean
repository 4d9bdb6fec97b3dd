import PeerBook.Proofs.Stores.Deeds

/-!
# PeerBook.Proofs.Stores.Effects

What the stores leave on a storage that never fails. Each operation comes down
to what becomes of single keys: a record is put, a prefix is cleared, the
sessions of a peer are archived, and what is too old is removed and counted.

`Deed.Effect` says for every deed what it makes of the content, in terms of what
is read before and after, and `Deed.perform_brings` that every deed comes to its
end with this effect on a well-written store. What the values are made of, as the
identity after a key was saved or the stale profile, has names of its own in the
first section.
-/

namespace PeerBook

/-! ## What is made of a value -/

/-- Different byte strings are written differently, so comparing what was written compares the
bytes. -/
@[simp] theorem Text.Base64.encode_inj {a b : List UInt8} : encode a = encode b ↔ a = b :=
  ⟨fun h => by simpa using congrArg decode? h, congrArg encode⟩

/-- The identity of a peer after a key was saved at a time. -/
def Identity.saved (now : UInt64) (key : List UInt8) : Option Identity → Identity
  | none => ⟨key, .trustedUnverified, now⟩
  | some i => if i.key = key then i else ⟨key, .untrusted, now⟩

/-- The identity of a peer after the trust in a key was changed. -/
def Identity.trusting (key : List UInt8) (trust : TrustLevel) (i : Identity) : Identity :=
  if i.key = key then { i with trust } else i

/-- A profile that has to be fetched again. -/
def Profile.stale (p : Profile) : Profile := { p with lastUpdate := none }

/-! ## Single keys -/

namespace Contents

variable {c : Contents} {key : String}

@[simp] theorem get?_put (c : Contents) (key value : String) :
    (c.applyAll [.put key value]).get? key = some value := Table.get?_insert_self c key value

theorem get?_put_of_ne (c : Contents) (value : String) {key k : String} (h : k ≠ key) :
    (c.applyAll [.put key value]).get? k = c.get? k := Table.get?_insert_of_ne c value h

@[simp] theorem get?_del (c : Contents) (key : String) :
    (c.applyAll [.del key]).get? key = none := Table.get?_erase_self c key

/-- What was put is read. -/
theorem json?_put {α : Type} {decoder : Json.Decoder α} {value : String} {a : α}
    (h : Json.decode decoder value = .ok a) (c : Contents) (key : String) :
    (c.applyAll [.put key value]).json? decoder key = .ok (some a) :=
  json?_of_decode (c.get?_put key value) h

/-- After removals the removed keys are gone. -/
theorem get?_applyAll_dels (c : Contents) (keys : List String) (k : String) :
    (c.applyAll (keys.map .del)).get? k = if k ∈ keys then none else c.get? k := by
  have hv : ∀ w ∈ keys.map Write.del, w.key = k → w.value = none := by simp [Write.value]
  simp [get?_applyAll c _ hv, Write.key]

end Contents

section

variable {σ : Type} [Storage σ] {contents : σ → Contents} {c : Contents}
  (hs : Storage.Faithful contents)

include hs

/-- A single write of a value is made. -/
theorem Storage.put_brings (key value : String) :
    (Storage.put key value : Op σ Unit).Brings contents c
      fun _ c' => c' = c.applyAll [.put key value] := .of_makes (hs.put key value) rfl

/-- A single deletion is made. -/
theorem Storage.del_brings (key : String) :
    (Storage.del key : Op σ Unit).Brings contents c fun _ c' => c' = c.applyAll [.del key] :=
  .of_makes (hs.del key) rfl

/-- What is done with what can be read under a key. -/
theorem Storage.getJson_brings {α β : Type} {decoder : Json.Decoder α} {key : String}
    {a? : Option α} (h : c.json? decoder key = .ok a?) {next : Option α → Op σ β}
    {Q : β → Contents → Prop} (hn : (next a?).Brings contents c Q) :
    (Storage.getJson decoder key >>= next).Brings contents c Q := by
  refine .reads_bind (P := (· = a?))
    ((Op.Views.getJson hs.legible _ _).reads fun r hr => ⟨_, hr.trans h, rfl⟩) ?_
  rintro _ rfl
  exact hn

/-- Removing all keys with a prefix. -/
theorem Store.clear_brings (keyPrefix : String) :
    (Storage.list keyPrefix >>= fun keys => Storage.writeBatch (keys.map .del) :
      Op σ Unit).Brings contents c fun _ c' =>
        ∀ k, c'.get? k = if Text.hasPrefix keyPrefix k = true then none else c.get? k := by
  refine .reads_bind (hs.list c _) fun keys hkeys => .of_makes (hs.writeBatch _) fun k => ?_
  rw [Contents.get?_applyAll_dels]
  have hmem := hkeys.mem_iff.trans (Contents.mem_keysUnder (c := c) (k := k))
  cases hv : c.get? k with
  | none => simp
  | some v => simp [hmem, hv]

/-! ## Archiving -/

/-- A session that is no longer live. -/
def StoredSession.archived (s : StoredSession) : StoredSession := { s with live := false }

omit [Storage σ] hs in
/-- What is done for each key in turn is done for all keys, if doing it twice changes nothing. -/
theorem Storage.forEach_brings {β : Type} {f : String → Op σ Unit} {V : Contents → String → β}
    {g : β → β} {I : Contents → Prop} {P : String → Prop} (hg : ∀ b, g (g b) = g b)
    (h : ∀ key, P key → ∀ c, I c → (f key).Brings contents c fun _ c' =>
      I c' ∧ ∀ k, V c' k = if k = key then g (V c k) else V c k) (keys : List String)
    (hkeys : ∀ key ∈ keys, P key) {c : Contents} (hc : I c) :
    (Storage.forEach f keys).Brings contents c fun _ c' =>
      ∀ k, V c' k = if k ∈ keys then g (V c k) else V c k := by
  induction keys generalizing c with
  | nil => exact .pure fun k => rfl
  | cons key keys ih =>
      rw [List.forall_mem_cons] at hkeys
      refine (h key hkeys.1 c hc).bind fun _ c₁ ⟨hc₁, h₁⟩ => ?_
      refine (ih hkeys.2 hc₁).mono fun _ c' h' k => ?_
      rw [h', h₁]
      by_cases hk : k = key <;> by_cases hm : k ∈ keys <;> simp [hk, hm, hg]

omit [Storage σ] hs in
/-- Under a key of a peer there is a session that can be read, or nothing. -/
theorem Store.Written.session_of_holds {live : PeerId → Prop} {peer : PeerId} {key : String}
    (h : Store.sessions.Written live c) (hk : Store.sessions.Holds peer key) :
    ∃ s? : Option Session, c.json? StoredSession.ofJson key = .ok (s?.map Session.stored) ∧
      (s? ≠ none → ∃ device, key = Sessions.key peer device) := by
  cases hv : c.get? key with
  | none => exact ⟨none, Contents.json?_of_none hv _, fun h => absurd rfl h⟩
  | some value =>
      obtain ⟨-, r, rfl, rfl⟩ := h.of_holds hk hv
      cases r with
      | session device s =>
          have hd := StoredSession.restores.decode_compact s.stored
          exact ⟨some s, Contents.json?_of_decode hv hd, fun _ => ⟨device, rfl⟩⟩

/-- **Archiving leaves no live session of the peer**, and the sessions as they were otherwise. A
session that is archived already is not written again. -/
theorem Sessions.archive_brings (redirects : Redirects) (i : PeerId)
    (h : Store.sessions.Written (fun _ => True) c) :
    (archive redirects i : Op σ Unit).Brings contents c fun _ c' => ∀ device,
      c'.json? StoredSession.ofJson (key (redirects.follow i) device) =
        (c.json? StoredSession.ofJson (key (redirects.follow i) device)).map
          (Option.map StoredSession.archived) := by
  refine .reads_bind (hs.list c _) fun keys hkeys => ?_
  refine (Storage.forEach_brings (I := Store.sessions.Written fun _ => True)
    (P := (Store.sessions.Holds (redirects.follow i) ·))
    (V := fun c k => c.json? StoredSession.ofJson k)
    (g := Except.map (Option.map StoredSession.archived)) (fun r => ?_) (fun k hk c hc => ?_) keys
    (fun k hk => ?_) h).mono fun _ c' hc' device => ?_
  · rcases r with e | _ | s <;> rfl
  · obtain ⟨s?, hj, hkey⟩ := hc.session_of_holds hk
    refine Storage.getJson_brings hs hj ?_
    -- nothing is done where there is no session, or it is not live
    have hkeep (he : s?.map Session.stored = (s?.map Session.stored).map StoredSession.archived) :
        (pure () : Op σ Unit).Brings contents c fun _ c' =>
          Store.sessions.Written (fun _ => True) c' ∧
            ∀ k', c'.json? StoredSession.ofJson k' = if k' = k then
              (c.json? StoredSession.ofJson k').map (Option.map StoredSession.archived)
              else c.json? StoredSession.ofJson k' := by
      refine .pure ⟨hc, fun k' => ?_⟩
      split
      · rename_i hk'
        rw [hk', hj, Except.map, ← he]
      · rfl
    cases s? with
    | none => exact hkeep rfl
    | some s =>
        obtain ⟨device, rfl⟩ := hkey nofun
        obtain ⟨bytes, _ | _⟩ := s
        · exact hkeep rfl
        · refine (Storage.put_brings hs _ _).mono ?_
          rintro _ _ rfl
          refine ⟨hc.applyAll (List.forall_mem_singleton.mpr
            ⟨_, .session device ⟨bytes, false⟩, trivial, rfl, rfl⟩), fun k' => ?_⟩
          split
          · rename_i hk'
            rw [hk', hj, Contents.json?_put (StoredSession.restores.decode_compact _)]
            rfl
          · rename_i hk'
            exact Contents.json?_congr (Contents.get?_put_of_ne _ _ hk')
  · exact (Contents.mem_keysUnder.mp (hkeys.mem_iff.mp hk)).2
  · rw [hc']
    split
    · rfl
    · rename_i hk
      have hnone : c.get? (key (redirects.follow i) device) = none := by
        refine Option.eq_none_iff_forall_not_mem.mpr fun v hv => hk (hkeys.mem_iff.mpr ?_)
        exact Contents.mem_keysUnder.mpr ⟨⟨v, hv⟩, Text.hasPrefix_append _ _⟩
      rw [Contents.json?_of_none hnone]
      rfl

/-! ## Expiry -/

omit [Storage σ] hs in
/-- Whether the entry under a key is from before a time. -/
def SendLog.isOld (c : Contents) (timestamp : UInt64) (key : String) : Bool :=
  match c.json? SentMessage.ofJson key with
  | .ok (some m) => m.timestamp < timestamp
  | _ => false

/-- **What is too old goes, and is counted**, for all peers at once; every other key of the storage
has what it had. -/
theorem SendLog.deleteOlder_brings (h : Store.sendLog.Written (fun _ => True) c)
    (timestamp : UInt64) : (deleteOlder timestamp : Op σ Nat).Brings contents c fun n c' =>
      n = ((c.keysUnder keyPrefix).filter (isOld c timestamp)).length ∧
        ∀ k, c'.get? k = if Text.hasPrefix keyPrefix k = true ∧ isOld c timestamp k = true then none
          else c.get? k := by
  refine .reads_bind (hs.list c _) fun keys hkeys => ?_
  have hold : ∀ k ∈ keys, expired c timestamp k =
      .ok (if isOld c timestamp k then some (.del k) else none) := by
    intro k hk
    obtain ⟨⟨v, hv⟩, hp⟩ := Contents.mem_keysUnder.mp (hkeys.mem_iff.mp hk)
    obtain ⟨peer, r, -, rfl, rfl⟩ := h k v ⟨_, List.mem_singleton_self _, hp⟩ hv
    cases r with
    | sent l =>
        have hd := SentMessage.restores.decode_compact (l.message peer)
        have hj := Contents.json?_of_decode hv hd
        simp [expired, isOld, hj, bind, Except.bind, pure, Except.pure]
  have hgather := Contents.gather_of_ok hold
  refine .reads_bind (P := (· = (keys.filter (isOld c timestamp)).map .del))
    ((Op.Views.collect (expire_views hs.legible timestamp) keys).reads fun r hr =>
      ⟨_, hr.trans hgather, ?_⟩) ?_
  · clear hr hgather hold hkeys
    induction keys with
    | nil => rfl
    | cons k ks ih => cases ho : isOld c timestamp k <;> simp [ho, ih]
  · rintro _ rfl
    refine (Op.Brings.of_makes (hs.writeBatch _) (R := fun _ c' => c' = c.applyAll _) rfl).bind ?_
    rintro _ _ rfl
    refine .pure ⟨?_, fun k => ?_⟩
    · rw [List.length_map, (hkeys.filter _).length_eq]
    · rw [Contents.get?_applyAll_dels]
      have hmem := hkeys.mem_iff.trans (Contents.mem_keysUnder (c := c) (k := k))
      cases hv : c.get? k with
      | none => simp
      | some v => simp [hmem, hv]

/-! ## Values that change -/

/-- After a key was saved the identity is the one that saving makes of it: the same if the key is,
else the new key, which is trusted only if there was none before. -/
theorem Identities.save_brings {redirects : Redirects} {i : PeerId} {i? : Option Identity}
    (h : c.json? Identity.ofJson (key (redirects.follow i)) = .ok i?) (now : UInt64)
    (k : List UInt8) : (save redirects now i k : Op σ Bool).Brings contents c fun _ c' =>
      c'.json? Identity.ofJson (key (redirects.follow i)) =
        .ok (some (Identity.saved now k i?)) := by
  refine Storage.getJson_brings hs h ?_
  have hput (i' : Identity) (b : Bool) :
      (do put redirects i i'; return b : Op σ Bool).Brings contents c fun _ c' =>
        c'.json? Identity.ofJson (key (redirects.follow i)) = .ok (some i') := by
    refine (Storage.put_brings hs _ _).bind ?_
    rintro _ _ rfl
    exact .pure (Contents.json?_put (Identity.restores.decode_compact i') c _)
  cases i? with
  | none => exact hput _ _
  | some i' =>
      simp only [Identity.saved]
      split
      · exact .pure h
      · exact .reads_bind (.note _ _) fun _ _ => hput _ _

/-- After the trust was changed the identity has it, if its key is the one named, and otherwise it
is as it was. -/
theorem Identities.setTrust_brings {redirects : Redirects} {i : PeerId} {i? : Option Identity}
    (h : c.json? Identity.ofJson (key (redirects.follow i)) = .ok i?) (k : List UInt8)
    (trust : TrustLevel) :
    (setTrust redirects i k trust : Op σ Bool).Brings contents c fun _ c' =>
      c'.json? Identity.ofJson (key (redirects.follow i)) =
        .ok (i?.map (Identity.trusting k trust)) := by
  refine Storage.getJson_brings hs h ?_
  cases i? with
  | none => exact .pure h
  | some i' =>
      simp only [Option.map_some, Identity.trusting]
      split
      · refine (Storage.put_brings hs _ _).bind ?_
        rintro _ _ rfl
        exact .pure (Contents.json?_put (Identity.restores.decode_compact _) c _)
      · exact .pure h

/-- Another key than before makes the profile stale: it is kept, but without the time of its
fetch. -/
theorem Profiles.storeKey_brings {redirects : Redirects} {i : PeerId} {p? : Option Portrait}
    (h : c.json? ProfileEntry.ofJson (key (redirects.follow i)) = .ok (p?.map Portrait.entry))
    (k : List UInt8) : (storeKey redirects i k : Op σ Unit).Brings contents c fun _ c' =>
      c'.json? ProfileEntry.ofJson (key (redirects.follow i)) = .ok (some (Portrait.entry
        ⟨some k, if p?.bind (·.profileKey) = some k then p?.bind (·.profile)
          else (p?.bind (·.profile)).map Profile.stale⟩)) := by
  refine Storage.getJson_brings hs h ?_
  simp only
  rcases p? with _ | ⟨key?, profile?⟩
  · refine (Storage.put_brings hs _ _).mono ?_
    rintro _ _ rfl
    exact Contents.json?_put (ProfileEntry.restores.decode_compact _) c _
  · have hsame : key?.map Text.Base64.encode = some (Text.Base64.encode k) ↔ key? = some k := by
      cases key? <;> simp
    simp only [Option.map_some, Option.getD_some, Option.bind_some, Portrait.entry, hsame]
    split
    · rename_i hk
      obtain rfl := hk
      exact .pure h
    · refine (Storage.put_brings hs _ _).mono ?_
      rintro _ _ rfl
      exact Contents.json?_put (ProfileEntry.restores.decode_compact _) c _

/-- After a profile was stored it is there with the profile key from before. -/
theorem Profiles.store_brings {redirects : Redirects} {i : PeerId} {p? : Option Portrait}
    (h : c.json? ProfileEntry.ofJson (key (redirects.follow i)) = .ok (p?.map Portrait.entry))
    (p : Profile) : (store redirects i p : Op σ Unit).Brings contents c fun _ c' =>
      c'.json? ProfileEntry.ofJson (key (redirects.follow i)) =
        .ok (some (Portrait.entry ⟨p?.bind (·.profileKey), some p⟩)) := by
  refine Storage.getJson_brings hs h ?_
  refine (Storage.put_brings hs _ _).mono ?_
  rintro _ _ rfl
  refine Contents.json?_put ?_ c _
  cases p? <;> exact ProfileEntry.restores.decode_compact _

/-- A change of settings marks the peer, and an update to what is stored already writes nothing. -/
theorem Preferences.update_brings {redirects : Redirects} {i : PeerId} {q? : Option Preferences}
    (h : c.json? ofJson (key (redirects.follow i)) = .ok q?) (p : Preferences) :
    (update redirects i p : Op σ Unit).Brings contents c fun _ c' =>
      (∃ p?, c'.json? ofJson (key (redirects.follow i)) = .ok p? ∧ p?.getD .empty = p) ∧
        (q?.getD .empty ≠ p → c'.get? (syncKey (redirects.follow i)) ≠ none) := by
  have hload := (Op.Views.getJson (c := c) hs.legible ofJson (key (redirects.follow i))).eq_map
    fun q? : Option Preferences => q?.getD .empty
  rw [h] at hload
  refine .reads_bind (P := (· = q?.getD .empty)) (hload.reads fun r hr => ⟨_, hr, rfl⟩) ?_
  rintro _ rfl
  split
  · rename_i hp
    exact .pure ⟨⟨q?, h, hp⟩, fun hne => absurd hp hne⟩
  · refine .of_makes (hs.writeBatch _) ⟨⟨some p, ?_, rfl⟩, fun _ => ?_⟩
    · refine Contents.json?_of_decode ?_ (restores.decode_compact p)
      simp [Contents.applyAll, Contents.apply, Table.get?_insert, key_ne_syncKey]
    · simp [Contents.applyAll, Contents.apply]

end

/-! ## The effect of a deed -/

/-- What a deed of a peer makes of a content. -/
def Deed.Effect (peer : PeerId) (c c' : Contents) : {st : Store} → Deed st → Prop
  | _, storeSession device record =>
      c'.json? StoredSession.ofJson (Sessions.key peer device) =
        .ok (some (Session.stored ⟨record, true⟩))
  | _, archive => ∀ device, c'.json? StoredSession.ofJson (Sessions.key peer device) =
      (c.json? StoredSession.ofJson (Sessions.key peer device)).map
        (Option.map StoredSession.archived)
  | _, deleteSession device => c'.get? (Sessions.key peer device) = none
  | _, deleteSessions => ∀ k, Store.sessions.Holds peer k → c'.get? k = none
  | _, saveIdentity now key => ∃ i?, c.json? Identity.ofJson (Identities.key peer) = .ok i? ∧
      c'.json? Identity.ofJson (Identities.key peer) = .ok (some (Identity.saved now key i?))
  | _, setTrust key trust => ∃ i?, c.json? Identity.ofJson (Identities.key peer) = .ok i? ∧
      c'.json? Identity.ofJson (Identities.key peer) = .ok (i?.map (Identity.trusting key trust))
  | _, deleteIdentity => c'.get? (Identities.key peer) = none
  | _, storeProfileKey key => ∃ p? : Option Portrait,
      c.json? ProfileEntry.ofJson (Profiles.key peer) = .ok (p?.map Portrait.entry) ∧
      c'.json? ProfileEntry.ofJson (Profiles.key peer) = .ok (some (Portrait.entry
        ⟨some key, if p?.bind (·.profileKey) = some key then p?.bind (·.profile)
          else (p?.bind (·.profile)).map Profile.stale⟩))
  | _, storeProfile p => ∃ p? : Option Portrait,
      c.json? ProfileEntry.ofJson (Profiles.key peer) = .ok (p?.map Portrait.entry) ∧
      c'.json? ProfileEntry.ofJson (Profiles.key peer) =
        .ok (some (Portrait.entry ⟨p?.bind (·.profileKey), some p⟩))
  | _, insert l =>
      c'.json? SentMessage.ofJson (SendLog.key peer l.id) = .ok (some (l.message peer))
  | _, deleteLetters => ∀ k, Store.sendLog.Holds peer k → c'.get? k = none
  | _, deleteOlder timestamp => ∀ k m, Store.sendLog.Keeps k →
      c'.json? SentMessage.ofJson k = .ok (some m) → timestamp ≤ m.timestamp
  | .messages cache, add e =>
      c'.json? CachedMessage.ofJson (cache.key peer e.id) = .ok (some (e.message peer))
  | .messages cache, remove id => c'.get? (cache.key peer id) = none
  | .messages cache, removeAll => ∀ k, (Store.messages cache).Holds peer k → c'.get? k = none
  | _, update p => ∃ q?, c.json? Preferences.ofJson (Preferences.key peer) = .ok q? ∧
      (∃ p?, c'.json? Preferences.ofJson (Preferences.key peer) = .ok p? ∧ p?.getD .empty = p) ∧
      (q?.getD .empty ≠ p → c'.get? (Preferences.syncKey peer) ≠ none)
  | _, mark => c'.get? (Preferences.syncKey peer) ≠ none
  | _, clearMark => c'.get? (Preferences.syncKey peer) = none
  | _, loadSession _ | _, containsSession _ | _, subDevices | _, identity | _, isTrusted _
  | _, profileKey | _, profile | _, letters | _, letter _ _ | _, envelopes | _, settings
  | _, needSync => c' = c

/-- What only reads leaves everything. -/
theorem Deed.reads_brings {σ : Type} [Storage σ] {contents : σ → Contents} {c : Contents}
    {st : Store} {live : PeerId → Prop} (hs : Storage.Legible contents) (redirects : Redirects)
    (i : PeerId) (h : st.Written live c) {deed : Deed st} (hr : deed.reads = true) :
    (deed.perform redirects i : Op σ Unit).Brings contents c fun _ c' => c' = c :=
  .of_reads ((deed.perform_views hs redirects i h hr).reads fun _ hok => ⟨(), hok, rfl⟩)

/-- **A deed comes to its end**, on a well-written store, and has its effect. What the effect is of
each deed is said in `Deed.Effect`. -/
theorem Deed.perform_brings {σ : Type} [Storage σ] {contents : σ → Contents} {c : Contents}
    {st : Store} (hs : Storage.Faithful contents) (redirects : Redirects) (i : PeerId)
    (h : st.Written (fun _ => True) c) (deed : Deed st) :
    (deed.perform redirects i : Op σ Unit).Brings contents c
      fun _ c' => deed.Effect (redirects.follow i) c c' := by
  have hdrop {α : Type} {op : Op σ α} {Q : Contents → Prop} (hb : op.Brings contents c fun _ => Q) :
      (do let _ ← op : Op σ Unit).Brings contents c fun _ => Q := hb.bind fun _ _ hc => .pure hc
  cases deed with
  | storeSession device record =>
      refine (Storage.put_brings hs _ _).mono ?_
      rintro _ _ rfl
      exact Contents.json?_put (StoredSession.restores.decode_compact _) c _
  | archive => exact Sessions.archive_brings hs redirects i h
  | deleteSession device | remove id | deleteIdentity | clearMark =>
      refine (Storage.del_brings hs _).mono ?_
      rintro _ _ rfl
      exact Contents.get?_del c _
  | deleteSessions | deleteLetters | removeAll =>
      refine (Store.clear_brings hs _).mono fun _ c' hc k hk => ?_
      rw [hc]
      exact if_pos hk
  | saveIdentity now key =>
      obtain ⟨i?, hj⟩ := h.identity (redirects.follow i)
      exact hdrop ((Identities.save_brings hs hj now key).mono fun _ _ hc => ⟨i?, hj, hc⟩)
  | setTrust key trust =>
      obtain ⟨i?, hj⟩ := h.identity (redirects.follow i)
      exact hdrop ((Identities.setTrust_brings hs hj key trust).mono fun _ _ hc => ⟨i?, hj, hc⟩)
  | storeProfileKey key =>
      obtain ⟨p?, hj⟩ := h.portrait (redirects.follow i)
      exact (Profiles.storeKey_brings hs hj key).mono fun _ _ hc => ⟨p?, hj, hc⟩
  | storeProfile p =>
      obtain ⟨p?, hj⟩ := h.portrait (redirects.follow i)
      exact (Profiles.store_brings hs hj p).mono fun _ _ hc => ⟨p?, hj, hc⟩
  | insert l =>
      refine (Storage.put_brings hs _ _).mono ?_
      rintro _ _ rfl
      exact Contents.json?_put (SentMessage.restores.decode_compact _) c _
  | deleteOlder timestamp =>
      refine hdrop ((SendLog.deleteOlder_brings hs h timestamp).mono ?_)
      rintro n c' ⟨-, hc⟩ k m ⟨p, hp, hk⟩ hm
      obtain rfl := List.mem_singleton.mp hp
      obtain ⟨v, hv, -⟩ := Contents.json?_eq_ok.mp hm
      have hold : SendLog.isOld c timestamp k ≠ true := by
        intro ho
        rw [hc, if_pos ⟨hk, ho⟩] at hv
        contradiction
      rw [Contents.json?_congr ((hc k).trans (if_neg fun hh => hold hh.2))] at hm
      simpa [SendLog.isOld, hm] using hold
  | add e =>
      refine (Storage.put_brings hs _ _).mono ?_
      rintro _ _ rfl
      exact Contents.json?_put (CachedMessage.restores.decode_compact _) c _
  | update p =>
      obtain ⟨q?, hj⟩ := h.settings (redirects.follow i)
      exact (Preferences.update_brings hs hj p).mono fun _ _ hc => ⟨q?, hj, hc⟩
  | mark =>
      refine (Storage.put_brings hs _ _).mono ?_
      rintro _ _ rfl
      simp [Effect]
  | loadSession | containsSession | subDevices | identity | isTrusted | profileKey | profile
  | letters | letter | envelopes | settings | needSync =>
      exact reads_brings hs.legible redirects i h rfl

end PeerBook
