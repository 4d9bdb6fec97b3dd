import PeerBook.Proofs.Storage.Faithful
import PeerBook.Proofs.Stores.Moves

/-!
# PeerBook.Proofs.Stores.Deeds

What can be asked of the stores, as data. A deed is done for a handle, under the
redirects of the directory, and whatever becomes of it the content changes by
writes that the store admits for the peer which the handle stands for
(`Deed.perform_edits`). So a store stays well written whatever is asked of it
and wherever that is cut short, and the other stores stay as they are.

The type `Deed` has a constructor for every operation of every store, so a
statement about all deeds is one about the whole interface. Those that only read
are told apart (`Deed.reads`) and answer from what was written; of the others it
is said which writes they may make, by one lemma for each kind of change.
-/

namespace PeerBook

/-- A deed of a store. Whoever adds a message draws its identifier, and the clock is read for the
deeds that keep a time. -/
inductive Deed : Store → Type where
  | storeSession (device : UInt32) (record : List UInt8) : Deed .sessions
  | loadSession (device : UInt32) : Deed .sessions
  | containsSession (device : UInt32) : Deed .sessions
  | subDevices : Deed .sessions
  | archive : Deed .sessions
  | deleteSession (device : UInt32) : Deed .sessions
  | deleteSessions : Deed .sessions
  | identity : Deed .identities
  | saveIdentity (now : UInt64) (key : List UInt8) : Deed .identities
  | setTrust (key : List UInt8) (trust : TrustLevel) : Deed .identities
  | isTrusted (key : List UInt8) : Deed .identities
  | deleteIdentity : Deed .identities
  | profileKey : Deed .profiles
  | storeProfileKey (key : List UInt8) : Deed .profiles
  | profile : Deed .profiles
  | storeProfile (p : Profile) : Deed .profiles
  | insert (l : Letter) : Deed .sendLog
  | letters : Deed .sendLog
  | letter (device : UInt32) (timestamp : UInt64) : Deed .sendLog
  | deleteLetters : Deed .sendLog
  | deleteOlder (timestamp : UInt64) : Deed .sendLog
  | add {cache : MessageCache} (e : Envelope) : Deed (.messages cache)
  | envelopes {cache : MessageCache} : Deed (.messages cache)
  | remove {cache : MessageCache} (id : String) : Deed (.messages cache)
  | removeAll {cache : MessageCache} : Deed (.messages cache)
  | settings : Deed .preferences
  | update (p : Preferences) : Deed .preferences
  | mark : Deed .preferences
  | clearMark : Deed .preferences
  | needSync : Deed .preferences

section

variable {σ : Type} [Storage σ]

/-- Does a deed for a handle; what it answers is read elsewhere. -/
def Deed.perform (redirects : Redirects) (i : PeerId) : {st : Store} → Deed st → Op σ Unit
  | _, storeSession device record => Sessions.store redirects i device record
  | _, loadSession device => do let _ ← Sessions.load redirects i device
  | _, containsSession device => do let _ ← Sessions.contains redirects i device
  | _, subDevices => do let _ ← Sessions.subDevices redirects i
  | _, archive => Sessions.archive redirects i
  | _, deleteSession device => Sessions.delete redirects i device
  | _, deleteSessions => Sessions.deleteAll redirects i
  | _, identity => do let _ ← Identities.get redirects i
  | _, saveIdentity now key => do let _ ← Identities.save redirects now i key
  | _, setTrust key trust => do let _ ← Identities.setTrust redirects i key trust
  | _, isTrusted key => do let _ ← Identities.isTrusted redirects i key
  | _, deleteIdentity => Identities.delete redirects i
  | _, profileKey => do let _ ← Profiles.profileKey redirects i
  | _, storeProfileKey key => Profiles.storeKey redirects i key
  | _, profile => do let _ ← Profiles.profile redirects i
  | _, storeProfile p => Profiles.store redirects i p
  | _, insert l => SendLog.insert redirects l.id i l.device l.timestamp l.bytes l.urgent
  | _, letters => do let _ ← SendLog.entries redirects i
  | _, letter device timestamp => do let _ ← SendLog.get redirects i device timestamp
  | _, deleteLetters => SendLog.delete redirects i
  | _, deleteOlder timestamp => do let _ ← SendLog.deleteOlder timestamp
  | .messages cache, add e => cache.add redirects e.id e.receivedAt i e.bytes
  | .messages cache, envelopes => do let _ ← cache.entries redirects i
  | .messages cache, remove id => cache.remove redirects i id
  | .messages cache, removeAll => cache.removeAll redirects i
  | _, settings => do let _ ← Preferences.get redirects i
  | _, update p => Preferences.update redirects i p
  | _, mark => Preferences.markForSync redirects i
  | _, clearMark => Preferences.clearSync redirects i
  | _, needSync => do let _ ← Preferences.needSync

end

/-! ## Readers -/

/-- Whether a deed only reads. -/
def Deed.reads : {st : Store} → Deed st → Bool
  | _, loadSession _ | _, containsSession _ | _, subDevices | _, identity | _, isTrusted _
  | _, profileKey | _, profile | _, letters | _, letter _ _ | _, envelopes | _, settings
  | _, needSync => true
  | _, _ => false

section

variable {σ α β : Type} {contents : σ → Contents} {c : Contents} [Storage σ]
  (hs : Storage.Legible contents)

include hs

/-- The session of a device is read as it is stored. -/
theorem Sessions.load_views {redirects : Redirects} {i : PeerId} {device : UInt32}
    {s? : Option Session} (h : c.json? StoredSession.ofJson (key (redirects.follow i) device) =
      .ok (s?.map Session.stored)) :
    (load redirects i device : Op σ _).Views contents c (· = .ok s?) := by
  have hj := Op.Views.getJson (c := c) hs StoredSession.ofJson (key (redirects.follow i) device)
  rw [h] at hj
  refine hj.bind (fun stored hst => ?_) nofun
  obtain rfl := Except.ok.inj hst
  cases s? with
  | none => exact .pure none
  | some s =>
      simp only [Option.map_some, Session.stored, Text.Base64.decode?_encode]
      exact .pure (some s)

/-- The profile key is read from the entry of the peer. -/
theorem Profiles.profileKey_views {redirects : Redirects} {i : PeerId} {o : Option Portrait}
    (h : c.json? ProfileEntry.ofJson (key (redirects.follow i)) =
      .ok (o.map Portrait.entry)) :
    (profileKey redirects i : Op σ _).Views contents c (· = .ok (o.bind (·.profileKey))) := by
  have hj := Op.Views.getJson (c := c) hs ProfileEntry.ofJson (key (redirects.follow i))
  rw [h] at hj
  refine hj.bind (fun entry he => ?_) nofun
  obtain rfl := Except.ok.inj he
  rcases o with _ | ⟨_ | bytes, p⟩
  · exact .pure none
  · exact .pure none
  · simp only [Option.map_some, Option.bind_some, Portrait.entry, Text.Base64.decode?_encode]
    exact .pure (some bytes)

/-- The profile is read from the entry of the peer. -/
theorem Profiles.profile_views {redirects : Redirects} {i : PeerId} {o : Option Portrait}
    (h : c.json? ProfileEntry.ofJson (key (redirects.follow i)) =
      .ok (o.map Portrait.entry)) :
    (profile redirects i : Op σ _).Views contents c (· = .ok (o.bind (·.profile))) := by
  have hj := Op.Views.getJson (c := c) hs ProfileEntry.ofJson (key (redirects.follow i))
  rw [h] at hj
  refine hj.bind (fun entry he => ?_) nofun
  obtain rfl := Except.ok.inj he
  cases o <;> exact .pure _

/-- Everything in a well-written log is listed. -/
theorem SendLog.entries_views {live : PeerId → Prop} (h : Store.sendLog.Written live c)
    (redirects : Redirects) (i : PeerId) : (entries redirects i : Op σ _).Views contents c fun r =>
      ∃ keys ms, c.Lists (peerPrefix (redirects.follow i)) keys ∧ found c keys = .ok ms ∧
        r = .ok ms := by
  refine (entriesUnder_views hs (hs.list c _)).mono fun r ⟨keys, hkeys, hr⟩ => ?_
  obtain ⟨ms, hms⟩ := h.found fun k hk => by
    obtain ⟨hv, hp⟩ := Contents.Lists.mem_iff hkeys |>.mp hk
    exact ⟨hv, redirects.follow i, hp⟩
  exact ⟨keys, ms, hkeys, hms, hr.trans hms⟩

/-- Settings that are not there are read as the default ones. -/
theorem Preferences.load_views {peer : PeerId} {p? : Option Preferences}
    (h : c.json? ofJson (key peer) = .ok p?) :
    (load peer : Op σ _).Views contents c (· = .ok (p?.getD .empty)) := by
  have hj := Op.Views.getJson (c := c) hs ofJson (key peer)
  rw [h] at hj
  exact hj.eq_map fun p? : Option Preferences => p?.getD .empty

/-- The marked peers are those with a mark. A mark is a key alone, so what is stored under it is not
looked at. -/
theorem Preferences.needSync_views {live : PeerId → Prop} (h : Store.preferences.Written live c) :
    (needSync : Op σ _).Views contents c fun r =>
      ∃ peers, r = .ok peers ∧ ∀ peer, peer ∈ peers ↔ c.get? (syncKey peer) ≠ none := by
  refine (Op.Views.of_reads (hs.list c _)).bind (fun keys hkeys => ?_) nofun
  obtain ⟨_, ⟨⟩, hkeys⟩ := hkeys
  refine (Op.Views.pure _).mono fun r hr => ⟨_, hr, fun peer => ?_⟩
  rw [List.mem_mergeSort, List.mem_filterMap]
  constructor
  · rintro ⟨k, hk, hp⟩
    obtain ⟨⟨v, hv⟩, hprefix⟩ := Contents.mem_keysUnder.mp ((hkeys k).mp hk)
    obtain ⟨q, r, -, rfl, -⟩ := h k v ⟨_, List.mem_cons_of_mem _ List.mem_cons_self, hprefix⟩ hv
    cases r with
    | settings p =>
        have hapart : Text.apart keyPrefix syncPrefix = true := by decide
        exact absurd hprefix (Text.not_hasPrefix_of_apart hapart (Text.hasPrefix_append _ _))
    | mark =>
        obtain rfl : q = peer := by simpa [Record.key, syncKey] using hp
        rw [show syncKey q = Record.mark.key q from rfl, hv]
        exact nofun
  · intro hv
    refine ⟨syncKey peer, (hkeys _).mpr (Contents.mem_keysUnder.mpr ⟨?_, ?_⟩), ?_⟩
    · exact Option.ne_none_iff_exists'.mp hv
    · exact Text.hasPrefix_append _ _
    · simp [syncKey]

end

/-- **A deed that only reads answers** from what the stores have written, and never fails, since all
of that can be read. -/
theorem Deed.perform_views {σ : Type} [Storage σ] {contents : σ → Contents} {c : Contents}
    {st : Store} {live : PeerId → Prop} (hs : Storage.Legible contents) (redirects : Redirects)
    (i : PeerId) (h : st.Written live c) {deed : Deed st} (hr : deed.reads = true) :
    (deed.perform redirects i : Op σ Unit).Views contents c (· = .ok ()) := by
  have hdrop {α : Type} {op : Op σ α} {P : Except Error α → Prop} (hv : op.Views contents c P)
      (hP : ∀ e, ¬P (.error e)) :
      (do let _ ← op : Op σ Unit).Views contents c (· = .ok ()) :=
    hv.bind (fun _ _ => .pure ()) fun e he => absurd he (hP e)
  have hmap {α β : Type} {op : Op σ α} {P : Except Error α → Prop} (hv : op.Views contents c P)
      (hP : ∀ e, ¬P (.error e)) (f : α → β) :
      (do let _ ← op >>= fun a => pure (f a) : Op σ Unit).Views contents c (· = .ok ()) :=
    hdrop (P := fun r => ∃ b, r = .ok b) (hv.bind (fun _ _ => (Op.Views.pure _).mono fun _ hr =>
      ⟨_, hr⟩) fun e he => absurd he (hP e)) nofun
  cases deed with
  | loadSession device =>
      obtain ⟨s?, hj⟩ := h.session (redirects.follow i) device
      exact hdrop (Sessions.load_views hs hj) nofun
  | containsSession device =>
      obtain ⟨s?, hj⟩ := h.session (redirects.follow i) device
      exact hmap (Sessions.load_views hs hj) nofun _
  | subDevices => exact hmap (.of_reads (hs.list c _)) nofun _
  | identity =>
      obtain ⟨i?, hj⟩ := h.identity (redirects.follow i)
      exact hdrop (Op.Views.getJson hs _ _) fun e he => nomatch he.trans hj
  | isTrusted key =>
      obtain ⟨i?, hj⟩ := h.identity (redirects.follow i)
      refine hdrop (P := fun r => ∃ b, r = .ok b) ((Op.Views.getJson hs _ _).bind
        (fun existing _ => ?_) fun e he => nomatch he.trans hj) nofun
      cases existing <;> exact (Op.Views.pure _).mono fun _ hr => ⟨_, hr⟩
  | profileKey =>
      obtain ⟨p?, hj⟩ := h.portrait (redirects.follow i)
      exact hdrop (Profiles.profileKey_views hs hj) nofun
  | profile =>
      obtain ⟨p?, hj⟩ := h.portrait (redirects.follow i)
      exact hdrop (Profiles.profile_views hs hj) nofun
  | letters =>
      exact hdrop (SendLog.entries_views hs h redirects i) fun e ⟨_, _, _, _, he⟩ => nomatch he
  | letter device timestamp =>
      exact hmap (SendLog.entries_views hs h redirects i) (fun e ⟨_, _, _, _, he⟩ => nomatch he) _
  | envelopes =>
      exact hdrop (MessageCache.entriesUnder_views hs (hs.list c _)) fun e ⟨_, _, he⟩ => nomatch he
  | settings =>
      obtain ⟨p?, hj⟩ := h.settings (redirects.follow i)
      exact hdrop (Preferences.load_views hs hj) nofun
  | needSync => exact hdrop (Preferences.needSync_views hs h) fun e ⟨_, he, _⟩ => nomatch he
  | storeSession | archive | deleteSession | deleteSessions | saveIdentity | setTrust
  | deleteIdentity | storeProfileKey | storeProfile | insert | deleteLetters | deleteOlder | add
  | remove | removeAll | update | mark | clearMark => contradiction

section

variable {σ : Type} {contents : σ → Contents} {c : Contents} [Storage σ]
  (hs : Storage.Legible contents)

include hs

/-! ## Entries that are too old -/

/-- The removal of an entry, if it is from before a time. -/
def SendLog.expire (timestamp : UInt64) (key : String) : Op σ (Option Write) := do
  match ← Storage.getJson SentMessage.ofJson key with
  | some m => return if m.timestamp < timestamp then some (.del key) else none
  | none => return none

/-- The removal of the entry under a key, if it is from before a time. -/
def SendLog.expired (c : Contents) (timestamp : UInt64) (key : String) :
    Except Error (Option Write) := do
  let m? ← c.json? SentMessage.ofJson key
  return m?.bind fun m => if m.timestamp < timestamp then some (.del key) else none

/-- Whether an entry is too old is decided by what is read under its key. -/
theorem SendLog.expire_views (timestamp : UInt64) (key : String) :
    (expire timestamp key : Op σ _).Views contents c (· = expired c timestamp key) := by
  refine (Op.Views.getJson hs _ _).eq_bind fun m? _ => ?_
  cases m? <;> exact .pure _

omit hs in
/-- What is removed for its age can be read and is from before the time. -/
theorem SendLog.expired_eq_some {timestamp : UInt64} {key : String} {w : Write}
    (h : expired c timestamp key = .ok (some w)) :
    ∃ m, c.json? SentMessage.ofJson key = .ok (some m) ∧ m.timestamp < timestamp ∧
      w = .del key := by
  obtain ⟨m?, hm, h⟩ := bind_eq_ok_iff.mp h
  obtain ⟨m, rfl, hw⟩ := Option.bind_eq_some_iff.mp (Except.ok.inj h)
  split at hw
  · exact ⟨m, hm, ‹_›, (Option.some.inj hw).symm⟩
  · contradiction

end

/-! ## Changes -/

section

variable {σ : Type} [Storage σ] {contents : σ → Contents} {c : Contents}

omit [Storage σ] in
/-- What is done for each of several keys changes the content by writes of a kind, if that keeps a
property under which each step does. -/
theorem Storage.forEach_edits {α : Type} {f : α → Op σ Unit} {W : Write → Prop}
    {I : Contents → Prop} (hI : ∀ c ws, I c → (∀ w ∈ ws, W w) → I (c.applyAll ws)) (as : List α)
    (h : ∀ a ∈ as, ∀ c, I c → (f a).Edits contents c W) (hc : I c) :
    (Storage.forEach f as).Edits contents c W := by
  induction as generalizing c with
  | nil => exact .of_views (.pure ())
  | cons a as ih =>
      rw [List.forall_mem_cons] at h
      exact (h.1 c hc).bind fun _ ws hws => ih h.2 (hI c ws hc hws)

variable {W : Write → Prop} (hs : Storage.Ordered contents)

include hs

/-- A single write of a value changes the content by that, or fails and does not. -/
theorem Storage.put_edits {key value : String} (h : W (.put key value)) :
    (Storage.put key value : Op σ Unit).Edits contents c W :=
  .of_writes (hs.put key value) (List.forall_mem_singleton.mpr h)

/-- A single deletion changes the content by that, or fails and does not. -/
theorem Storage.del_edits {key : String} (h : W (.del key)) :
    (Storage.del key : Op σ Unit).Edits contents c W :=
  .of_writes (hs.del key) (List.forall_mem_singleton.mpr h)

/-- Removing all keys with a prefix. -/
theorem Storage.clear_edits {keyPrefix : String}
    (h : ∀ key, Text.hasPrefix keyPrefix key = true → W (.del key)) :
    (Storage.list keyPrefix >>= fun keys => Storage.writeBatch (keys.map .del) :
      Op σ Unit).Edits contents c W := by
  refine .views_bind (.of_reads (hs.list c _)) fun keys hkeys => ?_
  obtain ⟨_, ⟨⟩, hkeys⟩ := hkeys
  refine .of_writes (hs.writeBatch _) fun w hw => ?_
  obtain ⟨k, hk, rfl⟩ := List.mem_map.mp hw
  exact h k (Contents.mem_keysUnder.mp ((hkeys k).mp hk)).2

/-- The sessions of a peer are archived one by one, each by a write of its own, so this may stop
between two of them. -/
theorem Sessions.archive_edits {I : Contents → Prop} (redirects : Redirects) (i : PeerId)
    (hI : ∀ c ws, I c → (∀ w ∈ ws, W w) → I (c.applyAll ws))
    (h : ∀ c key stored, I c → Store.sessions.Holds (redirects.follow i) key →
      c.json? StoredSession.ofJson key = .ok (some stored) →
        W (.put key { stored with live := false }.toJson.compact)) (hc : I c) :
    (archive redirects i : Op σ Unit).Edits contents c W := by
  refine .views_bind (.of_reads (hs.list c _)) fun keys hkeys => ?_
  obtain ⟨_, ⟨⟩, hkeys⟩ := hkeys
  refine Storage.forEach_edits hI keys (fun k hk c hc => ?_) hc
  refine .views_bind (.getJson hs.toLegible _ _) fun stored hstored => ?_
  cases stored with
  | none => exact .of_views (.pure ())
  | some stored =>
      simp only
      split
      · have hheld := (Contents.mem_keysUnder.mp ((hkeys k).mp hk)).2
        exact Storage.put_edits hs (h c k stored hc hheld hstored.symm)
      · exact .of_views (.pure ())

/-- A key that is saved is put where there is none, or in place of another. The trust that it gets
is settled by which of the two it is. -/
theorem Identities.save_edits (redirects : Redirects) (now : UInt64) (i : PeerId)
    (k : List UInt8)
    (hfirst : c.json? Identity.ofJson (key (redirects.follow i)) = .ok none →
      W (.put (key (redirects.follow i)) (Identity.mk k .trustedUnverified now).toJson.compact))
    (hother : ∀ existing, c.json? Identity.ofJson (key (redirects.follow i)) = .ok (some existing) →
      existing.key ≠ k →
        W (.put (key (redirects.follow i)) (Identity.mk k .untrusted now).toJson.compact)) :
    (save redirects now i k : Op σ Bool).Edits contents c W := by
  refine .views_bind (.getJson hs.toLegible _ _) fun existing hexisting => ?_
  cases existing with
  | none => exact .map (Storage.put_edits hs (hfirst hexisting.symm)) fun _ => false
  | some existing =>
      simp only
      split
      · exact .of_views (.pure false)
      · rename_i hne
        exact .views_bind (.note _ _) fun _ _ =>
          .map (Storage.put_edits hs (hother existing hexisting.symm hne)) fun _ => true

/-- The trust is changed in the key that is stored. -/
theorem Identities.setTrust_edits (redirects : Redirects) (i : PeerId) (k : List UInt8)
    (trust : TrustLevel)
    (h : ∀ existing, c.json? Identity.ofJson (key (redirects.follow i)) = .ok (some existing) →
      existing.key = k →
        W (.put (key (redirects.follow i)) { existing with trust }.toJson.compact)) :
    (setTrust redirects i k trust : Op σ Bool).Edits contents c W := by
  refine .views_bind (.getJson hs.toLegible _ _) fun existing hexisting => ?_
  cases existing with
  | none => exact .of_views (.pure false)
  | some existing =>
      simp only
      split
      · rename_i hk
        exact .map (Storage.put_edits hs (h existing hexisting.symm hk)) fun _ => true
      · exact .of_views (.pure false)

/-- A profile key is put with some profile, the one before or a stale one. -/
theorem Profiles.storeKey_edits (redirects : Redirects) (i : PeerId) (k : List UInt8)
    (h : ∀ p, W (.put (key (redirects.follow i)) (Portrait.mk (some k) p).entry.toJson.compact)) :
    (storeKey redirects i k : Op σ Unit).Edits contents c W := by
  refine .views_bind (.getJson hs.toLegible _ _) fun entry _ => ?_
  simp only
  split
  · exact .of_views (.pure ())
  · exact Storage.put_edits hs (h _)

/-- A profile is put with the profile key that is stored. -/
theorem Profiles.store_edits (redirects : Redirects) (i : PeerId) (p : Profile)
    (h : ∀ entry, c.json? ProfileEntry.ofJson (key (redirects.follow i)) = .ok entry →
      W (.put (key (redirects.follow i))
        { entry.getD .empty with profile := some p }.toJson.compact)) :
    (store redirects i p : Op σ Unit).Edits contents c W :=
  .views_bind (.getJson hs.toLegible _ _) fun entry hentry =>
    Storage.put_edits hs (h entry hentry.symm)

/-- What is removed for its age are keys of the log. -/
theorem SendLog.deleteOlder_edits (timestamp : UInt64)
    (h : ∀ key, Text.hasPrefix keyPrefix key = true → W (.del key)) :
    (deleteOlder timestamp : Op σ Nat).Edits contents c W := by
  refine .views_bind (.of_reads (hs.list c _)) fun keys hkeys => ?_
  obtain ⟨_, ⟨⟩, hkeys⟩ := hkeys
  have hviews := Op.Views.collect (c := c) (expire_views hs.toLegible timestamp) keys
  refine .views_bind hviews fun old hold => ?_
  refine .map (.of_writes (hs.writeBatch _) fun w hw => ?_) _
  obtain ⟨k, hk, hw⟩ := ((Contents.gather_eq_ok hold.symm).2 w).mp hw
  obtain ⟨m, -, -, rfl⟩ := expired_eq_some hw
  exact h k (Contents.mem_keysUnder.mp ((hkeys k).mp hk)).2

/-- Settings that are new are put with a mark. -/
theorem Preferences.update_edits (redirects : Redirects) (i : PeerId) (p : Preferences)
    (h : W (.put (key (redirects.follow i)) p.toJson.compact))
    (hmark : W (.put (syncKey (redirects.follow i)) mark)) :
    (update redirects i p : Op σ Unit).Edits contents c W := by
  refine .views_bind ((Op.Views.getJson hs.toLegible _ _).eq_map _) fun old _ => ?_
  split
  · exact .of_views (.pure ())
  · refine .of_writes (hs.writeBatch _) ?_
    simp only [List.forall_mem_cons]
    exact ⟨h, hmark, nofun⟩

end

/-- **A deed changes what its peer has in its store, and nothing else**, wherever it is cut
short. -/
theorem Deed.perform_edits {σ : Type} [Storage σ] {contents : σ → Contents} {c : Contents}
    {st : Store} (hs : Storage.Ordered contents) (redirects : Redirects) (i : PeerId)
    (h : st.Written (fun _ => True) c) (deed : Deed st) :
    (deed.perform redirects i : Op σ Unit).Edits contents c
      (st.Admits (· = redirects.follow i)) := by
  have hput (r : Record st) :
      st.Admits (· = redirects.follow i)
        (.put (r.key (redirects.follow i)) (r.text (redirects.follow i))) := ⟨_, r, rfl, rfl, rfl⟩
  have hkeeps {key : String} (hh : st.Holds (redirects.follow i) key) : st.Keeps key := hh.keeps
  by_cases hr : deed.reads = true
  · exact .of_views (deed.perform_views hs.toLegible redirects i h hr)
  cases deed with
  | storeSession device record => exact Storage.put_edits hs (hput (.session device ⟨record, true⟩))
  | archive =>
      refine Sessions.archive_edits hs redirects i (I := Store.sessions.Written fun _ => True)
        (fun c ws hc hws => hc.applyAll fun w hw => (hws w hw).mono fun _ _ => trivial)
        (fun c key stored hc hheld hstored => ?_) h
      -- what is archived is a session as the store has written it
      obtain ⟨raw, hraw, hd⟩ := Contents.json?_eq_ok.mp hstored
      obtain ⟨-, r, rfl, rfl⟩ := hc.of_holds hheld hraw
      cases r with
      | session device s =>
          obtain rfl := Except.ok.inj
            (hd.symm.trans (StoredSession.restores.decode_compact s.stored))
          exact hput (.session device ⟨s.record, false⟩)
  | deleteSession device => exact Storage.del_edits hs (hkeeps (Text.hasPrefix_append _ _))
  | deleteSessions => exact Storage.clear_edits hs fun _ hk => hkeeps hk
  | saveIdentity now key =>
      exact .map (Identities.save_edits hs redirects now i key
        (fun _ => hput (.identity ⟨key, .trustedUnverified, now⟩))
        fun _ _ _ => hput (.identity ⟨key, .untrusted, now⟩)) _
  | setTrust key trust =>
      exact .map (Identities.setTrust_edits hs redirects i key trust
        fun existing _ _ => hput (.identity { existing with trust })) _
  | deleteIdentity => exact Storage.del_edits hs (hkeeps rfl)
  | storeProfileKey key =>
      exact Profiles.storeKey_edits hs redirects i key fun p => hput (.profile ⟨some key, p⟩)
  | storeProfile p =>
      refine Profiles.store_edits hs redirects i p fun entry hentry => ?_
      obtain ⟨p?, hj⟩ := h.portrait (redirects.follow i)
      obtain rfl := Except.ok.inj (hentry.symm.trans hj)
      cases p? with
      | none => exact hput (.profile ⟨none, some p⟩)
      | some q => exact hput (.profile ⟨q.profileKey, some p⟩)
  | insert l => exact Storage.put_edits hs (hput (.sent l))
  | deleteLetters => exact Storage.clear_edits hs fun _ hk => hkeeps hk
  | deleteOlder timestamp =>
      exact .map (SendLog.deleteOlder_edits hs timestamp
        fun _ hk => ⟨_, List.mem_singleton_self _, hk⟩) _
  | add e => exact Storage.put_edits hs (hput (.cached e))
  | remove id => exact Storage.del_edits hs (hkeeps (Text.hasPrefix_append _ _))
  | removeAll => exact Storage.clear_edits hs fun _ hk => hkeeps hk
  | update p => exact Preferences.update_edits hs redirects i p (hput (.settings p)) (hput .mark)
  | mark => exact Storage.put_edits hs (hput .mark)
  | clearMark => exact Storage.del_edits hs (hkeeps (.inr rfl))
  | loadSession | containsSession | subDevices | identity | isTrusted | profileKey | profile
  | letters | letter | envelopes | settings | needSync => exact absurd rfl hr

end PeerBook
