import PeerBook.Proofs.Stores.Effects

/-!
# PeerBook.Proofs.Stores.ReadBack

What is written through a handle is read through every handle that stands for
the same peer (`Deed.perform_readBack`). The handle may have been absorbed, and
what is read through the survivor is then what was written through it.

`Deed.ReadBack` says for every deed what there is to read afterwards, in terms of
what was read through the same handle before: a deed that replaces something
shows the new value, one that adds a message shows it beside the others, one that
removes shows nothing. It is derived from the effect on single keys, since a
handle is followed to the peer whose keys these are.
-/

namespace PeerBook

/-- A session that is no longer live. -/
def Session.archived (s : Session) : Session := { s with live := false }

section

variable {σ : Type} [Storage σ]

/-- What is read through a handle, in the state that a deed left, is what the deed has done to what
was there in the state before. Who only reads has nothing to read back. -/
def Deed.ReadBack (redirects : Redirects) (j : PeerId) (s s' : σ) : {st : Store} → Deed st → Prop
  | _, storeSession device record =>
      ((Sessions.load redirects j device).run s').result = .ok (some ⟨record, true⟩)
  | _, archive => ∀ device, ∃ s?, ((Sessions.load redirects j device).run s).result = .ok s? ∧
      ((Sessions.load redirects j device).run s').result = .ok (s?.map Session.archived)
  | _, deleteSession device => ((Sessions.load redirects j device).run s').result = .ok none
  | _, deleteSessions => ∀ device, ((Sessions.load redirects j device).run s').result = .ok none
  | _, saveIdentity now key => ∃ i?, ((Identities.get redirects j).run s).result = .ok i? ∧
      ((Identities.get redirects j).run s').result = .ok (some (Identity.saved now key i?))
  | _, setTrust key trust => ∃ i?, ((Identities.get redirects j).run s).result = .ok i? ∧
      ((Identities.get redirects j).run s').result = .ok (i?.map (Identity.trusting key trust))
  | _, deleteIdentity => ((Identities.get redirects j).run s').result = .ok none
  | _, storeProfileKey key => ∃ key? p?,
      ((Profiles.profileKey redirects j).run s).result = .ok key? ∧
      ((Profiles.profile redirects j).run s).result = .ok p? ∧
      ((Profiles.profileKey redirects j).run s').result = .ok (some key) ∧
      ((Profiles.profile redirects j).run s').result =
        .ok (if key? = some key then p? else p?.map Profile.stale)
  | _, storeProfile p => ((Profiles.profile redirects j).run s').result = .ok (some p)
  | _, insert l => ∃ ms, ((SendLog.entries redirects j).run s').result = .ok ms ∧
      l.message (redirects.follow j) ∈ ms
  | _, deleteLetters => ((SendLog.entries redirects j).run s').result = .ok []
  | _, deleteOlder timestamp => ∃ ms, ((SendLog.entries redirects j).run s').result = .ok ms ∧
      ∀ m ∈ ms, timestamp ≤ m.timestamp
  | .messages cache, add e => ∃ ms, ((cache.entries redirects j).run s').result = .ok ms ∧
      e.message (redirects.follow j) ∈ ms
  | .messages cache, remove id => ∃ ms, ((cache.entries redirects j).run s').result = .ok ms ∧
      ∀ m ∈ ms, m.id ≠ id
  | .messages cache, removeAll => ((cache.entries redirects j).run s').result = .ok []
  | _, update p => ∃ q, ((Preferences.get redirects j).run s).result = .ok q ∧
      ((Preferences.get redirects j).run s').result = .ok p ∧
      (q ≠ p → ∃ peers, ((Preferences.needSync (σ := σ)).run s').result = .ok peers ∧
        redirects.follow j ∈ peers)
  | _, mark => ∃ peers, ((Preferences.needSync (σ := σ)).run s').result = .ok peers ∧
      redirects.follow j ∈ peers
  | _, clearMark => ∃ peers, ((Preferences.needSync (σ := σ)).run s').result = .ok peers ∧
      redirects.follow j ∉ peers
  | _, loadSession _ | _, containsSession _ | _, subDevices | _, identity | _, isTrusted _
  | _, profileKey | _, profile | _, letters | _, letter _ _ | _, envelopes | _, settings
  | _, needSync => True

end

/-! ## What is read -/

/-- What is read in a state is what its content says. -/
theorem Op.Views.result {σ α : Type} {contents : σ → Contents} {op : Op σ α}
    {P : Except Error α → Prop} {s : σ} (h : op.Views contents (contents s) P) :
    P (op.run s).result := (h s rfl).2

section

variable {σ : Type} [Storage σ] {contents : σ → Contents} {live : PeerId → Prop}
  {redirects : Redirects} {j : PeerId} {s : σ} (hs : Storage.Legible contents)

include hs

/-- The session of a device, as it is answered in a state. -/
theorem Sessions.load_result {device : UInt32} {o : Option Session}
    (h : (contents s).json? StoredSession.ofJson (key (redirects.follow j) device) =
      .ok (o.map Session.stored)) : ((load redirects j device).run s).result = .ok o :=
  (load_views hs h).result

/-- The identity of a peer, as it is answered in a state. -/
theorem Identities.get_result {i? : Option Identity}
    (h : (contents s).json? Identity.ofJson (key (redirects.follow j)) = .ok i?) :
    ((get redirects j).run s).result = .ok i? :=
  (Op.Views.getJson hs _ _).result.trans h

/-- Every letter that can be found under a key of a peer is listed. -/
theorem SendLog.entries_result (h : Store.sendLog.Written live (contents s)) :
    ∃ ms, ((entries redirects j).run s).result = .ok ms ∧ ∀ m, m ∈ ms ↔
      ∃ k, Store.sendLog.Holds (redirects.follow j) k ∧
        (contents s).json? SentMessage.ofJson k = .ok (some m) := by
  obtain ⟨keys, ms, hkeys, hms, hr⟩ := (entries_views hs h redirects j).result
  refine ⟨ms, hr, fun m => ?_⟩
  rw [mem_found_iff hms]
  refine exists_congr fun k => and_congr_left fun hj => ?_
  obtain ⟨v, hv, -⟩ := Contents.json?_eq_ok.mp hj
  rw [hkeys.mem_iff]
  exact and_iff_right ⟨v, hv⟩

/-- Every envelope that can be found under a key of a peer is listed. -/
theorem MessageCache.entries_result (cache : MessageCache) :
    ∃ ms, ((cache.entries redirects j).run s).result = .ok ms ∧ ∀ m, m ∈ ms ↔
      ∃ k, (Store.messages cache).Holds (redirects.follow j) k ∧
        (contents s).json? CachedMessage.ofJson k = .ok (some m) := by
  obtain ⟨keys, hkeys, hr⟩ := (entriesUnder_views hs (hs.list (contents s)
    (cache.peerPrefix (redirects.follow j)))).result
  refine ⟨_, hr, fun m => ?_⟩
  rw [mem_found_iff]
  refine exists_congr fun k => and_congr_left fun hj => ?_
  obtain ⟨v, hv, -⟩ := Contents.json?_eq_ok.mp hj
  rw [Contents.Lists.mem_iff hkeys]
  exact and_iff_right ⟨v, hv⟩

end

/-- Nothing is listed for a peer that holds nothing. -/
theorem Contents.eq_nil_of_unheld {α : Type} {decoder : Json.Decoder α} {c : Contents} {st : Store}
    {peer : PeerId} {ms : List α}
    (hmem : ∀ m, m ∈ ms ↔ ∃ k, st.Holds peer k ∧ c.json? decoder k = .ok (some m))
    (hnone : ∀ k, st.Holds peer k → c.get? k = none) : ms = [] := by
  refine List.eq_nil_iff_forall_not_mem.mpr fun m hm => ?_
  obtain ⟨k, hk, hj⟩ := (hmem m).mp hm
  rw [Contents.json?_of_none (hnone k hk)] at hj
  cases hj

/-- **An effect is seen through every handle of the peer.** The effect is about the keys of the
peer; a handle that is followed to the peer reads these. -/
theorem Deed.Effect.readBack {σ : Type} [Storage σ] {contents : σ → Contents} {st : Store}
    {live : PeerId → Prop} (hs : Storage.Legible contents) {redirects : Redirects} {j : PeerId}
    {s s' : σ} (h : st.Written live (contents s)) (h' : st.Written live (contents s'))
    {deed : Deed st} (he : deed.Effect (redirects.follow j) (contents s) (contents s')) :
    deed.ReadBack redirects j s s' := by
  cases deed with
  | storeSession device record =>
      exact Sessions.load_result hs (o := some ⟨record, true⟩) he
  | archive =>
      intro device
      obtain ⟨s?, hj⟩ := h.session (redirects.follow j) device
      refine ⟨s?, Sessions.load_result hs hj, Sessions.load_result hs ((he device).trans ?_)⟩
      rw [hj]
      cases s? <;> rfl
  | deleteSession device =>
      exact Sessions.load_result hs (o := none) (Contents.json?_of_none he _)
  | deleteSessions =>
      exact fun device => Sessions.load_result hs (o := none)
        (Contents.json?_of_none (he _ (Text.hasPrefix_append _ _)) _)
  | saveIdentity now key =>
      obtain ⟨i?, hj, hj'⟩ := he
      exact ⟨i?, Identities.get_result hs hj, Identities.get_result hs hj'⟩
  | setTrust key trust =>
      obtain ⟨i?, hj, hj'⟩ := he
      exact ⟨i?, Identities.get_result hs hj, Identities.get_result hs hj'⟩
  | deleteIdentity => exact Identities.get_result hs (Contents.json?_of_none he _)
  | storeProfileKey key =>
      obtain ⟨p?, hj, hj'⟩ := he
      exact ⟨_, _, (Profiles.profileKey_views hs hj).result, (Profiles.profile_views hs hj).result,
        (Profiles.profileKey_views hs (o := some _) hj').result,
        (Profiles.profile_views hs (o := some _) hj').result⟩
  | storeProfile p =>
      obtain ⟨p?, hj, hj'⟩ := he
      exact (Profiles.profile_views hs (o := some _) hj').result
  | insert l =>
      obtain ⟨ms, hr, hmem⟩ := SendLog.entries_result hs h'
      exact ⟨ms, hr, (hmem _).mpr ⟨_, Text.hasPrefix_append _ _, he⟩⟩
  | deleteLetters =>
      obtain ⟨ms, hr, hmem⟩ := SendLog.entries_result hs h'
      rw [Contents.eq_nil_of_unheld hmem he] at hr
      exact hr
  | deleteOlder timestamp =>
      obtain ⟨ms, hr, hmem⟩ := SendLog.entries_result hs h'
      refine ⟨ms, hr, fun m hm => ?_⟩
      obtain ⟨k, hk, hj⟩ := (hmem m).mp hm
      exact he k m hk.keeps hj
  | add e =>
      obtain ⟨ms, hr, hmem⟩ := MessageCache.entries_result hs _
      exact ⟨ms, hr, (hmem _).mpr ⟨_, Text.hasPrefix_append _ _, he⟩⟩
  | remove id =>
      obtain ⟨ms, hr, hmem⟩ := MessageCache.entries_result hs _
      refine ⟨ms, hr, fun m hm hid => ?_⟩
      obtain ⟨k, hk, hj⟩ := (hmem m).mp hm
      obtain ⟨e, rfl, rfl⟩ := h'.envelope_of_json? hk hj
      obtain rfl : e.id = id := hid
      rw [Contents.json?_of_none he] at hj
      cases hj
  | removeAll =>
      obtain ⟨ms, hr, hmem⟩ := MessageCache.entries_result hs _
      rw [Contents.eq_nil_of_unheld hmem he] at hr
      exact hr
  | update p =>
      obtain ⟨q?, hj, ⟨p?, hj', rfl⟩, hmark⟩ := he
      refine ⟨_, (Preferences.load_views hs hj).result, (Preferences.load_views hs hj').result,
        fun hne => ?_⟩
      obtain ⟨peers, hr, hmem⟩ := (Preferences.needSync_views hs h').result
      exact ⟨peers, hr, (hmem _).mpr (hmark hne)⟩
  | mark =>
      obtain ⟨peers, hr, hmem⟩ := (Preferences.needSync_views hs h').result
      exact ⟨peers, hr, (hmem _).mpr he⟩
  | clearMark =>
      obtain ⟨peers, hr, hmem⟩ := (Preferences.needSync_views hs h').result
      exact ⟨peers, hr, fun hm => (hmem _).mp hm he⟩
  | loadSession | containsSession | subDevices | identity | isTrusted | profileKey | profile
  | letters | letter | envelopes | settings | needSync => trivial

/-- **What is written through a handle is read through every handle of its peer.** On a storage that
never fails, a deed on a well-written store comes to its end, and what it wrote is read back. -/
theorem Deed.perform_readBack {σ : Type} [Storage σ] {contents : σ → Contents} {st : Store}
    (hs : Storage.Faithful contents) (redirects : Redirects) (i : PeerId) {s : σ}
    (h : st.Written (fun _ => True) (contents s)) (deed : Deed st) :
    ∃ s', (deed.perform redirects i).Returns s () s' ∧
      ∀ j, redirects.follow j = redirects.follow i → deed.ReadBack redirects j s s' := by
  obtain ⟨⟨⟩, s', hr, he⟩ := deed.perform_brings hs redirects i h s rfl
  obtain ⟨ws, hws, hc⟩ := deed.perform_edits hs.ordered redirects i h s rfl
  rw [hr.2] at hc
  have h' : st.Written (fun _ => True) (contents s') := by
    rw [hc]
    exact h.applyAll fun w hw => (hws w hw).mono fun _ _ => trivial
  refine ⟨s', hr, fun j hj => Effect.readBack hs.legible h h' ?_⟩
  rw [hj]
  exact he

end PeerBook
