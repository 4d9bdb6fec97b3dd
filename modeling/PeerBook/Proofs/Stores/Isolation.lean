import PeerBook.Proofs.Stores.Upload

/-!
# PeerBook.Proofs.Stores.Isolation

The parts of a storage that have nothing to do with each other. A deed for a
peer writes to keys that the peer holds in that store, on any content and
wherever it is cut short (`Deed.perform_confined`). What is asked about a peer
is answered from the keys that it holds (`Query.ask_alike`). Nobody holds a key
of another peer and no store keeps a key of another, so what is asked about
other peers and of other stores is answered as before
(`deeds_change_nothing_else`).

Questions are data as deeds are (`Query`), each with the type of its answer and
the keys that it consults. A question that lists keys depends on the order in
which a storage lists them, which no storage promises to keep; where the answer
is sorted that makes no difference, and otherwise it is assumed
(`Query.SameListing`). Removing what is too old is the one deed that is about
all peers, and the question for marked peers the one that asks about all.
-/

namespace PeerBook

/-! ## Questions -/

/-- A question to a store and the kind of its answer. All but the one for the marked peers are
about one peer. -/
inductive Query : Store → Type → Type where
  | session (device : UInt32) : Query .sessions (Option Session)
  | hasSession (device : UInt32) : Query .sessions Bool
  | subDevices : Query .sessions (List UInt32)
  | identity : Query .identities (Option Identity)
  | isTrusted (key : List UInt8) : Query .identities Bool
  | profileKey : Query .profiles (Option (List UInt8))
  | profile : Query .profiles (Option Profile)
  | letters : Query .sendLog (List SentMessage)
  | letter (device : UInt32) (timestamp : UInt64) : Query .sendLog (Option SentMessage)
  | envelopes {cache : MessageCache} : Query (.messages cache) (List CachedMessage)
  | settings : Query .preferences Preferences
  | marked : Query .preferences (List PeerId)

namespace Query

/-- Asks a question about the peer of a handle. -/
def ask {σ : Type} [Storage σ] (redirects : Redirects) (i : PeerId) :
    {st : Store} → {α : Type} → Query st α → Op σ α
  | _, _, session device => Sessions.load redirects i device
  | _, _, hasSession device => Sessions.contains redirects i device
  | _, _, subDevices => Sessions.subDevices redirects i
  | _, _, identity => Identities.get redirects i
  | _, _, isTrusted key => Identities.isTrusted redirects i key
  | _, _, profileKey => Profiles.profileKey redirects i
  | _, _, profile => Profiles.profile redirects i
  | _, _, letters => SendLog.entries redirects i
  | _, _, letter device timestamp => SendLog.get redirects i device timestamp
  | .messages cache, _, envelopes => cache.entries redirects i
  | _, _, settings => Preferences.get redirects i
  | _, _, marked => Preferences.needSync

/-- Whether a question is about one peer. -/
def isOfOne : {st : Store} → {α : Type} → Query st α → Bool
  | _, _, marked => false
  | _, _, _ => true

/-- The prefix of the keys that are listed to answer a question about a peer. -/
def listing? (peer : PeerId) : {st : Store} → {α : Type} → Query st α → Option String
  | _, _, subDevices => some (Sessions.peerPrefix peer)
  | _, _, letters | _, _, letter _ _ => some (SendLog.peerPrefix peer)
  | .messages cache, _, envelopes => some (cache.peerPrefix peer)
  | _, _, marked => some Preferences.syncPrefix
  | _, _, _ => none

/-- Whether what is listed for a question is sorted before it is answered. -/
def isSorted : {st : Store} → {α : Type} → Query st α → Bool
  | _, _, subDevices | _, _, marked => true
  | _, _, _ => false

/-- Two listings are the same for a question: equal, or, where the answer is sorted anyway, with the
same keys as often in another order. -/
def SameListing {st : Store} {α : Type} (q : Query st α) (r r' : Except Error (List String)) :
    Prop :=
  r' = r ∨ q.isSorted = true ∧ ∃ keys keys', r = .ok keys ∧ r' = .ok keys' ∧ keys'.Perm keys

/-- Where nothing is sorted, the same listings are equal. -/
theorem SameListing.eq {st : Store} {α : Type} {q : Query st α} {r r' : Except Error (List String)}
    (h : q.SameListing r r') (hq : q.isSorted = false) : r' = r := by
  rcases h with rfl | ⟨hsorted, -⟩
  · rfl
  · rw [hq] at hsorted
    contradiction

/-- The keys from which a question about a peer is answered. -/
def Consults {st : Store} {α : Type} (q : Query st α) (peer : PeerId) (key : String) : Prop :=
  if q.isOfOne then st.Holds peer key else st.Keeps key

/-- A question consults keys of its own store. -/
theorem Consults.keeps {st : Store} {α : Type} {q : Query st α} {peer : PeerId} {key : String}
    (h : q.Consults peer key) : st.Keeps key := by
  unfold Consults at h
  split at h
  · exact h.keeps
  · exact h

/-- What is listed is consulted. -/
theorem consults_of_listing {st : Store} {α : Type} {q : Query st α} {peer : PeerId}
    {keyPrefix key : String} (h : q.listing? peer = some keyPrefix)
    (hk : Text.hasPrefix keyPrefix key = true) : q.Consults peer key := by
  cases q with
  | subDevices | letters | letter | envelopes =>
      obtain rfl := Option.some.inj h
      exact hk
  | marked =>
      obtain rfl := Option.some.inj h
      exact ⟨_, List.mem_cons_of_mem _ List.mem_cons_self, hk⟩
  | session | hasSession | identity | isTrusted | profileKey | profile | settings => contradiction

end Query

/-! ## Reading two contents -/

/-- Contents that agree under a prefix have the same keys there, in the same order, since keys
ascend. -/
theorem Contents.keysUnder_congr {c d : Contents} {keyPrefix : String}
    (h : ∀ key, Text.hasPrefix keyPrefix key = true → d.get? key = c.get? key) :
    d.keysUnder keyPrefix = c.keysUnder keyPrefix := by
  have hkeys (e : Contents) :
      e.keysUnder keyPrefix = (e.filter fun k _ => Text.hasPrefix keyPrefix k).keys := by
    unfold keysUnder Table.keys
    rw [List.filter_map]
    rfl
  rw [hkeys, hkeys]
  refine congrArg Table.keys (Table.ext_get? fun key => ?_)
  rw [Table.get?_filter, Table.get?_filter]
  by_cases hp : Text.hasPrefix keyPrefix key = true
  · rw [h key hp]
  · simp [hp]

section

variable {σ α β : Type} {contents : σ → Contents} {c d : Contents}

/-- Two states, each with its content. -/
def Storage.Beside (contents : σ → Contents) (c d : Contents) (s t : σ) : Prop :=
  contents s = c ∧ contents t = d

variable [Storage σ] (hs : Storage.Legible contents)

include hs

/-- What is read under a key on which two contents agree. -/
theorem Storage.get_respects {key : String} (h : d.get? key = c.get? key) :
    (Storage.get key : Op σ _).Respects (Storage.Beside contents c d) := by
  rintro s t ⟨hc, hd⟩
  obtain ⟨_, s', hr, hc', rfl⟩ := hs.get c key s hc
  obtain ⟨_, t', hr', hd', rfl⟩ := hs.get d key t hd
  rw [h] at hr'
  exact .of_returns hr hr' ⟨hc', hd'⟩

/-- What a text stands for where two contents agree on it. -/
theorem Storage.getJson_respects (decoder : Json.Decoder α) {key : String}
    (h : d.get? key = c.get? key) :
    (Storage.getJson decoder key : Op σ _).Respects (Storage.Beside contents c d) := by
  refine .bind (get_respects hs h) fun raw => ?_
  cases raw with
  | none => exact .pure none
  | some raw => exact .ofExcept _

/-- What is done with keys that are listed alike. The keys begin with the prefix, so what is done
may count on the two contents agreeing under these. -/
theorem Storage.list_alike {keyPrefix : String} {next : List String → Op σ β} {s t : σ}
    (hb : Storage.Beside contents c d s t)
    (hl : ((Storage.list keyPrefix : Op σ _).run t).result =
      ((Storage.list keyPrefix : Op σ _).run s).result)
    (hn : ∀ keys, (∀ k ∈ keys, Text.hasPrefix keyPrefix k = true) →
      (next keys).Respects (Storage.Beside contents c d)) :
    ((Storage.list keyPrefix >>= next).run s).Alike (Storage.Beside contents c d)
      ((Storage.list keyPrefix >>= next).run t) := by
  obtain ⟨keys, s', hr, hc, hkeys⟩ := hs.list c keyPrefix s hb.1
  obtain ⟨keys', t', hr', hd, -⟩ := hs.list d keyPrefix t hb.2
  obtain rfl : keys' = keys := Except.ok.inj (hr'.1.symm.trans (hl.trans hr.1))
  have halike := hn keys' (fun k hk => (Contents.mem_keysUnder.mp ((hkeys k).mp hk)).2)
    s' t' ⟨hc, hd⟩
  refine ⟨?_, ?_⟩
  · rw [hr.result_bind, hr'.result_bind]
    exact halike.result
  · rw [hr.state_bind, hr'.state_bind]
    exact halike.state

/-- A sorted answer from keys that are listed as often, in whatever order: sorting by a linear order
leaves one list. -/
theorem Storage.list_sorted_alike {st : Store} {q : Query st α} {keyPrefix : String}
    {answer : List String → List β} {le : β → β → Bool} {s t : σ}
    (hb : Storage.Beside contents c d s t)
    (hl : q.SameListing ((Storage.list keyPrefix : Op σ _).run s).result
      ((Storage.list keyPrefix : Op σ _).run t).result)
    (ha : ∀ keys keys', keys'.Perm keys → (answer keys').Perm (answer keys))
    (htrans : ∀ a b c, le a b = true → le b c = true → le a c = true)
    (htotal : ∀ a b, (le a b || le b a) = true)
    (hanti : ∀ a b, le a b = true → le b a = true → a = b) :
    ((do return (answer (← Storage.list keyPrefix)).mergeSort le : Op σ _).run s).Alike
      (Storage.Beside contents c d)
      ((do return (answer (← Storage.list keyPrefix)).mergeSort le : Op σ _).run t) := by
  obtain ⟨keys, s', hr, hc, -⟩ := hs.list c keyPrefix s hb.1
  obtain ⟨keys', t', hr', hd, -⟩ := hs.list d keyPrefix t hb.2
  have hkeys : keys'.Perm keys := by
    rcases hl with heq | ⟨-, ks, ks', hks, hks', hperm⟩
    · obtain rfl := Except.ok.inj (hr'.1.symm.trans (heq.trans hr.1))
      exact .refl _
    · obtain rfl := Except.ok.inj (hr.1.symm.trans hks)
      obtain rfl := Except.ok.inj (hr'.1.symm.trans hks')
      exact hperm
  have hanswer : (answer keys').mergeSort le = (answer keys).mergeSort le :=
    List.Perm.eq_of_pairwise (fun a b _ _ => hanti a b) (List.pairwise_mergeSort htrans htotal _)
      (List.pairwise_mergeSort htrans htotal _)
      ((List.mergeSort_perm _ le).trans ((ha _ _ hkeys).trans (List.mergeSort_perm _ le).symm))
  refine .of_returns (hr.bind (Op.returns_pure _ _)) ?_ ⟨hc, hd⟩
  rw [← hanswer]
  exact hr'.bind (Op.returns_pure _ _)

/-! ### Each question -/

/-- The session of a device is read alike where its key has the same. -/
theorem Sessions.load_respects {redirects : Redirects} {i : PeerId} {device : UInt32}
    (h : d.get? (key (redirects.follow i) device) = c.get? (key (redirects.follow i) device)) :
    (load redirects i device : Op σ _).Respects (Storage.Beside contents c d) := by
  refine .bind (Storage.getJson_respects hs _ h) fun stored => ?_
  cases stored with
  | none => exact .pure none
  | some stored =>
      simp only
      split
      · exact .pure _
      · exact fun _ _ hb => ⟨rfl, hb⟩

/-- The profile key is read alike where the entry of the peer is the same. -/
theorem Profiles.profileKey_respects {redirects : Redirects} {i : PeerId}
    (h : d.get? (key (redirects.follow i)) = c.get? (key (redirects.follow i))) :
    (profileKey redirects i : Op σ _).Respects (Storage.Beside contents c d) := by
  refine .bind (Storage.getJson_respects hs _ h) fun entry => ?_
  cases entry.bind (·.profileKey) with
  | none => exact .pure none
  | some encoded =>
      simp only
      split
      · exact .pure _
      · exact fun _ _ hb => ⟨rfl, hb⟩

variable {s t : σ}

/-- The entries of the log are read alike where the peer's keys have the same and are listed
alike. -/
theorem SendLog.entriesUnder_alike {peer : PeerId}
    (h : ∀ key, Store.sendLog.Holds peer key → d.get? key = c.get? key)
    (hb : Storage.Beside contents c d s t)
    (hl : ((Storage.list (peerPrefix peer) : Op σ _).run t).result =
      ((Storage.list (peerPrefix peer) : Op σ _).run s).result) :
    ((entriesUnder peer : Op σ _).run s).Alike (Storage.Beside contents c d)
      ((entriesUnder peer : Op σ _).run t) := by
  refine Storage.list_alike hs hb hl fun keys hkeys => .bind (.collect fun k hk => ?_) fun _ =>
    .pure _
  exact Storage.getJson_respects hs _ (h k (hkeys k hk))

/-- The entries of a cache are read alike where the peer's keys have the same and are listed
alike. -/
theorem MessageCache.entriesUnder_alike {cache : MessageCache} {peer : PeerId}
    (h : ∀ key, (Store.messages cache).Holds peer key → d.get? key = c.get? key)
    (hb : Storage.Beside contents c d s t)
    (hl : ((Storage.list (cache.peerPrefix peer) : Op σ _).run t).result =
      ((Storage.list (cache.peerPrefix peer) : Op σ _).run s).result) :
    ((cache.entriesUnder peer : Op σ _).run s).Alike (Storage.Beside contents c d)
      ((cache.entriesUnder peer : Op σ _).run t) := by
  refine Storage.list_alike hs hb hl fun keys hkeys => .bind (.collect fun k hk => ?_) fun _ =>
    .pure _
  refine .bind (Storage.get_respects hs (h k (hkeys k hk))) fun raw => ?_
  cases raw with
  | none => exact .pure none
  | some raw =>
      simp only
      split
      · exact .pure _
      · exact .bind (.note _ _) fun _ => .pure none

variable {st : Store} {redirects : Redirects} {i : PeerId}

/-- **Where two contents agree on the keys of a peer, a question about it is answered alike** on
both, and answering leaves both. Keys that are listed have to be listed in one order, unless the
answer is sorted. -/
theorem Query.ask_alike (q : Query st α)
    (h : ∀ key, q.Consults (redirects.follow i) key → d.get? key = c.get? key)
    (hb : Storage.Beside contents c d s t)
    (hl : ∀ keyPrefix, q.listing? (redirects.follow i) = some keyPrefix →
      q.SameListing ((Storage.list keyPrefix : Op σ _).run s).result
        ((Storage.list keyPrefix : Op σ _).run t).result) :
    ((q.ask redirects i : Op σ α).run s).Alike (Storage.Beside contents c d)
      ((q.ask redirects i : Op σ α).run t) := by
  cases q with
  | session device =>
      exact Sessions.load_respects hs (h _ (Text.hasPrefix_append _ _)) s t hb
  | hasSession device =>
      have hload : (Sessions.load redirects i device : Op σ _).Respects
          (Storage.Beside contents c d) :=
        Sessions.load_respects hs (h _ (Text.hasPrefix_append _ _))
      exact hload.bind (fun _ => .pure _) s t hb
  | subDevices =>
      refine Storage.list_sorted_alike hs hb (hl _ rfl)
        (fun _ _ h => (h.filterMap Sessions.deviceOf?).filter _) (fun a b c => ?_) (fun a b => ?_)
        fun a b => ?_
      · simpa using UInt32.le_trans
      · simpa using UInt32.le_total a b
      · simpa using UInt32.le_antisymm
  | identity => exact Storage.getJson_respects hs _ (h _ rfl) s t hb
  | isTrusted key =>
      have hget : (Identities.get redirects i : Op σ _).Respects (Storage.Beside contents c d) :=
        Storage.getJson_respects hs _ (h _ rfl)
      refine hget.bind (fun existing => ?_) s t hb
      cases existing <;> exact .pure _
  | profileKey => exact Profiles.profileKey_respects hs (h _ rfl) s t hb
  | profile =>
      have hload : (Profiles.load (redirects.follow i) : Op σ _).Respects
          (Storage.Beside contents c d) := Storage.getJson_respects hs _ (h _ rfl)
      exact hload.bind (fun _ => .pure _) s t hb
  | letters => exact SendLog.entriesUnder_alike hs h hb ((hl _ rfl).eq rfl)
  | letter device timestamp =>
      exact (SendLog.entriesUnder_alike hs h hb ((hl _ rfl).eq rfl)).andThen fun _ _ _ hb => ⟨rfl, hb⟩
  | envelopes => exact MessageCache.entriesUnder_alike hs h hb ((hl _ rfl).eq rfl)
  | settings =>
      have hload : (Storage.getJson Preferences.ofJson
          (Preferences.key (redirects.follow i)) : Op σ _).Respects
          (Storage.Beside contents c d) := Storage.getJson_respects hs _ (h _ (.inl rfl))
      exact hload.bind (fun _ => .pure _) s t hb
  | marked =>
      refine Storage.list_sorted_alike hs hb (hl _ rfl) (fun _ _ h => h.filterMap _)
        (fun _ _ _ => Std.TransCmp.isLE_trans) (fun a b => ?_) fun a b h h' => ?_
      · rw [Std.OrientedOrd.eq_swap (a := b)]
        cases compare a b <;> rfl
      · exact Std.LawfulEqCmp.eq_of_compare (Std.OrientedCmp.isLE_antisymm h h')

/-- Asking changes nothing. -/
theorem Query.ask_views (q : Query st α) :
    (q.ask redirects i : Op σ α).Views contents c fun _ => True := by
  intro s hc
  have halike : ((q.ask redirects i : Op σ α).run s).Alike (Storage.Beside contents c c)
      ((q.ask redirects i : Op σ α).run s) :=
    q.ask_alike hs (fun _ _ => rfl) ⟨hc, hc⟩ fun _ _ => .inl rfl
  exact ⟨halike.state.1, trivial⟩

end

/-! ## Confined deeds -/

/-- Whether a deed is about what all peers have. -/
def Deed.expires : {st : Store} → Deed st → Bool
  | _, deleteOlder _ => true
  | _, _ => false

section

variable {σ : Type} [Storage σ] {contents : σ → Contents} {c : Contents} {st : Store}
  (hs : Storage.Ordered contents)

include hs

/-- **A deed for a peer writes to keys that the peer holds**, whatever the content, and wherever it
is cut short. -/
theorem Deed.perform_confined (redirects : Redirects) (i : PeerId) {deed : Deed st}
    (hd : deed.expires = false) : (deed.perform redirects i : Op σ Unit).Edits contents c
      fun w => st.Holds (redirects.follow i) w.key := by
  have hasks {st : Store} {α : Type} (q : Query st α) {W : Write → Prop} :
      (do let _ ← q.ask redirects i : Op σ Unit).Edits contents c W :=
    .map (.of_views (q.ask_views hs.toLegible)) fun _ => ()
  have hidentity : Store.identities.Holds (redirects.follow i)
    (Identities.key (redirects.follow i)) := rfl
  have hprofile : Store.profiles.Holds (redirects.follow i)
    (Profiles.key (redirects.follow i)) := rfl
  cases deed with
  | loadSession device => exact hasks (.session device)
  | containsSession device => exact hasks (.hasSession device)
  | subDevices => exact hasks .subDevices
  | identity => exact hasks .identity
  | isTrusted key => exact hasks (.isTrusted key)
  | profileKey => exact hasks .profileKey
  | profile => exact hasks .profile
  | letters => exact hasks .letters
  | letter device timestamp => exact hasks (.letter device timestamp)
  | @envelopes cache => exact hasks (.envelopes : Query (.messages cache) _)
  | settings => exact hasks .settings
  | needSync => exact hasks .marked
  | storeSession device record => exact Storage.put_edits hs (Text.hasPrefix_append _ _)
  | insert l => exact Storage.put_edits hs (Text.hasPrefix_append _ _)
  | add e => exact Storage.put_edits hs (Text.hasPrefix_append _ _)
  | mark => exact Storage.put_edits hs (.inr rfl)
  | deleteSession device => exact Storage.del_edits hs (Text.hasPrefix_append _ _)
  | remove id => exact Storage.del_edits hs (Text.hasPrefix_append _ _)
  | deleteIdentity => exact Storage.del_edits hs hidentity
  | clearMark => exact Storage.del_edits hs (.inr rfl)
  | deleteSessions | deleteLetters | removeAll => exact Storage.clear_edits hs fun _ hk => hk
  | archive =>
      exact Sessions.archive_edits hs redirects i (I := fun _ => True) (fun _ _ _ _ => trivial)
        (fun _ _ _ _ hheld _ => hheld) trivial
  | saveIdentity now key =>
      exact .map (Identities.save_edits hs redirects now i key (fun _ => hidentity)
        fun _ _ _ => hidentity) _
  | setTrust key trust =>
      exact .map (Identities.setTrust_edits hs redirects i key trust
        fun _ _ _ => hidentity) _
  | storeProfileKey key => exact Profiles.storeKey_edits hs redirects i key fun _ => hprofile
  | storeProfile p => exact Profiles.store_edits hs redirects i p fun _ _ => hprofile
  | update p => exact Preferences.update_edits hs redirects i p (.inl rfl) (.inr rfl)
  | deleteOlder timestamp => contradiction

end

/-! ## Everything else -/

/-- A storage that lists the same keys in the same order. -/
def Storage.Steady {σ : Type} [Storage σ] (contents : σ → Contents) : Prop :=
  ∀ keyPrefix s t, (contents t).keysUnder keyPrefix = (contents s).keysUnder keyPrefix →
    ((Storage.list keyPrefix : Op σ _).run t).result =
      ((Storage.list keyPrefix : Op σ _).run s).result

/-- A storage in memory lists the same keys in the same order. -/
theorem Memory.steady : Storage.Steady Memory.contents :=
  fun _ _ _ h => congrArg Except.ok h

section

variable {σ : Type} [Storage σ] {contents : σ → Contents} {st : Store}

/-- A peer is listed as marked where a key that is read as its own is there, whatever is stored
under it. -/
theorem Preferences.mem_needSync (hs : Storage.Legible contents) (s : σ) :
    ∃ peers, ((needSync (σ := σ)).run s).result = .ok peers ∧ ∀ peer, peer ∈ peers ↔
      ∃ k, (∃ v, (contents s).get? k = some v) ∧
        (Text.afterPrefix? syncPrefix k).bind PeerId.parse? = some peer := by
  obtain ⟨keys, s', hr, -, hkeys⟩ := hs.list _ syncPrefix s rfl
  refine ⟨_, hr.result_bind _, fun peer => ?_⟩
  rw [List.mem_mergeSort, List.mem_filterMap]
  refine exists_congr fun k => and_congr_left fun hp => ?_
  rw [hkeys k, Contents.mem_keysUnder, and_iff_left]
  obtain ⟨rest, hrest, -⟩ := Option.bind_eq_some_iff.mp hp
  rw [Text.eq_append_of_afterPrefix? hrest]
  exact Text.hasPrefix_append _ _

/-- Who holds a key of the account that is read as a mark is the peer that is marked. So the answer
about one peer does not depend on the keys of others. -/
theorem Preferences.marked_unique (hst : st ∈ Store.all {}) {key : String} {a b : PeerId}
    (ha : st.Holds a key) (hb : (Text.afterPrefix? syncPrefix key).bind PeerId.parse? = some b) :
    b = a := by
  obtain ⟨rest, hrest, hb⟩ := Option.bind_eq_some_iff.mp hb
  obtain rfl := Text.eq_append_of_afterPrefix? hrest
  have hkeeps : Store.preferences.Keeps (syncPrefix ++ rest) :=
    ⟨_, List.mem_cons_of_mem _ List.mem_cons_self, Text.hasPrefix_append _ _⟩
  by_cases he : st = .preferences
  · subst he
    rcases ha with h | h
    · have hapart : Text.apart keyPrefix syncPrefix = true := by decide
      refine absurd (Text.hasPrefix_append syncPrefix rest) ?_
      rw [h]
      exact Text.not_hasPrefix_of_apart hapart (Text.hasPrefix_append _ _)
    · have hsome : Text.afterPrefix? syncPrefix (syncPrefix ++ rest) = some (toString a) := by
        rw [h, syncKey, Text.afterPrefix?_append]
      obtain rfl := Option.some.inj (hrest.symm.trans hsome)
      simpa using hb.symm
  · exact absurd hkeeps (Store.not_keeps_of_ne hst (by decide) he ha.keeps)

/-- **A deed for a peer changes nothing else.** On any content and under any redirects, whatever
becomes of it, all keys that it changes are held in its store by the peer, and by no other, and
neither another store nor the directory keeps any of them. So a question about another peer, or to
another store, is answered as before: from the same keys, and with the same answer if these are
listed in the same order, or as often in any order where the answer is sorted. Of the other peers
the same ones are marked. -/
theorem deeds_change_nothing_else (hs : Storage.Ordered contents) (hst : st ∈ Store.all {})
    {deed : Deed st} (hd : deed.expires = false) (redirects : Redirects) (i : PeerId) (s : σ) :
    let s' := ((deed.perform redirects i).run s).state
    (∀ key, (contents s').get? key ≠ (contents s).get? key →
      st.Holds (redirects.follow i) key ∧
        (∀ peer, st.Holds peer key → peer = redirects.follow i) ∧
        (∀ st' ∈ Store.all {}, st'.Keeps key → st' = st) ∧ ¬Directory.Owns key) ∧
    (∀ st' ∈ Store.all {}, ∀ {α : Type} (q : Query st' α) (redirects' : Redirects) (j : PeerId),
      (st' = st → q.isOfOne = true ∧ redirects'.follow j ≠ redirects.follow i) →
      (∀ keyPrefix, q.listing? (redirects'.follow j) = some keyPrefix →
        (contents s').keysUnder keyPrefix = (contents s).keysUnder keyPrefix) ∧
      ((Storage.Steady contents ∨ ∀ keyPrefix, q.listing? (redirects'.follow j) = some keyPrefix →
        q.SameListing ((Storage.list keyPrefix : Op σ _).run s).result
          ((Storage.list keyPrefix : Op σ _).run s').result) →
        ((q.ask redirects' j : Op σ α).run s').result =
          ((q.ask redirects' j : Op σ α).run s).result)) ∧
    ∃ peers peers', ((Preferences.needSync (σ := σ)).run s).result = .ok peers ∧
      ((Preferences.needSync (σ := σ)).run s').result = .ok peers' ∧
      ∀ peer ≠ redirects.follow i, peer ∈ peers' ↔ peer ∈ peers := by
  intro s'
  have hchange : ∀ key, (contents s').get? key ≠ (contents s).get? key →
      st.Holds (redirects.follow i) key := by
    intro key hne
    by_contra hn
    exact hne ((deed.perform_confined hs redirects i hd).get?_of_ne fun w hw he => hn (he ▸ hw))
  have hkeep : ∀ key, ¬st.Holds (redirects.follow i) key →
      (contents s').get? key = (contents s).get? key :=
    fun key hn => not_not.mp fun hne => hn (hchange key hne)
  refine ⟨fun key hne => ?_, fun st' hst' {α} q redirects' j hapart => ?_, ?_⟩
  · have hk := hchange key hne
    refine ⟨hk, fun peer hp => hp.unique hk, fun st' hst' hk' => ?_,
      Store.not_owns_of_keeps hst hk.keeps⟩
    by_contra hst''
    exact Store.not_keeps_of_ne hst' hst hst'' hk' hk.keeps
  · have hq : ∀ key, q.Consults (redirects'.follow j) key →
        (contents s').get? key = (contents s).get? key := by
      intro key hk
      refine hkeep key fun hheld => ?_
      by_cases he : st' = st
      · subst he
        obtain ⟨hone, hne⟩ := hapart rfl
        rw [Query.Consults, if_pos hone] at hk
        exact hne (hk.unique hheld)
      · exact Store.not_keeps_of_ne hst' hst he hk.keeps hheld.keeps
    have hlist : ∀ keyPrefix, q.listing? (redirects'.follow j) = some keyPrefix →
        (contents s').keysUnder keyPrefix = (contents s).keysUnder keyPrefix :=
      fun keyPrefix hl => Contents.keysUnder_congr fun key hk =>
        hq key (Query.consults_of_listing hl hk)
    refine ⟨hlist, fun hsame => ?_⟩
    refine (q.ask_alike hs.toLegible hq ⟨rfl, rfl⟩ fun keyPrefix hl => ?_).result.symm
    rcases hsame with hsteady | hsame
    · exact .inl (hsteady keyPrefix s s' (hlist keyPrefix hl))
    · exact hsame keyPrefix hl
  · obtain ⟨peers, hr, hmem⟩ := Preferences.mem_needSync hs.toLegible s
    obtain ⟨peers', hr', hmem'⟩ := Preferences.mem_needSync hs.toLegible s'
    refine ⟨peers, peers', hr, hr', fun peer hne => ?_⟩
    rw [hmem, hmem']
    refine exists_congr fun k => and_congr_left fun hp => ?_
    rw [hkeep k fun hheld => hne (Preferences.marked_unique hst hheld hp)]

end

/-- A letter with slashes in its identifier goes to peer 1, by a handle that was redirected to it;
peer 12 has the letters that it had. -/
theorem deeds_change_nothing_else_with_slashes :
    let redirects : Redirects := Table.ofList [(⟨3⟩, ⟨1⟩)]
    let letter : Letter := ⟨"2/../12/a", 1, 7, [1], true⟩
    let s := ((Deed.insert letter).perform ∅ ⟨12⟩ : Op Memory Unit).run ⟨∅⟩ |>.state
    let s' := ((Deed.insert letter).perform redirects ⟨3⟩ : Op Memory Unit).run s |>.state
    Store.sendLog ∈ Store.all {} ∧ (Deed.insert letter).expires = false ∧
      redirects.follow ⟨12⟩ ≠ redirects.follow ⟨3⟩ ∧
      ((SendLog.entries redirects ⟨12⟩).run s').result =
        ((SendLog.entries redirects ⟨12⟩).run s).result ∧
      ((SendLog.entries redirects ⟨12⟩).run s).result.toOption = some [letter.message ⟨12⟩] ∧
      ((SendLog.entries redirects ⟨1⟩).run s').result.toOption = some [letter.message ⟨1⟩] := by
  intro redirects letter s s'
  have hne : redirects.follow ⟨12⟩ ≠ redirects.follow ⟨3⟩ := by decide +kernel
  have hst : Store.sendLog ∈ Store.all {} := by decide
  have hd : (Deed.insert letter).expires = false := rfl
  have hrest := deeds_change_nothing_else Memory.faithful.ordered hst hd redirects ⟨3⟩ s
  have hletters := (hrest.2.1 .sendLog (by decide) .letters redirects ⟨12⟩ fun _ => ⟨rfl, hne⟩).2
    (.inl Memory.steady)
  exact ⟨hst, hd, hne, hletters, by decide +kernel, by decide +kernel⟩

end PeerBook
