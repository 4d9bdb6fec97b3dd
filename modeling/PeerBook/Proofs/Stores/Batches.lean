import PeerBook.Proofs.Stores.Records

/-!
# PeerBook.Proofs.Stores.Batches

What a store hands over when it follows a merge, as a function of the content
and of the order in which the keys of the absorbed peer are listed
(`Store.batch`, `Store.merge_submits`). The functions follow the stores step by
step, so what holds of them holds of the stores on every storage from which a
content can be read.

The stores themselves are programs that read and write; each batch here is a
value of `Except`, with an error where something that has to be read cannot be.
Listings come in any order, so the keys are an argument (`Store.Held`), and what
is proved of batches does not depend on it. Later modules speak of batches only.
-/

namespace PeerBook

open Contents (gather)

/-! ## The batch of each store -/

/-- The writes that move one session of the absorbed peer. -/
def Sessions.move (c : Contents) (surviving : PeerId) (source : String) :
    Except Error (List Write) :=
  match deviceOf? source with
  | none => .ok [.del source]
  | some device =>
    match c.get? source with
    | none => .ok [.del source]
    | some raw => do
      let existing ← c.json? StoredSession.ofJson (key surviving device)
      return .del source ::
        if existing.any (·.live) then [] else [.put (key surviving device) raw]

/-- The writes that move sessions. -/
def Sessions.batch (c : Contents) (surviving : PeerId) (keys : List String) :
    Except Error (List Write) :=
  (gather (fun k => (move c surviving k).map some) keys).map List.flatten

/-- The writes that move an identity. -/
def Identities.batch (c : Contents) (surviving absorbed : PeerId) : List Write :=
  match c.get? (key absorbed) with
  | none => []
  | some raw =>
    .del (key absorbed) :: if (c.get? (key surviving)).isNone then [.put (key surviving) raw] else []

/-- The writes that fill the gaps of an entry. -/
def Profiles.batch (c : Contents) (surviving absorbed : PeerId) : Except Error (List Write) := do
  match ← c.json? ProfileEntry.ofJson (key absorbed) with
  | none => return []
  | some theirs =>
    let mine ← c.json? ProfileEntry.ofJson (key surviving)
    let merged := (mine.map (·.or theirs)).getD theirs
    return [.put (key surviving) merged.toJson.compact, .del (key absorbed)]

/-- The writes that move entries of the log. -/
def SendLog.moves (surviving absorbed : PeerId) (found : List SentMessage) : List Write :=
  found.flatMap fun m =>
    [.del (key absorbed m.id),
      .put (key surviving m.id) { m with peer := surviving }.toJson.compact]

/-- The entries under keys, by time and device. -/
def SendLog.found (c : Contents) (keys : List String) : Except Error (List SentMessage) :=
  (gather (c.json? SentMessage.ofJson) keys).map (·.mergeSort SentMessage.le)

/-- The entry under a key, if it can be read. -/
def MessageCache.readable? (c : Contents) (key : String) : Option CachedMessage :=
  (c.get? key).bind fun raw => (Json.decode CachedMessage.ofJson raw).toOption

/-- The entries under keys that can be read, by the time of their arrival. -/
def MessageCache.found (c : Contents) (keys : List String) : List CachedMessage :=
  (keys.filterMap (readable? c)).mergeSort CachedMessage.le

/-- The writes that move entries of a cache. -/
def MessageCache.moves (cache : MessageCache) (surviving absorbed : PeerId)
    (found : List CachedMessage) : List Write :=
  found.flatMap fun m =>
    [.del (cache.key absorbed m.id),
      .put (cache.key surviving m.id) { m with peer := surviving }.toJson.compact]

/-- The settings under the key of a peer. -/
def Preferences.stored (c : Contents) (peer : PeerId) : Except Error Preferences :=
  (c.json? ofJson (key peer)).map (·.getD .empty)

/-- The writes that fill the gaps of settings and move a mark. -/
def Preferences.batch (c : Contents) (surviving absorbed : PeerId) :
    Except Error (List Write) := do
  let marks : List Write := [.put (syncKey surviving) mark, .del (syncKey absorbed)]
  match ← c.json? ofJson (key absorbed) with
  | none => return marks
  | some theirs =>
    let mine ← stored c surviving
    return [.put (key surviving) (mine.or theirs).toJson.compact, .del (key absorbed)] ++ marks

namespace Store

/-- The batch of a store, given the keys of the absorbed peer in some order. -/
def batch (st : Store) (c : Contents) (surviving absorbed : PeerId) (keys : List String) :
    Except Error (List Write) :=
  match st with
  | sessions => Sessions.batch c surviving keys
  | identities => .ok (Identities.batch c surviving absorbed)
  | profiles => Profiles.batch c surviving absorbed
  | sendLog => (SendLog.found c keys).map (SendLog.moves surviving absorbed)
  | messages cache => .ok (cache.moves surviving absorbed (MessageCache.found c keys))
  | preferences => Preferences.batch c surviving absorbed

/-- The keys that a peer holds, in some order. -/
def Held (st : Store) (c : Contents) (peer : PeerId) (keys : List String) : Prop :=
  ∀ k, k ∈ keys ↔ (∃ v, c.get? k = some v) ∧ st.Holds peer k

theorem exists_held (st : Store) (c : Contents) (peer : PeerId) :
    ∃ keys, st.Held c peer keys := by
  classical
  refine ⟨c.keys.filter fun k => st.Holds peer k, fun k => ?_⟩
  rw [List.mem_filter, Table.mem_keys_iff, decide_eq_true_iff]

end Store

/-! ## The batch is what is handed over -/

section

variable {σ : Type} [Storage σ] {contents : σ → Contents} {c : Contents}
  {surviving absorbed : PeerId}

/-- The writes that move one session are those that the content says: its removal, and a write for
the survivor unless that has a live session of the device. -/
theorem Sessions.mergeKey_views (hs : Storage.Legible contents) (source : String) :
    (mergeKey surviving absorbed source : Op σ _).Views contents c
      (· = move c surviving source) := by
  unfold mergeKey move
  cases deviceOf? source with
  | none => exact .pure _
  | some device =>
      refine (Op.Views.get hs source).bind (fun raw hraw => ?_) nofun
      obtain rfl := Except.ok.inj hraw
      cases c.get? source with
      | none => exact .pure _
      | some raw =>
          refine (Op.Views.getJson hs _ _).eq_bind fun existing _ => ?_
          split
          · exact (Op.Views.note _ _).eq_bind fun _ _ => .pure _
          · exact .pure _

/-- The entries of the log under the keys of a peer are those found in the content, or reading fails
for one that cannot be read. -/
theorem SendLog.entriesUnder_views (hs : Storage.Legible contents) {peer : PeerId}
    {P : List String → Prop}
    (hlist : (Storage.list (peerPrefix peer) : Op σ _).Reads contents c P) :
    (entriesUnder peer : Op σ _).Views contents c fun r => ∃ keys, P keys ∧ r = found c keys := by
  refine (Op.Views.of_reads hlist).bind (fun keys hkeys => ?_) nofun
  obtain ⟨_, ⟨⟩, hkeys⟩ := hkeys
  exact ((Op.Views.collect (Op.Views.getJson hs _) keys).eq_bind fun found _ =>
    Op.Views.pure (found.mergeSort SentMessage.le)).mono fun r hr => ⟨keys, hkeys, hr⟩

/-- The entries of a cache under the keys of a peer are those found in the content; what cannot be
read is passed over. -/
theorem MessageCache.entriesUnder_views (hs : Storage.Legible contents) {cache : MessageCache}
    {peer : PeerId} {P : List String → Prop}
    (hlist : (Storage.list (cache.peerPrefix peer) : Op σ _).Reads contents c P) :
    (cache.entriesUnder peer : Op σ _).Views contents c fun r =>
      ∃ keys, P keys ∧ r = .ok (found c keys) := by
  refine (Op.Views.of_reads hlist).bind (fun keys hkeys => ?_) nofun
  obtain ⟨_, ⟨⟩, hkeys⟩ := hkeys
  refine ((Op.Views.collect (g := fun k => .ok (readable? c k)) (fun k => ?_) keys).eq_bind
    fun found _ => Op.Views.pure (found.mergeSort CachedMessage.le)).mono fun r hr =>
      ⟨keys, hkeys, ?_⟩
  · refine (Op.Views.get hs k).bind (fun raw hraw => ?_) nofun
    obtain rfl := Except.ok.inj hraw
    unfold readable?
    cases c.get? k with
    | none => exact .pure none
    | some raw =>
        dsimp only [Option.bind_some]
        cases Json.decode CachedMessage.ofJson raw with
        | ok m => exact .pure (some m)
        | error e => exact (Op.Views.note _ _).eq_bind fun _ _ => .pure none
  · rw [hr, Contents.gather_of_ok fun k _ => rfl]
    rfl

end

namespace Store

variable {σ : Type} [Storage σ] {contents : σ → Contents} {c : Contents} {st : Store}
  {surviving absorbed : PeerId} {keys : List String} {ws : List Write}

/-- Where the keys with a prefix are those that a peer holds, listing them lists what it holds. -/
theorem held_of_lists {st : Store} {keyPrefix : String} (h : c.Lists keyPrefix keys)
    (hp : ∀ k, st.Holds absorbed k ↔ Text.hasPrefix keyPrefix k = true) :
    st.Held c absorbed keys := by
  intro k
  rw [h.mem_iff, hp]

/-- **A store hands over its batch** when it follows a merge, or fails for what it cannot read. The
proof follows the program of each store; afterwards only batches are spoken of. -/
theorem merge_submits (hs : Storage.Legible contents) (st : Store) (surviving absorbed : PeerId) :
    (st.merge surviving absorbed : Op σ Unit).Submits contents c fun r =>
      ∃ keys, st.Held c absorbed keys ∧ r = st.batch c surviving absorbed keys := by
  have hany {op : Op σ Unit} {r : Except Error (List Write)}
      (hr : ∀ keys, st.batch c surviving absorbed keys = r) (h : op.Submits contents c (· = r)) :
      op.Submits contents c fun r =>
        ∃ keys, st.Held c absorbed keys ∧ r = st.batch c surviving absorbed keys := by
    obtain ⟨keys, hk⟩ := st.exists_held c absorbed
    exact h.mono fun _ he => ⟨keys, hk, he.trans (hr keys).symm⟩
  cases st with
  | sessions =>
      refine .bind (.of_reads (hs.list c _)) (fun keys hkeys => ?_) nofun
      obtain ⟨_, ⟨⟩, hkeys⟩ := hkeys
      have hmove (k : String) : (Sessions.mergeKey surviving absorbed k : Op σ _).Views contents c
          (· = Sessions.move c surviving k) := Sessions.mergeKey_views hs k
      have hmoves := Op.Views.collect (fun k => (hmove k).eq_map some) keys
      exact (Op.Submits.eq_map hmoves List.flatten).mono fun r hr =>
        ⟨keys, held_of_lists hkeys fun _ => Iff.rfl, hr⟩
  | identities =>
      refine hany (fun _ => rfl) (.bind (.get hs _) (fun raw hraw => ?_) nofun)
      obtain rfl := Except.ok.inj hraw
      unfold Identities.batch
      cases c.get? (Identities.key absorbed) with
      | none => exact .nothing
      | some raw =>
          refine .bind (.get hs _) (fun existing hex => ?_) nofun
          obtain rfl := Except.ok.inj hex
          exact .writeBatch _
  | profiles =>
      refine hany (fun _ => rfl) (.eq_bind (.getJson hs _ _) fun theirs _ => ?_)
      cases theirs with
      | none => exact .nothing
      | some theirs =>
          refine .eq_bind (.getJson hs _ _) fun mine _ => ?_
          cases mine <;> exact .writeBatch _
  | sendLog =>
      refine .bind (SendLog.entriesUnder_views hs (hs.list c _)) ?_ ?_
      · rintro found ⟨keys, hkeys, hf⟩
        refine (Op.Submits.writeBatch (SendLog.moves surviving absorbed found)).mono fun r hr =>
          ⟨keys, held_of_lists hkeys fun _ => Iff.rfl, ?_⟩
        rw [hr, batch, ← hf]
        rfl
      · rintro e ⟨keys, hkeys, hf⟩
        refine ⟨keys, held_of_lists hkeys fun _ => Iff.rfl, ?_⟩
        rw [batch, ← hf]
        rfl
  | messages cache =>
      refine .bind (MessageCache.entriesUnder_views hs (hs.list c _)) ?_ ?_
      · rintro found ⟨keys, hkeys, hf⟩
        obtain rfl := Except.ok.inj hf
        exact (Op.Submits.writeBatch _).mono fun r hr =>
          ⟨keys, held_of_lists hkeys fun _ => Iff.rfl, hr⟩
      · rintro e ⟨keys, hkeys, hf⟩
        cases hf
  | preferences =>
      refine hany (fun _ => rfl) (.eq_bind (.getJson hs _ _) fun theirs _ => ?_)
      cases theirs with
      | none => exact .writeBatch _
      | some theirs =>
          have hload : (Preferences.load surviving : Op σ _).Views contents c
              (· = Preferences.stored c surviving) :=
            (Op.Views.getJson hs _ _).eq_bind fun _ _ => .pure _
          exact .eq_bind hload fun mine _ => .writeBatch _

end Store

end PeerBook
