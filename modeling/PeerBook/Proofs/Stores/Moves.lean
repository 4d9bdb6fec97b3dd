import PeerBook.Proofs.Stores.Batches

/-!
# PeerBook.Proofs.Stores.Moves

What the writes of a merge are. Whatever a store has, they remove keys of the
absorbed peer and put keys of the survivor (`Store.batch_carries`), so what is
left under the keys of the absorbed peer is decided by the removals alone
(`Store.get?_applyAll_absorbed`). In a well-written store there is always a
batch (`Store.Written.batch_ok`), and it puts records of the survivor
(`Store.Written.batch_admits`).

The lemmas with `eq_ok` and `mem` open the batch of each store once and say what
writes are in it; what comes after is said of all stores. Nothing here depends on
the order of the writes, which is the subject of
`PeerBook.Proofs.Stores.CutShort`.
-/

namespace PeerBook

variable {c : Contents} {surviving absorbed : PeerId} {keys : List String} {ws : List Write}

namespace Store

/-- The writes of a merge: keys of the absorbed peer go, keys of the survivor come. -/
def Carries (st : Store) (surviving absorbed : PeerId) : Write → Prop
  | .put key _ => st.Holds surviving key
  | .del key => st.Holds absorbed key

end Store

namespace Sessions

/-- A session goes, and comes as it was under the key of the survivor or not at all. Of one whose
key names no device only the removal is written. -/
theorem move_eq_ok {source : String} (h : move c surviving source = .ok ws) :
    ∃ rest, ws = .del source :: rest ∧ ∀ w ∈ rest, ∃ device raw, deviceOf? source = some device ∧
      c.get? source = some raw ∧ w = .put (key surviving device) raw := by
  unfold move at h
  split at h
  · exact ⟨[], (Except.ok.inj h).symm, nofun⟩
  · rename_i device hd
    split at h
    · exact ⟨[], (Except.ok.inj h).symm, nofun⟩
    · rename_i raw hraw
      obtain ⟨existing, -, he⟩ := bind_eq_ok_iff.mp h
      refine ⟨_, (Except.ok.inj he).symm, fun w hw => ?_⟩
      split at hw
      · contradiction
      · exact ⟨device, raw, hd, hraw, List.mem_singleton.mp hw⟩

/-- The batch is the writes of all moves. -/
theorem mem_batch_iff (h : batch c surviving keys = .ok ws) {w : Write} :
    w ∈ ws ↔ ∃ k ∈ keys, ∃ ws', move c surviving k = .ok ws' ∧ w ∈ ws' := by
  obtain ⟨moves, hg, rfl⟩ := map_eq_ok_iff.mp h
  obtain ⟨-, hmem⟩ := Contents.gather_eq_ok hg
  simp only [List.mem_flatten, hmem, map_eq_ok_iff, Option.some.injEq]
  grind

/-- All moves are known where there is a batch. -/
theorem move_ok_of_batch (h : batch c surviving keys = .ok ws) {k : String} (hk : k ∈ keys) :
    ∃ ws', move c surviving k = .ok ws' := by
  obtain ⟨moves, hg, -⟩ := map_eq_ok_iff.mp h
  obtain ⟨ws?, hm⟩ := (Contents.gather_eq_ok hg).1 k hk
  obtain ⟨ws', hm, -⟩ := map_eq_ok_iff.mp hm
  exact ⟨ws', hm⟩

end Sessions

namespace SendLog

/-- The entries found in the log are those that can be read under the keys. -/
theorem mem_found_iff {found : List SentMessage} (h : SendLog.found c keys = .ok found)
    {m : SentMessage} : m ∈ found ↔ ∃ k ∈ keys, c.json? SentMessage.ofJson k = .ok (some m) := by
  obtain ⟨found', hg, rfl⟩ := map_eq_ok_iff.mp h
  rw [List.mem_mergeSort, (Contents.gather_eq_ok hg).2]

/-- An entry of the log moves by a removal under its own name and a write for the survivor. -/
theorem mem_moves_iff {found : List SentMessage} {w : Write} :
    w ∈ moves surviving absorbed found ↔ ∃ m ∈ found, w = .del (key absorbed m.id) ∨
      w = .put (key surviving m.id) { m with peer := surviving }.toJson.compact := by
  simp [moves]

end SendLog

namespace MessageCache

theorem readable?_eq (c : Contents) (k : String) :
    readable? c k = (c.json? CachedMessage.ofJson k).toOption.join := by
  unfold readable? Contents.json?
  cases c.get? k with
  | none => rfl
  | some raw =>
      cases hd : Json.decode CachedMessage.ofJson raw <;> simp [hd, Except.toOption, Except.map]

/-- An entry of a cache was found where its text stands for it. -/
theorem readable?_eq_some {k : String} {m : CachedMessage} :
    readable? c k = some m ↔ c.json? CachedMessage.ofJson k = .ok (some m) := by
  rw [readable?_eq]
  rcases c.json? CachedMessage.ofJson k with e | _ | m' <;> simp [Except.toOption]

/-- The entries found in a cache are those that can be read under the keys. -/
theorem mem_found_iff {m : CachedMessage} :
    m ∈ found c keys ↔ ∃ k ∈ keys, c.json? CachedMessage.ofJson k = .ok (some m) := by
  simp only [found, List.mem_mergeSort, List.mem_filterMap, readable?_eq_some]

/-- An entry of a cache moves by a removal under its own name and a write for the survivor. -/
theorem mem_moves_iff {cache : MessageCache} {found : List CachedMessage} {w : Write} :
    w ∈ cache.moves surviving absorbed found ↔ ∃ m ∈ found, w = .del (cache.key absorbed m.id) ∨
      w = .put (cache.key surviving m.id) { m with peer := surviving }.toJson.compact := by
  simp [moves]

end MessageCache

namespace Profiles

/-- The profiles write nothing where the absorbed peer has no entry, and else fill the survivor's
gaps and remove that entry. -/
theorem batch_eq_ok (h : batch c surviving absorbed = .ok ws) :
    c.json? ProfileEntry.ofJson (key absorbed) = .ok none ∧ ws = [] ∨
      ∃ theirs mine, c.json? ProfileEntry.ofJson (key absorbed) = .ok (some theirs) ∧
        c.json? ProfileEntry.ofJson (key surviving) = .ok mine ∧
        ws = [.put (key surviving) ((mine.map (·.or theirs)).getD theirs).toJson.compact,
          .del (key absorbed)] := by
  obtain ⟨theirs, ht, h⟩ := bind_eq_ok_iff.mp h
  cases theirs with
  | none => exact .inl ⟨ht, (Except.ok.inj h).symm⟩
  | some theirs =>
      obtain ⟨mine, hm, h⟩ := bind_eq_ok_iff.mp h
      exact .inr ⟨theirs, mine, ht, hm, (Except.ok.inj h).symm⟩

end Profiles

namespace Preferences

/-- The preferences fill the survivor's gaps where the absorbed peer has settings, and move the mark
in any case. -/
theorem batch_eq_ok (h : batch c surviving absorbed = .ok ws) :
    ∃ settings : List Write,
      ws = settings ++ [.put (syncKey surviving) mark, .del (syncKey absorbed)] ∧
      (c.json? ofJson (key absorbed) = .ok none ∧ settings = [] ∨
        ∃ theirs mine, c.json? ofJson (key absorbed) = .ok (some theirs) ∧
          stored c surviving = .ok mine ∧
          settings = [.put (key surviving) (mine.or theirs).toJson.compact,
            .del (key absorbed)]) := by
  obtain ⟨theirs, ht, h⟩ := bind_eq_ok_iff.mp h
  cases theirs with
  | none => exact ⟨[], (Except.ok.inj h).symm, .inl ⟨ht, rfl⟩⟩
  | some theirs =>
      obtain ⟨mine, hm, h⟩ := bind_eq_ok_iff.mp h
      exact ⟨_, (Except.ok.inj h).symm, .inr ⟨theirs, mine, ht, hm, rfl⟩⟩

end Preferences

namespace Identities

/-- The identities remove the key of the absorbed peer, and put its text under that of the
survivor. -/
theorem mem_batch {w : Write} (h : w ∈ batch c surviving absorbed) :
    w = .del (key absorbed) ∨
      ∃ raw, c.get? (key absorbed) = some raw ∧ w = .put (key surviving) raw := by
  unfold batch at h
  cases hr : c.get? (key absorbed) with
  | none => simp [hr] at h
  | some raw =>
      rw [hr] at h
      rcases List.mem_cons.mp h with rfl | h
      · exact .inl rfl
      · split at h
        · exact .inr ⟨raw, rfl, List.mem_singleton.mp h⟩
        · contradiction

end Identities

namespace Store

variable {st : Store}

/-- **A merge touches no other peer**: its writes remove keys of the absorbed peer and put keys of
the survivor. -/
theorem batch_carries (hk : st.Held c absorbed keys)
    (h : st.batch c surviving absorbed keys = .ok ws) :
    ∀ w ∈ ws, st.Carries surviving absorbed w := by
  intro w hw
  cases st with
  | sessions =>
      obtain ⟨k, hks, ws', hm, hw⟩ := (Sessions.mem_batch_iff h).mp hw
      obtain ⟨rest, rfl, hrest⟩ := Sessions.move_eq_ok hm
      rcases List.mem_cons.mp hw with rfl | hw
      · exact ((hk k).mp hks).2
      · obtain ⟨device, raw, -, -, rfl⟩ := hrest w hw
        exact Text.hasPrefix_append _ _
  | identities =>
      obtain rfl := Except.ok.inj h
      obtain rfl | ⟨raw, -, rfl⟩ := Identities.mem_batch hw
      · rfl
      · rfl
  | profiles =>
      obtain ⟨-, rfl⟩ | ⟨theirs, mine, -, -, rfl⟩ := Profiles.batch_eq_ok h
      · contradiction
      · simp only [List.mem_cons, List.not_mem_nil, or_false] at hw
        rcases hw with rfl | rfl <;> rfl
  | sendLog =>
      obtain ⟨found, -, rfl⟩ := map_eq_ok_iff.mp h
      obtain ⟨m, -, rfl | rfl⟩ := SendLog.mem_moves_iff.mp hw <;>
        exact Text.hasPrefix_append _ _
  | messages cache =>
      obtain rfl := Except.ok.inj h
      obtain ⟨m, -, rfl | rfl⟩ := MessageCache.mem_moves_iff.mp hw <;>
        exact Text.hasPrefix_append _ _
  | preferences =>
      obtain ⟨settings, rfl, hs⟩ := Preferences.batch_eq_ok h
      rcases List.mem_append.mp hw with hw | hw
      · obtain ⟨-, rfl⟩ | ⟨theirs, mine, -, -, rfl⟩ := hs
        · contradiction
        · simp only [List.mem_cons, List.not_mem_nil, or_false] at hw
          rcases hw with rfl | rfl <;> exact .inl rfl
      · simp only [List.mem_cons, List.not_mem_nil, or_false] at hw
        rcases hw with rfl | rfl <;> exact .inr rfl

/-- The writes of a merge are about keys of the store. -/
theorem Carries.keeps {w : Write} (h : st.Carries surviving absorbed w) : st.Keeps w.key := by
  cases w with
  | put key value => exact Holds.keeps (a := surviving) h
  | del key => exact Holds.keeps (a := absorbed) h

/-- What is written under a key of the absorbed peer is a removal. -/
theorem Carries.eq_del {w : Write} (h : st.Carries surviving absorbed w) {key : String}
    (hne : surviving ≠ absorbed) (hk : st.Holds absorbed key) (hw : w.key = key) :
    w = .del key := by
  cases w with
  | del k => rw [← hw]; rfl
  | put k value =>
      obtain rfl : k = key := hw
      exact absurd (Holds.unique h hk) hne

/-- What is written under a key of the survivor is a value. -/
theorem Carries.exists_put {w : Write} (h : st.Carries surviving absorbed w) {key : String}
    (hne : surviving ≠ absorbed) (hk : st.Holds surviving key) (hw : w.key = key) :
    ∃ value, w = .put key value := by
  cases w with
  | put k value => exact ⟨value, by rw [← hw]; rfl⟩
  | del k =>
      obtain rfl : k = key := hw
      exact absurd (Holds.unique hk h) hne

/-- What others hold is not written. -/
theorem Carries.key_ne {w : Write} (h : st.Carries surviving absorbed w) {peer : PeerId}
    {key : String} (hk : st.Holds peer key) (hs : peer ≠ surviving) (ha : peer ≠ absorbed) :
    w.key ≠ key := by
  rintro rfl
  cases w with
  | put key' value => exact hs (hk.unique h)
  | del key' => exact ha (hk.unique h)

/-- Removals decide what is left under the keys of the absorbed peer, in whatever order the writes
come: no write puts anything there. -/
theorem get?_applyAll_absorbed (hw : ∀ w ∈ ws, st.Carries surviving absorbed w)
    (hne : surviving ≠ absorbed) {key : String} (hk : st.Holds absorbed key) :
    (c.applyAll ws).get? key = if .del key ∈ ws then none else c.get? key := by
  have hdel (w : Write) (hm : w ∈ ws) (he : w.key = key) : w = .del key :=
    (hw w hm).eq_del hne hk he
  rw [Contents.get?_applyAll (v := none) c ws fun w hm he => by rw [hdel w hm he]; rfl]
  have hmem : key ∈ ws.map Write.key ↔ .del key ∈ ws := by
    rw [List.mem_map]
    constructor
    · rintro ⟨w, hm, he⟩
      exact hdel w hm he ▸ hm
    · intro hm
      exact ⟨_, hm, rfl⟩
  simp only [hmem]

/-! ## Batches of well-written stores -/

/-- The entries that are found in a well-written log are letters to the peer. -/
theorem Written.letter_of_json? {live : PeerId → Prop} (h : sendLog.Written live c) {k : String}
    (hk : sendLog.Holds absorbed k) {m : SentMessage}
    (hm : c.json? SentMessage.ofJson k = .ok (some m)) :
    ∃ l : Letter, k = SendLog.key absorbed l.id ∧ m = l.message absorbed := by
  obtain ⟨raw, hraw, hd⟩ := Contents.json?_eq_ok.mp hm
  obtain ⟨l, hkey, -, hd'⟩ := h.sent hk hraw
  exact ⟨l, hkey, Except.ok.inj (hd.symm.trans hd')⟩

/-- The entries that are found in a well-written cache are envelopes of the peer. -/
theorem Written.envelope_of_json? {cache : MessageCache} {live : PeerId → Prop}
    (h : (messages cache).Written live c) {k : String} (hk : (messages cache).Holds absorbed k)
    {m : CachedMessage} (hm : c.json? CachedMessage.ofJson k = .ok (some m)) :
    ∃ e : Envelope, k = cache.key absorbed e.id ∧ m = e.message absorbed := by
  obtain ⟨raw, hraw, hd⟩ := Contents.json?_eq_ok.mp hm
  obtain ⟨e, hkey, -, hd'⟩ := h.cached hk hraw
  exact ⟨e, hkey, Except.ok.inj (hd.symm.trans hd')⟩

/-- Every entry of a well-written log can be read. -/
theorem Written.found {live : PeerId → Prop} (h : sendLog.Written live c)
    (hk : ∀ k ∈ keys, (∃ v, c.get? k = some v) ∧ ∃ peer, sendLog.Holds peer k) :
    ∃ found, SendLog.found c keys = .ok found := by
  obtain ⟨found, hf⟩ := Contents.exists_gather (f := c.json? SentMessage.ofJson) fun k hks => by
    obtain ⟨⟨v, hv⟩, peer, hh⟩ := hk k hks
    obtain ⟨l, -, -, hd⟩ := h.sent hh hv
    exact ⟨_, Contents.json?_of_decode hv hd⟩
  simp [SendLog.found, hf, Except.map]

/-- **In a well-written store there is always a batch**: all that a merge has to read can be
read. -/
theorem Written.batch_ok {live : PeerId → Prop} (h : st.Written live c)
    (hk : st.Held c absorbed keys) (surviving : PeerId) :
    ∃ ws, st.batch c surviving absorbed keys = .ok ws := by
  cases st with
  | sessions =>
      have hmove (k : String) : ∃ ws?, (Sessions.move c surviving k).map some = .ok ws? := by
        unfold Sessions.move
        split
        · exact ⟨_, rfl⟩
        · rename_i device _
          split
          · exact ⟨_, rfl⟩
          · obtain ⟨existing, he⟩ := h.session surviving device
            simp [he, bind, Except.bind, pure, Except.pure, Except.map]
      obtain ⟨moves, hm⟩ := Contents.exists_gather fun k (_ : k ∈ keys) => hmove k
      exact ⟨moves.flatten, map_eq_ok_iff.mpr ⟨moves, hm, rfl⟩⟩
  | identities => exact ⟨_, rfl⟩
  | profiles =>
      obtain ⟨theirs, ht⟩ := h.portrait absorbed
      obtain ⟨mine, hm⟩ := h.portrait surviving
      cases theirs <;> simp [batch, Profiles.batch, ht, hm, bind, Except.bind, pure, Except.pure]
  | sendLog =>
      obtain ⟨found, hf⟩ := h.found fun k hks =>
        ⟨((hk k).mp hks).1, absorbed, ((hk k).mp hks).2⟩
      simp [batch, hf, Except.map]
  | messages cache => exact ⟨_, rfl⟩
  | preferences =>
      obtain ⟨theirs, ht⟩ := h.settings absorbed
      obtain ⟨mine, hm⟩ := h.settings surviving
      cases theirs <;> simp [batch, Preferences.batch, Preferences.stored, ht, hm, bind,
        Except.bind, pure, Except.pure, Except.map]

/-- **The batch of a well-written store puts records of the survivor** and removes keys, so the
store stays well written wherever the batch is cut short. -/
theorem Written.batch_admits {live : PeerId → Prop} (h : st.Written live c)
    (hk : st.Held c absorbed keys) (hb : st.batch c surviving absorbed keys = .ok ws) :
    ∀ w ∈ ws, st.Admits (· = surviving) w := by
  intro w hw
  have hcarry := batch_carries hk hb w hw
  cases w with
  | del key => exact hcarry.keeps
  | put key value =>
      cases st with
      | sessions =>
          obtain ⟨k, hks, ws', hm, hw⟩ := (Sessions.mem_batch_iff hb).mp hw
          obtain ⟨rest, rfl, hrest⟩ := Sessions.move_eq_ok hm
          obtain ⟨device, raw, -, hraw, ⟨⟩⟩ := hrest _ ((List.mem_cons.mp hw).resolve_left nofun)
          obtain ⟨-, r, -, rfl⟩ := h.of_holds ((hk k).mp hks).2 hraw
          cases r with
          | session device' s => exact ⟨surviving, .session device s, rfl, rfl, rfl⟩
      | identities =>
          obtain rfl := Except.ok.inj hb
          obtain ⟨raw, hraw, ⟨⟩⟩ := (Identities.mem_batch hw).resolve_left nofun
          obtain ⟨-, r, -, rfl⟩ := h.of_holds rfl hraw
          cases r with
          | identity i => exact ⟨surviving, .identity i, rfl, rfl, rfl⟩
      | profiles =>
          obtain ⟨-, rfl⟩ | ⟨theirs, mine, ht, hm, rfl⟩ := Profiles.batch_eq_ok hb
          · contradiction
          · obtain ⟨rfl, rfl⟩ : key = _ ∧ value = _ := by simpa using hw
            obtain ⟨p?, hp⟩ := h.portrait absorbed
            obtain ⟨q?, hq⟩ := h.portrait surviving
            obtain rfl := Except.ok.inj (hm.symm.trans hq)
            obtain ⟨p, rfl, rfl⟩ := Option.map_eq_some_iff.mp (Except.ok.inj (hp.symm.trans ht))
            refine ⟨surviving, .profile ((q?.map (·.or p)).getD p), rfl, rfl, ?_⟩
            cases q? <;> simp [Record.text, Portrait.entry_or]
      | sendLog =>
          obtain ⟨found, hf, rfl⟩ := map_eq_ok_iff.mp hb
          obtain ⟨m, hm, hw⟩ := SendLog.mem_moves_iff.mp hw
          obtain ⟨k, hks, hj⟩ := (SendLog.mem_found_iff hf).mp hm
          obtain ⟨l, -, rfl⟩ := h.letter_of_json? ((hk k).mp hks).2 hj
          obtain ⟨rfl, rfl⟩ : key = _ ∧ value = _ := by simpa using hw
          exact ⟨surviving, .sent l, rfl, rfl, rfl⟩
      | messages cache =>
          obtain rfl := Except.ok.inj hb
          obtain ⟨m, hm, hw⟩ := MessageCache.mem_moves_iff.mp hw
          obtain ⟨k, hks, hj⟩ := MessageCache.mem_found_iff.mp hm
          obtain ⟨e, -, rfl⟩ := h.envelope_of_json? ((hk k).mp hks).2 hj
          obtain ⟨rfl, rfl⟩ : key = _ ∧ value = _ := by simpa using hw
          exact ⟨surviving, .cached e, rfl, rfl, rfl⟩
      | preferences =>
          obtain ⟨settings, rfl, hs⟩ := Preferences.batch_eq_ok hb
          rcases List.mem_append.mp hw with hw | hw
          · obtain ⟨-, rfl⟩ | ⟨theirs, mine, -, -, rfl⟩ := hs
            · contradiction
            · obtain ⟨rfl, rfl⟩ : key = _ ∧ value = _ := by simpa using hw
              exact ⟨surviving, .settings (mine.or theirs), rfl, rfl, rfl⟩
          · obtain ⟨rfl, rfl⟩ : key = _ ∧ value = _ := by simpa using hw
            exact ⟨surviving, .mark, rfl, rfl, rfl⟩

end Store

end PeerBook
