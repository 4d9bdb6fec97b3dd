import PeerBook.Proofs.Stores.Items
import PeerBook.Proofs.Stores.Episodes

/-!
# PeerBook.Proofs.Stores.CutShort

Merges of a store that are cut short. A batch that is made one write after
another may stop anywhere, and an item that was removed by then and not yet put
under its new key is in transit (`Item.InTransit`). What is in transit is lost,
and nothing else is (`Item.Moved.kept_iff`).

The order of the writes decides whether that can happen (`Store.removesFirst`):

    sessions, identities, send log, caches    remove, then put    may lose the item
    profiles, preferences                     put, then remove    never lose it

Which kind of write comes first is a property of lists (`Leads`), closed under
what batches are made of: single writes, blocks of writes, and appending. So for
each store it is enough to look at the block of one item (`removal_leads`,
`put_leads`), and a point at which the batch may stop between the two is found in
the whole (`Leads.exists_cut`).
-/

namespace PeerBook

/-! ## The order of writes -/

namespace Write

/-- A write that puts something under a key. -/
def Puts (key : String) (w : Write) : Prop := ∃ value, w = .put key value

/-- Wherever a batch is cut, no write of the second kind was made before one of the first. -/
def Leads (P Q : Write → Prop) (ws : List Write) : Prop :=
  ∀ made, made <+: ws → (∃ w ∈ made, Q w) → ∃ w ∈ made, P w

namespace Leads

variable {P Q : Write → Prop} {w : Write} {ws ws' : List Write}

/-- A leading write at the front leads whatever comes after it. -/
theorem cons (hw : P w) : Leads P Q (w :: ws) := by
  rintro made hm ⟨w', hw', -⟩
  cases made with
  | nil => contradiction
  | cons v made =>
      obtain ⟨rfl, -⟩ := List.cons_prefix_cons.mp hm
      exact ⟨v, List.mem_cons_self, hw⟩

/-- Where nothing is to be led nothing needs to lead. -/
theorem of_not (h : ∀ w ∈ ws, ¬Q w) : Leads P Q ws := by
  rintro made hm ⟨w, hw, hQ⟩
  exact absurd hQ (h w (hm.subset hw))

/-- Two lists of writes one after the other lead if both do. -/
theorem append (h : Leads P Q ws) (h' : Leads P Q ws') : Leads P Q (ws ++ ws') := by
  rintro made hm ⟨w, hw, hQ⟩
  rcases List.prefix_or_prefix_of_prefix hm (List.prefix_append ws ws') with hcut | ⟨rest, rfl⟩
  · exact h made hcut ⟨w, hw, hQ⟩
  · rcases List.mem_append.mp hw with hw | hw
    · obtain ⟨v, hv, hP⟩ := h ws List.prefix_rfl ⟨w, hw, hQ⟩
      exact ⟨v, List.mem_append_left _ hv, hP⟩
    · obtain ⟨v, hv, hP⟩ := h' rest ((List.prefix_append_right_inj ws).mp hm) ⟨w, hw, hQ⟩
      exact ⟨v, List.mem_append_right _ hv, hP⟩

/-- Blocks of writes lead if each of them does. -/
theorem flatten {blocks : List (List Write)} (h : ∀ ws ∈ blocks, Leads P Q ws) :
    Leads P Q blocks.flatten := by
  induction blocks with
  | nil => exact of_not nofun
  | cons ws blocks ih =>
      rw [List.forall_mem_cons] at h
      exact h.1.append (ih h.2)

/-- Right after the first time that a leading write is made, what it leads is not yet made. This is
the moment at which something can be in transit. -/
theorem exists_cut (h : Leads (· = w) Q ws) (hw : w ∈ ws) (hn : ¬Q w) :
    ∃ n, w ∈ ws.take n ∧ ∀ v ∈ ws.take n, ¬Q v := by
  obtain ⟨before, rest, rfl, hfirst⟩ := List.eq_append_cons_of_mem hw
  have hcut : (before ++ w :: rest).take (before.length + 1) = before ++ [w] := by
    rw [List.take_append, List.take_of_length_le (Nat.le_succ _)]
    simp
  refine ⟨before.length + 1, by simp [hcut], fun v hv hQ => ?_⟩
  rw [hcut, List.mem_append, List.mem_singleton] at hv
  rcases hv with hv | rfl
  · obtain ⟨_, hm, rfl⟩ := h before (List.prefix_append _ _) ⟨v, hv, hQ⟩
    exact hfirst hm
  · exact hn hQ

/-- Where messages move one by one, the old key of an identifier goes before anything comes under
the new one. -/
theorem rekeyed {μ : Type} (old : String → String) {new : String → String}
    (hnew : ∀ {i j : String}, new i = new j → i = j) (ms : List μ) (id text : μ → String)
    (i : String) :
    Leads (· = .del (old i)) (Puts (new i))
      (ms.flatMap fun m => [.del (old (id m)), .put (new (id m)) (text m)]) := by
  refine flatten fun block hblock => ?_
  obtain ⟨m, -, rfl⟩ := List.mem_map.mp hblock
  by_cases hid : id m = i
  · exact cons (by rw [hid])
  · refine of_not ?_
    rintro w hw ⟨value, rfl⟩
    obtain ⟨hkey, -⟩ := Write.put.inj
      (List.mem_singleton.mp ((List.mem_cons.mp hw).resolve_left nofun))
    exact hid (hnew hkey).symm

end Leads

end Write

/-! ## Items in transit -/

/-- Whether a store removes what it moves before it puts it under the new key. -/
def Store.removesFirst : Store → Bool
  | sessions | identities | sendLog | messages _ => true
  | profiles | preferences => false

namespace Item

variable {st : Store} {c : Contents} {surviving absorbed : PeerId} {item : Item st}
  {keys : List String} {ws made : List Write} {live : PeerId → Prop}

/-- The item was removed and not yet put again. -/
def InTransit (item : Item st) (surviving absorbed : PeerId) (made : List Write) : Prop :=
  .del (item.key absorbed) ∈ made ∧ ∀ value, .put (item.key surviving) value ∉ made

/-- **What is in transit is lost, and nothing else is**, unless the survivor had it already. Before
the old key goes the absorbed peer has the item, and after the new one comes the survivor does. -/
theorem Moved.kept_iff (h : item.Moved surviving absorbed ws) (hne : surviving ≠ absorbed)
    (hcarries : ∀ w ∈ ws, st.Carries surviving absorbed w) (hi : item.Stored c absorbed)
    (hm : made <+: ws) :
    item.Stored (c.applyAll made) absorbed ∨ item.Stored (c.applyAll made) surviving ↔
      item.Stored c surviving ∨ ¬item.InTransit surviving absorbed made := by
  have hmade : ∀ w ∈ made, st.Carries surviving absorbed w := fun w hw => hcarries w (hm.subset hw)
  by_cases hput : ∃ value, .put (item.key surviving) value ∈ made
  · obtain ⟨value, hv⟩ := hput
    have hstored : item.Stored (c.applyAll made) surviving := by
      obtain ⟨w, hw, hk, hlast⟩ :=
        Contents.get?_applyAll_of_mem c (List.mem_map.mpr ⟨_, hv, rfl⟩)
      obtain ⟨value', rfl⟩ := (hmade w hw).exists_put hne (item.holds_key surviving) hk
      exact h.carried value' (hm.subset hw) _ hlast
    exact iff_of_true (.inr hstored) (.inr fun ht => ht.2 value hv)
  · rw [not_exists] at hput
    have hnew : item.Stored (c.applyAll made) surviving ↔ item.Stored c surviving := by
      refine stored_congr (Contents.get?_applyAll_of_ne c fun w hw hk => ?_)
      obtain ⟨value, rfl⟩ := (hmade w hw).exists_put hne (item.holds_key surviving) hk
      exact hput value hw
    have hold := Store.get?_applyAll_absorbed (c := c) hmade hne (item.holds_key absorbed)
    by_cases hdel : .del (item.key absorbed) ∈ made
    · rw [if_pos hdel] at hold
      have hgone : ¬item.Stored (c.applyAll made) absorbed := by
        intro hs
        obtain ⟨raw, hraw⟩ := hs.exists_get?
        rw [hold] at hraw
        contradiction
      simp [InTransit, hnew, hgone, hdel, hput]
    · rw [if_neg hdel] at hold
      simp [InTransit, stored_congr hold, hi, hdel]

/-! ## Who removes first -/

/-- The stores that remove first put nothing under the new key of an item before, so there is a
moment at which it is under neither. -/
theorem removal_leads (hst : st.removesFirst = true) (item : Item st) (h : st.Written live c)
    (hk : st.Held c absorbed keys) (hb : st.batch c surviving absorbed keys = .ok ws) :
    Write.Leads (· = .del (item.key absorbed)) (Write.Puts (item.key surviving)) ws := by
  cases item with
  | session device s =>
      obtain ⟨moves, hg, rfl⟩ := map_eq_ok_iff.mp hb
      refine .flatten fun block hblock => ?_
      obtain ⟨k, hks, hmove⟩ := ((Contents.gather_eq_ok hg).2 block).mp hblock
      obtain ⟨_, hmove, ⟨⟩⟩ := map_eq_ok_iff.mp hmove
      obtain ⟨rest, rfl, hrest⟩ := Sessions.move_eq_ok hmove
      by_cases hkey : k = Sessions.key absorbed device
      · exact .cons (by rw [hkey]; rfl)
      · refine .of_not ?_
        rintro w hw ⟨value, rfl⟩
        obtain ⟨device', raw, hdev, hraw, he⟩ := hrest _ ((List.mem_cons.mp hw).resolve_left nofun)
        obtain rfl := Sessions.key_inj (Write.put.inj he).1
        obtain ⟨-, r, rfl, -⟩ := h.of_holds ((hk k).mp hks).2 hraw
        cases r with
        | session device' _ =>
            obtain rfl : device' = device := by simpa [Record.key] using hdev
            exact hkey rfl
  | identity i =>
      obtain rfl := Except.ok.inj hb
      unfold Identities.batch
      split
      · exact .of_not (by simp)
      · exact .cons rfl
  | letter l =>
      obtain ⟨found, -, rfl⟩ := map_eq_ok_iff.mp hb
      have hnew {i j : String} (h : SendLog.key surviving i = SendLog.key surviving j) : i = j :=
        (String.append_right_inj _).mp h
      exact .rekeyed (SendLog.key absorbed) hnew found SentMessage.id _ l.id
  | @envelope cache e =>
      obtain rfl := Except.ok.inj hb
      have hnew {i j : String} (h : cache.key surviving i = cache.key surviving j) : i = j :=
        (String.append_right_inj _).mp h
      exact .rekeyed (cache.key absorbed) hnew (MessageCache.found c keys) CachedMessage.id _ e.id
  | part | setting | mark => contradiction

/-- The others remove nothing of an item before it was put under its new key, so at every moment it
is under one of the two. -/
theorem put_leads (hst : st.removesFirst = false) (item : Item st)
    (hb : st.batch c surviving absorbed keys = .ok ws) :
    Write.Leads (Write.Puts (item.key surviving)) (· = .del (item.key absorbed)) ws := by
  cases item with
  | part f value =>
      obtain ⟨-, rfl⟩ | ⟨theirs, mine, -, -, rfl⟩ := Profiles.batch_eq_ok hb
      · exact .of_not nofun
      · exact .cons ⟨_, rfl⟩
  | setting f value =>
      obtain ⟨settings, rfl, hs⟩ := Preferences.batch_eq_ok hb
      refine .append ?_ (.of_not ?_)
      · obtain ⟨-, rfl⟩ | ⟨theirs, mine, -, -, rfl⟩ := hs
        · exact .of_not nofun
        · exact .cons ⟨_, rfl⟩
      · simp [key, (Preferences.key_ne_syncKey absorbed absorbed).symm]
  | mark =>
      obtain ⟨settings, rfl, hs⟩ := Preferences.batch_eq_ok hb
      refine .append (.of_not ?_) (.cons ⟨_, rfl⟩)
      obtain ⟨-, rfl⟩ | ⟨theirs, mine, -, -, rfl⟩ := hs
      · simp
      · simp [key, Preferences.key_ne_syncKey]
  | session | identity | letter | envelope => contradiction

/-- **What a merge moves can be in transit where the store removes first, and nowhere else.** -/
theorem Moved.exists_inTransit_iff (hm : item.Moved surviving absorbed ws)
    (h : st.Written live c) (hk : st.Held c absorbed keys)
    (hb : st.batch c surviving absorbed keys = .ok ws) :
    (∃ n, item.InTransit surviving absorbed (ws.take n)) ↔ st.removesFirst = true := by
  cases hst : st.removesFirst with
  | true =>
      obtain ⟨n, hdel, hput⟩ := (removal_leads hst item h hk hb).exists_cut hm.removed nofun
      exact iff_of_true ⟨n, hdel, fun value hv => hput _ hv ⟨value, rfl⟩⟩ rfl
  | false =>
      refine iff_of_false ?_ nofun
      rintro ⟨n, hdel, hput⟩
      obtain ⟨_, hv, value, rfl⟩ := put_leads hst item hb _ (List.take_prefix n ws) ⟨_, hdel, rfl⟩
      exact hput value hv

end Item

/-! ## Merges that are cut short -/

/-- **What is lost when a merge is cut short.** A store was in use on a storage that makes a batch
up to the first write that fails. When it follows a merge it makes all writes of its batch, or the
first few of them. Of what the absorbed peer had and the survivor has nothing in place of, all that
is in transit at that moment is lost and the rest is still stored, under the one key or the other.
Once all writes are made nothing is in transit. In a store that removes first there is for each such
item a moment at which it is, in the others there is none. -/
theorem merge_cut_short_loses_iff_inTransit {σ : Type} [Storage σ] {contents : σ → Contents}
    (hs : Storage.Ordered contents) {st : Store} {s₀ s : σ}
    (hvacant : ∀ key, st.Keeps key → (contents s₀).get? key = none) (episodes : List (Episode st))
    (hafter : s = Episode.after episodes s₀) {surviving absorbed : PeerId}
    (hne : surviving ≠ absorbed) :
    ∃ keys ws, st.Held (contents s) absorbed keys ∧
      st.batch (contents s) surviving absorbed keys = .ok ws ∧
      ((∃ s', (st.merge surviving absorbed).Returns s () s' ∧
          contents s' = (contents s).applyAll ws) ∨
        ∃ e s' n, (st.merge surviving absorbed).Fails s e s' ∧
          contents s' = (contents s).applyAll (ws.take n)) ∧
      ∀ item : Item st, item.Stored (contents s) absorbed →
        ¬item.Superseded (contents s) surviving →
          (∀ n, item.Stored ((contents s).applyAll (ws.take n)) absorbed ∨
              item.Stored ((contents s).applyAll (ws.take n)) surviving ↔
            item.Stored (contents s) surviving ∨
              ¬item.InTransit surviving absorbed (ws.take n)) ∧
          ¬item.InTransit surviving absorbed ws ∧
          ((∃ n, item.InTransit surviving absorbed (ws.take n)) ↔ st.removesFirst = true) := by
  have hw : st.Written (fun _ => True) (contents s) := by
    rw [hafter]
    exact (Store.written_of_vacant hvacant).after hs episodes
  obtain ⟨e, s', ⟨keys, hk, he⟩, -⟩ | ⟨ws, ⟨keys, hk, hb⟩, hend⟩ :=
    (st.merge_submits hs.toLegible surviving absorbed).returns_or_stops hs.writeBatch rfl
  · obtain ⟨ws, hb⟩ := hw.batch_ok hk surviving
    rw [hb] at he
    contradiction
  refine ⟨keys, ws, hk, hb.symm, hend.imp_right ?_, fun item hi hn => ?_⟩
  · rintro ⟨e, s', made, hf, hm, hs'⟩
    refine ⟨e, s', made.length, hf, ?_⟩
    rw [← List.prefix_iff_eq_take.mp hm]
    exact hs'
  · have hmoved := Item.moved hw hk hb.symm hi hn
    have hcarries := Store.batch_carries hk hb.symm
    refine ⟨fun n => hmoved.kept_iff hne hcarries hi (List.take_prefix n ws), fun ht => ?_,
      hmoved.exists_inTransit_iff hw hk hb.symm⟩
    obtain ⟨value, hv⟩ := hmoved.put
    exact ht.2 value hv

/-- A storage that takes one write more, and has an identity that was saved through a handle. -/
def Faltering.last : Faltering :=
  Episode.after ([.deed ∅ ⟨2⟩ (.saveIdentity 0 [1, 2])] : List (Episode .identities)) ⟨⟨∅⟩, 2⟩

/-- The only identity is lost when the merge that moves it is cut short: the storage takes the
removal and refuses the write for the survivor. -/
theorem identity_lost_in_transit :
    ∃ e s', (Store.identities.merge ⟨1⟩ ⟨2⟩).Fails Faltering.last e s' ∧
      (Item.identity ⟨[1, 2], .trustedUnverified, 0⟩).Stored Faltering.last.contents ⟨2⟩ ∧
      ¬((Item.identity ⟨[1, 2], .trustedUnverified, 0⟩).Stored s'.contents ⟨2⟩ ∨
        (Item.identity ⟨[1, 2], .trustedUnverified, 0⟩).Stored s'.contents ⟨1⟩) := by
  have hvacant : ∀ key, Store.identities.Keeps key →
      (Faltering.mk ⟨∅⟩ 2).contents.get? key = none := fun _ _ => rfl
  have hne : (⟨1⟩ : PeerId) ≠ ⟨2⟩ := by decide
  obtain ⟨keys, ws, -, hb, -, hitems⟩ := merge_cut_short_loses_iff_inTransit
    Faltering.stepwise.ordered hvacant [.deed ∅ ⟨2⟩ (.saveIdentity 0 [1, 2])]
    (s := Faltering.last) rfl hne
  obtain rfl := Except.ok.inj hb
  have hraw : Faltering.last.contents.get? "v1/identity/2" =
      some (Identity.toJson ⟨[1, 2], .trustedUnverified, 0⟩).compact := by decide +kernel
  have hfree : Faltering.last.contents.get? "v1/identity/1" = none := by decide +kernel
  have hi : (Item.identity ⟨[1, 2], .trustedUnverified, 0⟩).Stored Faltering.last.contents ⟨2⟩ :=
    Contents.json?_of_decode hraw (Identity.restores.decode_compact _)
  have hnone (i : Identity) : ¬(Item.identity i).Stored Faltering.last.contents ⟨1⟩ := by
    intro hs
    obtain ⟨raw, h⟩ := hs.exists_get?
    exact nomatch hfree.symm.trans h
  obtain ⟨hkept, -⟩ := hitems _ hi fun ⟨i, hs⟩ => hnone i hs
  -- the storage takes the first of the two writes
  have htake : (Identities.batch Faltering.last.contents ⟨1⟩ ⟨2⟩).take 1 =
      [.del "v1/identity/2"] := by decide +kernel
  have hstops : ((Store.identities.merge ⟨1⟩ ⟨2⟩).run Faltering.last).result.toOption = none ∧
      ((Store.identities.merge ⟨1⟩ ⟨2⟩).run Faltering.last).state.contents =
        Faltering.last.contents.applyAll [.del "v1/identity/2"] := by decide +kernel
  obtain ⟨_, s', hr⟩ | ⟨e, s', hf⟩ :=
    Op.returns_or_fails (Store.identities.merge ⟨1⟩ ⟨2⟩) Faltering.last
  · rw [hr.1] at hstops
    exact nomatch hstops.1
  · rw [hf.2, ← htake] at hstops
    refine ⟨e, s', hf, hi, ?_⟩
    rw [hstops.2, hkept 1, htake, not_or, Classical.not_not]
    exact ⟨hnone _, List.mem_singleton_self _, fun value hv => nomatch List.mem_singleton.mp hv⟩

end PeerBook
