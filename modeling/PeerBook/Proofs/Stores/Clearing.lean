import PeerBook.Proofs.Stores.Moves
import PeerBook.Proofs.Storage.Faithful

/-!
# PeerBook.Proofs.Stores.Clearing

What a merge leaves under the keys of the absorbed peer. A message store removes
the keys that its entries name, not those under which they were found, so a key
stays if no entry that can be read names it (`Store.Overlooks`). Nothing else
stays, and in a well-written store nothing at all
(`merge_leaves_iff_overlooked`, `Store.Written.not_overlooks`).

So the merge of a store that was always used through its own operations clears
the absorbed peer; only a content that was written or damaged by others has
anything to overlook. Of a failed merge on a storage that makes batches as a whole
nothing is left half done.
-/

namespace PeerBook

namespace Store

variable {st : Store} {c : Contents} {surviving absorbed : PeerId} {keys : List String}
  {ws : List Write} {key : String}

/-- No entry of the peer that can be read names the key; the stores that do not name keys overlook
none. -/
def Overlooks : Store → Contents → PeerId → String → Prop
  | sendLog, c, peer, key => ∀ k m, sendLog.Holds peer k →
      c.json? SentMessage.ofJson k = .ok (some m) → SendLog.key peer m.id ≠ key
  | messages cache, c, peer, key => ∀ k m, (messages cache).Holds peer k →
      c.json? CachedMessage.ofJson k = .ok (some m) → cache.key peer m.id ≠ key
  | _, _, _, _ => False

/-- Messages that were found name the keys that are named by something that can be read. -/
theorem Held.names_iff {μ : Type} {decoder : Json.Decoder μ} {found : List μ}
    (hk : st.Held c absorbed keys)
    (hfound : ∀ m, m ∈ found ↔ ∃ k ∈ keys, c.json? decoder k = .ok (some m)) {name : μ → String} :
    (∃ m ∈ found, name m = key) ↔
      ¬∀ k m, st.Holds absorbed k → c.json? decoder k = .ok (some m) → name m ≠ key := by
  constructor
  · rintro ⟨m, hm, he⟩ ho
    obtain ⟨k, hks, hj⟩ := (hfound m).mp hm
    exact ho k m ((hk k).mp hks).2 hj he
  · intro ho
    simp only [Classical.not_forall, Classical.not_not] at ho
    obtain ⟨k, m, hh, hj, he⟩ := ho
    obtain ⟨raw, hraw, -⟩ := Contents.json?_eq_ok.mp hj
    exact ⟨m, (hfound m).mpr ⟨k, (hk k).mpr ⟨⟨raw, hraw⟩, hh⟩, hj⟩, he⟩

/-- A batch removes the keys of the absorbed peer that are not overlooked. For four stores these are
all of its keys; the message stores remove those that their entries name. -/
theorem del_mem_batch_iff (hk : st.Held c absorbed keys)
    (h : st.batch c surviving absorbed keys = .ok ws) (hh : st.Holds absorbed key)
    (hv : c.get? key ≠ none) : .del key ∈ ws ↔ ¬st.Overlooks c absorbed key := by
  obtain ⟨value, hv⟩ := Option.ne_none_iff_exists'.mp hv
  have hkey : key ∈ keys := (hk key).mpr ⟨⟨value, hv⟩, hh⟩
  have hnot {α : Type} {decoder : Json.Decoder α} (hn : c.json? decoder key = .ok none) :
      False := by
    rw [Contents.get?_of_json?_none hn] at hv
    contradiction
  cases st with
  | sessions =>
      obtain ⟨ws', hm⟩ := Sessions.move_ok_of_batch h hkey
      refine iff_of_true ?_ id
      obtain ⟨rest, rfl, -⟩ := Sessions.move_eq_ok hm
      exact (Sessions.mem_batch_iff h).mpr ⟨key, hkey, _, hm, List.mem_cons_self⟩
  | identities =>
      obtain rfl := hh
      obtain rfl := Except.ok.inj h
      refine iff_of_true ?_ id
      rw [Identities.batch, hv]
      exact List.mem_cons_self
  | profiles =>
      obtain rfl := hh
      obtain ⟨hn, -⟩ | ⟨theirs, mine, -, -, rfl⟩ := Profiles.batch_eq_ok h
      · exact (hnot hn).elim
      · simp [Overlooks]
  | sendLog =>
      obtain ⟨found, hf, rfl⟩ := map_eq_ok_iff.mp h
      refine Iff.trans ?_ (hk.names_iff fun _ => SendLog.mem_found_iff hf)
      rw [SendLog.mem_moves_iff]
      refine exists_congr fun m => and_congr_right fun _ => ?_
      simp [eq_comm]
  | messages cache =>
      obtain rfl := Except.ok.inj h
      refine Iff.trans ?_ (hk.names_iff fun _ => MessageCache.mem_found_iff)
      rw [MessageCache.mem_moves_iff]
      refine exists_congr fun m => and_congr_right fun _ => ?_
      simp [eq_comm]
  | preferences =>
      obtain ⟨settings, rfl, hs⟩ := Preferences.batch_eq_ok h
      refine iff_of_true ?_ id
      rcases hh with rfl | rfl
      · obtain ⟨hn, -⟩ | ⟨theirs, mine, -, -, rfl⟩ := hs
        · exact (hnot hn).elim
        · simp
      · simp

/-- What is left under a key of the absorbed peer once the batch is made. -/
theorem get?_batch_ne_none_iff (hne : surviving ≠ absorbed) (hk : st.Held c absorbed keys)
    (h : st.batch c surviving absorbed keys = .ok ws) (hh : st.Holds absorbed key) :
    (c.applyAll ws).get? key ≠ none ↔ c.get? key ≠ none ∧ st.Overlooks c absorbed key := by
  rw [get?_applyAll_absorbed (batch_carries hk h) hne hh]
  by_cases hv : c.get? key = none
  · simp [hv]
  · have hdel := del_mem_batch_iff hk h hh hv
    by_cases ho : st.Overlooks c absorbed key <;> simp [hdel, ho, hv]

/-- **Nothing is overlooked in a well-written store**: every message is under the key that it
names. -/
theorem Written.not_overlooks {live : PeerId → Prop} (h : st.Written live c)
    (hh : st.Holds absorbed key) (hv : c.get? key ≠ none) : ¬st.Overlooks c absorbed key := by
  obtain ⟨value, hv⟩ := Option.ne_none_iff_exists'.mp hv
  intro ho
  cases st with
  | sendLog =>
      obtain ⟨l, rfl, -, hd⟩ := h.sent hh hv
      exact ho _ _ hh (Contents.json?_of_decode hv hd) rfl
  | messages cache =>
      obtain ⟨e, rfl, -, hd⟩ := h.cached hh hv
      exact ho _ _ hh (Contents.json?_of_decode hv hd) rfl
  | sessions | identities | profiles | preferences => exact ho

end Store

/-- **What a merge leaves behind.** Whatever a store has, and also where some of it cannot be read:
if it follows a merge successfully, then of the keys of the absorbed peer exactly those stay that
the store overlooks. If it fails on a storage that makes batches as a whole, it leaves everything
as it was. -/
theorem merge_leaves_iff_overlooked {σ : Type} [Storage σ] {contents : σ → Contents}
    (hs : Storage.Legible contents) (ho : Storage.Orderly contents) (st : Store)
    {surviving absorbed : PeerId} (hne : surviving ≠ absorbed) :
    (∀ s s', (st.merge surviving absorbed).Returns s () s' → ∀ key, st.Holds absorbed key →
      ((contents s').get? key ≠ none ↔
        (contents s).get? key ≠ none ∧ st.Overlooks (contents s) absorbed key)) ∧
      (Storage.Atomic contents → ∀ s e s', (st.merge surviving absorbed).Fails s e s' →
        contents s' = contents s) := by
  refine ⟨fun s s' hr key hh => ?_, fun ha s e s' hf => ?_⟩
  · obtain ⟨ws, ⟨keys, hk, hb⟩, hs'⟩ :=
      (Store.merge_submits hs st surviving absorbed).of_returns ho rfl hr
    rw [hs']
    exact Store.get?_batch_ne_none_iff hne hk hb.symm hh
  · exact (Store.merge_submits hs st surviving absorbed).of_fails ha rfl hf

/-- A storage with an envelope that cannot be read. -/
def Memory.unreadable : Memory := ⟨(∅ : Contents).insert "v1/message-cache/2/x" "\x7b"⟩

/-- An envelope that cannot be read stays under the absorbed handle, and the merge answers as if
nothing were left. -/
theorem unreadable_envelope_stays :
    ∃ s', ((Store.messages {}).merge ⟨1⟩ ⟨2⟩).Returns Memory.unreadable () s' ∧
      s'.contents.get? "v1/message-cache/2/x" ≠ none := by
  have hsubmits := Store.merge_submits (c := Memory.unreadable.contents) Memory.faithful.legible
    (.messages {}) ⟨1⟩ ⟨2⟩
  obtain ⟨⟨⟩, s', hr, -⟩ := Op.Brings.of_submits Memory.faithful hsubmits
    (fun e ⟨_, _, he⟩ => absurd he nofun) Memory.unreadable rfl
  have hleaves := (merge_leaves_iff_overlooked Memory.faithful.legible Memory.faithful.orderly
    (.messages {}) (by decide : (⟨1⟩ : PeerId) ≠ ⟨2⟩)).1 _ s' hr
  have hheld : Text.hasPrefix "v1/message-cache/2/" "v1/message-cache/2/x" = true := by
    decide +kernel
  refine ⟨s', hr, (hleaves _ hheld).mpr ⟨by decide +kernel, fun k m _ hj => ?_⟩⟩
  -- nothing that is stored can be read
  obtain ⟨raw, hraw, hd⟩ := Contents.json?_eq_ok.mp hj
  rw [Memory.unreadable, Table.get?_insert] at hraw
  have hbad : (Json.decode CachedMessage.ofJson "\x7b").toOption = none := by decide +kernel
  split at hraw
  · obtain rfl := Option.some.inj hraw
    rw [hd] at hbad
    contradiction
  · contradiction

end PeerBook
