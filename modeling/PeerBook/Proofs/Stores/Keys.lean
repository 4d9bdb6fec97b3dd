import PeerBook.Proofs.Stores.Mergers

/-!
# PeerBook.Proofs.Stores.Keys

The six stores and their parts of the key space. A store keeps the keys with
its prefixes (`Store.Keeps`), and of these a peer holds those with its handle
in the next place (`Store.Holds`):

    v1/session/ PEER / DEVICE           v1/message-cache/ PEER / ID
    v1/identity/ PEER                   v1/preferences/ PEER
    v1/profile/ PEER                    v1/storage-sync/ PEER
    v1/send-log/ PEER / ID

A key has one holder (`Store.Holds.unique`), and no two stores of an account
keep one key (`Store.not_keeps_of_ne`).

A handle is a numeral and is followed by a slash or by the end of the key, so the
keys of peer 1 are not among those of peer 12 (`append_peer_inj`), whatever comes
after the slash. That two stores are apart is decided by their prefixes; a cache
may have any, and the default one is apart from all others.
-/

namespace PeerBook

/-- One of the stores of an account. -/
inductive Store where
  | sessions
  | identities
  | profiles
  | sendLog
  | messages (cache : MessageCache)
  | preferences
  deriving DecidableEq

namespace Store

/-- The stores of an account, given the message cache. -/
def all (cache : MessageCache) : List Store :=
  [.sessions, .identities, .profiles, .sendLog, .messages cache, .preferences]

/-- The part of a store in merges. -/
def merger {σ : Type} [Storage σ] : Store → Merger σ
  | sessions => Sessions.merger
  | identities => Identities.merger
  | profiles => Profiles.merger
  | sendLog => SendLog.merger
  | messages cache => cache.merger
  | preferences => Preferences.merger

/-- Follows a merge in one store. -/
def merge {σ : Type} [Storage σ] (st : Store) (surviving absorbed : PeerId) : Op σ Unit :=
  st.merger.merge surviving absorbed

/-- The mergers of the stores are those that an account registers, in the same order. -/
theorem map_merger_all {σ : Type} [Storage σ] (cache : MessageCache) :
    (all cache).map merger = (allMergers cache : List (Merger σ)) := rfl

/-- The keys of a store begin with one of these. -/
def prefixes : Store → List String
  | sessions => [Sessions.keyPrefix]
  | identities => [Identities.keyPrefix]
  | profiles => [Profiles.keyPrefix]
  | sendLog => [SendLog.keyPrefix]
  | messages cache => [cache.keyPrefix]
  | preferences => [Preferences.keyPrefix, Preferences.syncPrefix]

/-- A store keeps the keys with its prefixes. -/
def Keeps (st : Store) (key : String) : Prop := ∃ p ∈ st.prefixes, Text.hasPrefix p key = true

/-- A peer holds a key of a store. -/
def Holds : Store → PeerId → String → Prop
  | sessions, peer, key => Text.hasPrefix (Sessions.peerPrefix peer) key = true
  | identities, peer, key => key = Identities.key peer
  | profiles, peer, key => key = Profiles.key peer
  | sendLog, peer, key => Text.hasPrefix (SendLog.peerPrefix peer) key = true
  | messages cache, peer, key => Text.hasPrefix (cache.peerPrefix peer) key = true
  | preferences, peer, key => key = Preferences.key peer ∨ key = Preferences.syncKey peer

end Store

/-! ## One holder -/

/-- The key of some settings is never that of a mark. -/
theorem Preferences.key_ne_syncKey (a b : PeerId) : key a ≠ syncKey b := by
  have hd : Text.apart keyPrefix syncPrefix = true := by decide
  intro h
  refine Text.not_hasPrefix_of_apart hd (Text.hasPrefix_append keyPrefix (toString a)) ?_
  rw [show keyPrefix ++ toString a = syncPrefix ++ toString b from h]
  exact Text.hasPrefix_append syncPrefix (toString b)

namespace Text

/-- What begins with a text begins with all its beginnings. -/
theorem hasPrefix_of_append {p q key : String} (h : hasPrefix (p ++ q) key = true) :
    hasPrefix p key = true := by
  rw [hasPrefix_iff, String.toList_append] at *
  exact (List.prefix_append _ _).trans h

/-- A numeral has no slash in it. -/
theorem slash_notMem (n : Nat) : '/' ∉ (toString n).toList := by
  intro hm
  have hd : '/' ∈ Nat.toDigits 10 n := by
    rw [← Nat.toList_repr]
    exact hm
  have := Nat.isDigit_of_mem_toDigits (by decide) (by decide) hd
  contradiction

/-- A numeral that a slash follows is the whole of the part between two slashes: the first slash
after the prefix ends both numerals, so they are one. -/
theorem peer_unique {p key : String} {a b : PeerId}
    (ha : hasPrefix (p ++ toString a ++ "/") key = true)
    (hb : hasPrefix (p ++ toString b ++ "/") key = true) : a = b := by
  rw [hasPrefix_iff] at ha hb
  obtain ⟨ra, ha⟩ := ha
  obtain ⟨rb, hb⟩ := hb
  have hab : (toString a).toList ++ '/' :: ra = (toString b).toList ++ '/' :: rb := by
    rw [← hb] at ha
    simpa [String.toList_append] using ha
  -- the first slash ends both numerals
  have hs := congrArg (List.takeWhile (· != '/')) hab
  have hdigits (peer : PeerId) : ∀ ch ∈ (toString peer).toList, (ch != '/') = true := by
    intro ch hch
    simpa using fun he : ch = '/' => slash_notMem peer.value.toNat (he ▸ hch)
  rw [List.takeWhile_append_of_pos (hdigits a), List.takeWhile_append_of_pos (hdigits b)] at hs
  have hab' : (toString a).toList = (toString b).toList := by simpa using hs
  exact PeerId.toString_inj (String.toList_inj.mp hab')

/-- After a common beginning stand different numerals. -/
theorem append_peer_inj {p : String} {a b : PeerId} (h : p ++ toString a = p ++ toString b) :
    a = b := by
  have hl := congrArg String.toList h
  rw [String.toList_append, String.toList_append, List.append_cancel_left_eq] at hl
  exact PeerId.toString_inj (String.toList_inj.mp hl)

end Text

namespace Store

variable {st : Store} {a b : PeerId} {key : String}

/-- What a peer holds in a store the store keeps: the keys of a peer begin with a prefix of the
store. -/
theorem Holds.keeps (h : st.Holds a key) : st.Keeps key := by
  cases st with
  | sessions | sendLog | messages cache =>
      exact ⟨_, List.mem_singleton_self _, Text.hasPrefix_of_append (Text.hasPrefix_of_append h)⟩
  | identities | profiles =>
      obtain rfl := h
      exact ⟨_, List.mem_singleton_self _, Text.hasPrefix_append _ _⟩
  | preferences =>
      rcases h with rfl | rfl
      · exact ⟨_, List.mem_cons_self, Text.hasPrefix_append _ _⟩
      · exact ⟨_, List.mem_cons_of_mem _ List.mem_cons_self, Text.hasPrefix_append _ _⟩

/-- **No key has two holders.** -/
theorem Holds.unique (ha : st.Holds a key) (hb : st.Holds b key) : a = b := by
  cases st with
  | sessions | sendLog | messages cache => exact Text.peer_unique ha hb
  | identities | profiles => exact Text.append_peer_inj (ha.symm.trans hb)
  | preferences =>
      rcases ha with rfl | rfl <;> rcases hb with hb | hb
      · exact Text.append_peer_inj hb
      · exact absurd hb (Preferences.key_ne_syncKey a b)
      · exact absurd hb.symm (Preferences.key_ne_syncKey b a)
      · exact Text.append_peer_inj hb

/-! ## Stores apart -/

/-- Whether no prefix of one store goes with one of another. -/
def apart (st st' : Store) : Bool :=
  st.prefixes.all fun p => st'.prefixes.all fun q => Text.apart p q

/-- Stores whose prefixes are apart keep no key in common. -/
theorem not_keeps_of_apart {st' : Store} (h : st.apart st' = true) (hk : st.Keeps key) :
    ¬st'.Keeps key := by
  rintro ⟨q, hq, hqk⟩
  obtain ⟨p, hp, hpk⟩ := hk
  simp only [apart, List.all_eq_true] at h
  exact Text.not_hasPrefix_of_apart (h p hp q hq) hpk hqk

/-- No two stores of an account keep one key. -/
theorem not_keeps_of_ne {st' : Store} (h : st ∈ all {}) (h' : st' ∈ all {}) (hne : st ≠ st')
    (hk : st.Keeps key) : ¬st'.Keeps key := by
  refine not_keeps_of_apart ?_ hk
  have hall : ∀ st ∈ all {}, ∀ st' ∈ all {}, st ≠ st' → st.apart st' = true := by decide
  exact hall st h st' h' hne

/-- No store of an account keeps a key of the directory. -/
theorem not_owns_of_keeps (h : st ∈ all {}) (hk : st.Keeps key) : ¬Directory.Owns key := by
  obtain ⟨p, hp, hpk⟩ := hk
  have hall : ∀ st ∈ all {}, ∀ p ∈ st.prefixes, Directory.disjoint p = true := by decide
  exact Directory.not_owns (hall st h p hp) hpk

end Store

end PeerBook
