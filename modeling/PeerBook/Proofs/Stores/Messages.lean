import PeerBook.Proofs.Stores.Sheets

/-!
# PeerBook.Proofs.Stores.Messages

The send log and the caches as sheets of messages. Whatever is asked of them in
any order, on a storage that never fails: every message that came and did not go
since is listed once, as it came, for the peer to which merges have moved it,
and nothing else is listed (`messages_are_listed_once`).

The two stores keep lines of a sheet, letters and envelopes, and it is shown of
each that its filing is sound: what a deed does to the store it does to the
sheet, and a merge moves the lines of the absorbed peer. Runs are then a matter
of sheets (`Filing.Sound.run`), and what is listed is what is on the sheet for
the peer, in the order of its times.
-/

namespace PeerBook

/-! ## Orders -/

namespace SentMessage

variable {a b c : SentMessage}

/-- One entry comes before another by its time, and at one time by its device. -/
theorem le_iff :
    a.le b = true ↔
      a.timestamp < b.timestamp ∨ a.timestamp = b.timestamp ∧ a.device ≤ b.device := by
  simp [le]

/-- The order of entries is transitive. -/
theorem le_trans (h : a.le b = true) (h' : b.le c = true) : a.le c = true := by
  simp only [le_iff, UInt64.lt_iff_toNat_lt, ← UInt64.toNat_inj, UInt32.le_iff_toNat_le] at *
  omega

/-- Of two entries one comes before the other. -/
theorem le_total (a b : SentMessage) : (a.le b || b.le a) = true := by
  simp only [Bool.or_eq_true, le_iff, UInt64.lt_iff_toNat_lt, ← UInt64.toNat_inj,
    UInt32.le_iff_toNat_le]
  omega

/-- Sorted entries come by time, and at one time by device. -/
theorem pairwise_mergeSort (ms : List SentMessage) :
    (ms.mergeSort le).Pairwise fun a b =>
      a.timestamp < b.timestamp ∨ a.timestamp = b.timestamp ∧ a.device ≤ b.device := by
  have hle : (ms.mergeSort le).Pairwise fun a b => a.le b = true := by
    refine List.pairwise_mergeSort (fun a b c h h' => ?_) (fun a b => ?_) ms
    · exact le_trans h h'
    · exact le_total a b
  exact hle.imp le_iff.mp

end SentMessage

namespace CachedMessage

/-- Sorted entries come by the time of their arrival. -/
theorem pairwise_mergeSort (ms : List CachedMessage) :
    (ms.mergeSort le).Pairwise fun a b => a.receivedAt ≤ b.receivedAt := by
  have hle : (ms.mergeSort le).Pairwise fun a b => a.le b = true := by
    refine List.pairwise_mergeSort (fun a b c h h' => ?_) (fun a b => ?_) ms
    · simp only [le, decide_eq_true_iff] at *
      exact UInt64.le_trans h h'
    · simp only [le, Bool.or_eq_true, decide_eq_true_iff]
      exact UInt64.le_total _ _
  exact hle.imp fun h => of_decide_eq_true h

end CachedMessage

/-! ## The send log -/

namespace SendLog

/-- What a deed for a peer does to the letters. -/
def amend (peer : PeerId) : Deed .sendLog → Sheet Letter → Sheet Letter
  | .insert l, sheet => sheet ++ [(peer, l)]
  | .deleteLetters, sheet => sheet.without peer
  | .deleteOlder timestamp, sheet => sheet.filter fun x => timestamp ≤ x.2.timestamp
  | .letters, sheet | .letter _ _, sheet => sheet

/-- The log keeps letters by their identifiers. -/
def filing : Filing .sendLog Letter SentMessage where
  record := .sent
  decoder := SentMessage.ofJson
  message := Letter.message
  decode l peer := SentMessage.restores.decode_compact (l.message peer)
  tag := Letter.id
  tag_eq h := (String.append_right_inj _).mp h
  amend := amend

variable {c : Contents} {sheet : Sheet Letter} {x : PeerId × Letter}

/-- Whether a line is too old is seen under its key. -/
theorem isOld_key (h : filing.Files c sheet) (hx : x ∈ sheet) (timestamp : UInt64) :
    isOld c timestamp (filing.key x) = decide (x.2.timestamp < timestamp) := by
  have hj : c.json? SentMessage.ofJson (filing.key x) = .ok (some (x.2.message x.1)) :=
    h.json?_key hx
  rw [isOld, hj]
  rfl

/-- The key of a line is one of the log. -/
theorem hasPrefix_key (x : PeerId × Letter) : Text.hasPrefix keyPrefix (filing.key x) = true :=
  Text.hasPrefix_of_append (Text.hasPrefix_of_append (filing.holds_key x))

/-- **The letters from before a time go, and are counted.** -/
theorem deleteOlder_files {σ : Type} [Storage σ] {contents : σ → Contents}
    (hs : Storage.Faithful contents) (h : filing.Files c sheet) (hn : (filing.tags sheet).Nodup)
    (timestamp : UInt64) :
    (deleteOlder timestamp : Op σ Nat).Brings contents c fun n c' =>
      n = (sheet.filter (·.2.timestamp < timestamp)).length ∧
        filing.Files c' (sheet.filter fun x => timestamp ≤ x.2.timestamp) := by
  refine (deleteOlder_brings hs h.written timestamp).mono fun n c' ⟨hcount, hc⟩ => ⟨?_, ?_⟩
  · have hperm := h.keysUnder_perm hn keyPrefix fun key hk =>
      ⟨_, List.mem_singleton_self _, hk⟩
    rw [List.filter_eq_self.mpr fun x _ => hasPrefix_key x] at hperm
    rw [hcount, (hperm.filter _).length_eq, List.filter_map, List.length_map]
    exact congrArg List.length (List.filter_congr fun x hx => isOld_key h hx timestamp)
  · refine h.filter _ (fun key _ => hc key) fun x hx => ?_
    rw [isOld_key h hx, hasPrefix_key]
    simp [UInt64.not_lt]

/-- The filing of the log is right about it: letters are told apart by their identifiers, and deeds
do to them what they do to the lines. -/
theorem filing_sound : filing.Sound where
  deed := by
    intro σ _ contents hs c sheet h redirects i d hn
    have hread (hr : d.reads = true) : (d.perform redirects i : Op σ Unit).Brings contents c
        fun _ c' => filing.Files c' sheet :=
      (d.reads_brings hs.legible redirects i h.written hr).mono fun _ _ hc => hc ▸ h
    cases d with
    | insert l =>
        refine (Storage.put_brings hs _ _).mono ?_
        rintro _ _ rfl
        refine h.put (x := (redirects.follow i, l)) fun hl => ?_
        exact (List.nodup_append.mp hn).2.2 _ hl _ (List.mem_singleton_self _) rfl
    | deleteLetters =>
        exact (Store.clear_brings hs _).mono fun _ _ hc => h.without (fun _ => Iff.rfl) hc
    | deleteOlder timestamp =>
        have hsheet := (List.nodup_append.mp hn).1
        exact (deleteOlder_files hs h hsheet timestamp).bind fun _ _ hc => .pure hc.2
    | letters | letter => exact hread rfl
  batch := by
    intro c sheet surviving absorbed keys ws h hk hb w
    obtain ⟨found, hf, rfl⟩ := map_eq_ok_iff.mp hb
    rw [mem_moves_iff, h.exists_found_iff hk fun _ => mem_found_iff hf]
    refine exists_congr fun x => and_congr_right fun _ => and_congr_right ?_
    rintro rfl
    exact Iff.rfl
  tags := by
    intro peer d sheet
    cases d with
    | insert l => simp [filing, amend, Filing.tags, Deed.tag?]
    | deleteLetters | deleteOlder => exact Filing.tags_sublist List.filter_sublist _
    | letters | letter => exact Filing.tags_sublist (List.Sublist.refl _) _

/-- **Letters are listed** by time and device. -/
theorem entries_brings {σ : Type} [Storage σ] {contents : σ → Contents}
    (hs : Storage.Faithful contents) (h : filing.Files c sheet) (hn : (filing.tags sheet).Nodup)
    (redirects : Redirects) (i : PeerId) :
    (entries redirects i : Op σ _).Brings contents c fun ms c' => c' = c ∧
      ms.Perm ((sheet.of (redirects.follow i)).map (·.message (redirects.follow i))) ∧
      ms.Pairwise fun a b =>
        a.timestamp < b.timestamp ∨ a.timestamp = b.timestamp ∧ a.device ≤ b.device := by
  refine .of_reads ((entriesUnder_views hs.legible (hs.list c _)).reads ?_)
  rintro _ ⟨keys, hkeys, rfl⟩
  have hread := Contents.gather_of_ok fun k hk => h.json?_eq_ok (F := filing) <|
    Store.Holds.keeps (a := redirects.follow i) (Contents.mem_keysUnder.mp (hkeys.mem_iff.mp hk)).2
  refine ⟨_, congrArg (Except.map _) hread, rfl, ?_, ?_⟩
  · exact (List.mergeSort_perm _ _).trans (h.filterMap_perm hn (fun _ => Iff.rfl) hkeys)
  · exact SentMessage.pairwise_mergeSort _

end SendLog

/-! ## The caches -/

namespace MessageCache

variable {cache : MessageCache}

/-- What a deed for a peer does to the envelopes. -/
def amend (peer : PeerId) : Deed (.messages cache) → Sheet Envelope → Sheet Envelope
  | .add e, sheet => sheet ++ [(peer, e)]
  | .remove id, sheet => sheet.filter fun x => ¬(x.1 = peer ∧ x.2.id = id)
  | .removeAll, sheet => sheet.without peer
  | .envelopes, sheet => sheet

/-- A cache keeps envelopes by their identifiers. -/
def filing (cache : MessageCache) : Filing (.messages cache) Envelope CachedMessage where
  record := .cached
  decoder := CachedMessage.ofJson
  message := Envelope.message
  decode e peer := CachedMessage.restores.decode_compact (e.message peer)
  tag := Envelope.id
  tag_eq h := (String.append_right_inj _).mp h
  amend := amend

variable {c : Contents} {sheet : Sheet Envelope} {x : PeerId × Envelope}

/-- A key names a peer and an identifier. -/
theorem filing_key_eq_iff {peer : PeerId} {id : String} :
    (filing cache).key x = cache.key peer id ↔ x.1 = peer ∧ x.2.id = id := by
  constructor
  · intro h
    exact Filing.key_eq (F := filing cache) (y := (peer, ⟨id, [], 0⟩)) h
  · rintro ⟨rfl, rfl⟩
    rfl

/-- The filing of a cache is right about it, whatever the prefix of its keys, since no other key of
the cache is looked at. -/
theorem filing_sound (cache : MessageCache) : (filing cache).Sound where
  deed := by
    intro σ _ contents hs c sheet h redirects i d hn
    cases d with
    | add e =>
        refine (Storage.put_brings hs _ _).mono ?_
        rintro _ _ rfl
        refine h.put (x := (redirects.follow i, e)) fun he => ?_
        exact (List.nodup_append.mp hn).2.2 _ he _ (List.mem_singleton_self _) rfl
    | remove id =>
        refine (Storage.del_brings hs _).mono ?_
        rintro _ _ rfl
        refine h.filter (· = cache.key (redirects.follow i) id) (fun key _ => ?_) ?_
        · exact Contents.get?_apply c (.del _) key
        · intro x _
          rw [filing_key_eq_iff, decide_eq_true_iff]
    | removeAll =>
        exact (Store.clear_brings hs _).mono fun _ _ hc => h.without (fun _ => Iff.rfl) hc
    | envelopes =>
        exact (Deed.reads_brings hs.legible redirects i h.written rfl).mono fun _ _ hc => hc ▸ h
  batch := by
    intro c sheet surviving absorbed keys ws h hk hb w
    obtain rfl := Except.ok.inj hb
    rw [mem_moves_iff, h.exists_found_iff hk fun _ => mem_found_iff]
    refine exists_congr fun x => and_congr_right fun _ => and_congr_right ?_
    rintro rfl
    exact Iff.rfl
  tags := by
    intro peer d sheet
    cases d with
    | add e => simp [filing, amend, Filing.tags, Deed.tag?]
    | remove | removeAll => exact Filing.tags_sublist List.filter_sublist _
    | envelopes => exact Filing.tags_sublist (List.Sublist.refl _) _

/-- **Envelopes are listed** by the time of their arrival. -/
theorem entries_brings {σ : Type} [Storage σ] {contents : σ → Contents}
    (hs : Storage.Faithful contents) (h : (filing cache).Files c sheet)
    (hn : ((filing cache).tags sheet).Nodup) (redirects : Redirects) (i : PeerId) :
    (cache.entries redirects i : Op σ _).Brings contents c fun ms c' => c' = c ∧
      ms.Perm ((sheet.of (redirects.follow i)).map (·.message (redirects.follow i))) ∧
      ms.Pairwise fun a b => a.receivedAt ≤ b.receivedAt := by
  refine .of_reads ((entriesUnder_views hs.legible (hs.list c _)).reads ?_)
  rintro _ ⟨keys, hkeys, rfl⟩
  refine ⟨_, rfl, rfl, (List.mergeSort_perm _ _).trans ?_, CachedMessage.pairwise_mergeSort _⟩
  rw [funext (readable?_eq c)]
  exact h.filterMap_perm hn (fun _ => Iff.rfl) hkeys

end MessageCache

/-! ## Runs -/

/-- **No message is lost or listed twice.** A log, or a cache under any prefix, starts without keys
on a storage that never fails, and episodes follow in which no identifier is brought twice and
merges are of two peers; others may write keys of their own in between. The run comes to its end.
Then every handle, under any redirects, lists what is on the sheet for the peer that it stands for:
as it came, once, and in order. What goes because it is too old is counted. -/
theorem messages_are_listed_once {σ : Type} [Storage σ] {contents : σ → Contents}
    (hs : Storage.Faithful contents) (c : Contents) :
    (∀ episodes : List (Episode .sendLog), (∀ key, Store.sendLog.Keeps key → c.get? key = none) →
      (∀ t ∈ episodes, t.Proper) → (episodes.filterMap Episode.tag?).Nodup →
        (Storage.forEach Episode.perform episodes : Op σ Unit).Brings contents c fun _ c' =>
          ((SendLog.filing.after episodes).map (·.2.id)).Nodup ∧
          (∀ (redirects : Redirects) (i peer : PeerId), peer = redirects.follow i →
            (SendLog.entries redirects i : Op σ _).Brings contents c' fun ms c'' => c'' = c' ∧
              ms.Perm (((SendLog.filing.after episodes).of peer).map (·.message peer)) ∧
              (∀ m ∈ ms, ∃ l ∈ (SendLog.filing.after episodes).of peer,
                m = l.message peer ∧ m.bytes = .ok l.bytes) ∧
              ms.Pairwise fun a b =>
                a.timestamp < b.timestamp ∨ a.timestamp = b.timestamp ∧ a.device ≤ b.device) ∧
          ∀ timestamp, (SendLog.deleteOlder timestamp : Op σ Nat).Brings contents c' fun n _ =>
            n = ((SendLog.filing.after episodes).filter (·.2.timestamp < timestamp)).length) ∧
    ∀ (cache : MessageCache) (episodes : List (Episode (.messages cache))),
      (∀ key, (Store.messages cache).Keeps key → c.get? key = none) →
        (∀ t ∈ episodes, t.Proper) → (episodes.filterMap Episode.tag?).Nodup →
          (Storage.forEach Episode.perform episodes : Op σ Unit).Brings contents c fun _ c' =>
            ((cache.filing.after episodes).map (·.2.id)).Nodup ∧
            ∀ (redirects : Redirects) (i peer : PeerId), peer = redirects.follow i →
              (cache.entries redirects i : Op σ _).Brings contents c' fun ms c'' => c'' = c' ∧
                ms.Perm (((cache.filing.after episodes).of peer).map (·.message peer)) ∧
                (∀ m ∈ ms, ∃ e ∈ (cache.filing.after episodes).of peer,
                  m = e.message peer ∧ m.bytes = .ok e.bytes) ∧
                ms.Pairwise fun a b => a.receivedAt ≤ b.receivedAt := by
  refine ⟨fun episodes hvacant hproper hn => ?_, fun cache episodes hvacant hproper hn => ?_⟩
  · refine (SendLog.filing_sound.run hs (Filing.files_nil hvacant) hn hproper).mono ?_
    rintro _ c' ⟨hfiles, htags⟩
    refine ⟨htags, ?_, fun timestamp => ?_⟩
    · rintro redirects i _ rfl
      refine (SendLog.entries_brings hs hfiles htags redirects i).mono
        fun ms c'' ⟨hc, hperm, hle⟩ => ⟨hc, hperm, fun m hm => ?_, hle⟩
      obtain ⟨l, hl, rfl⟩ := List.mem_map.mp (hperm.mem_iff.mp hm)
      exact ⟨l, hl, rfl, l.bytes_message _⟩
    · exact (SendLog.deleteOlder_files hs hfiles htags timestamp).mono fun _ _ hcount => hcount.1
  · refine ((MessageCache.filing_sound cache).run hs (Filing.files_nil hvacant) hn hproper).mono ?_
    rintro _ c' ⟨hfiles, htags⟩
    refine ⟨htags, ?_⟩
    rintro redirects i _ rfl
    refine (MessageCache.entries_brings hs hfiles htags redirects i).mono
      fun ms c'' ⟨hc, hperm, hle⟩ => ⟨hc, hperm, fun m hm => ?_, hle⟩
    obtain ⟨e, he, rfl⟩ := List.mem_map.mp (hperm.mem_iff.mp hm)
    exact ⟨e, he, rfl, e.bytes_message _⟩

/-- Three letters to two handles, of which one is absorbed before the oldest letters expire. -/
def letterEpisodes : List (Episode .sendLog) :=
  [.deed ∅ ⟨1⟩ (.insert ⟨"a", 1, 100, [1], true⟩), .deed ∅ ⟨2⟩ (.insert ⟨"b", 1, 200, [2], false⟩),
    .deed ∅ ⟨2⟩ (.insert ⟨"c", 2, 100, [3], false⟩), .merge ⟨1⟩ ⟨2⟩,
    .deed ∅ ⟨1⟩ (.deleteOlder 150)]

/-- The letter that is left is listed for the survivor. -/
theorem letterEpisodes_list_survivor :
    ∃ s', (Storage.forEach Episode.perform letterEpisodes).Returns (⟨∅⟩ : Memory) () s' ∧
      ∃ s'', (SendLog.entries ∅ ⟨1⟩).Returns s'
        [(⟨"b", 1, 200, [2], false⟩ : Letter).message ⟨1⟩] s'' := by
  obtain ⟨⟨⟩, s', hr, -, hlist, -⟩ := (messages_are_listed_once Memory.faithful ∅).1 letterEpisodes
    (fun _ _ => rfl) (by simp [letterEpisodes, Episode.Proper]) (by decide) ⟨∅⟩ rfl
  obtain ⟨ms, s'', hms, -, hperm, -⟩ := hlist ∅ ⟨1⟩ ⟨1⟩ rfl s' rfl
  have hsheet : (SendLog.filing.after letterEpisodes).of ⟨1⟩ =
      [⟨"b", 1, 200, [2], false⟩] := by decide
  rw [hsheet] at hperm
  obtain rfl := List.perm_singleton.mp hperm
  exact ⟨s', hr, s'', hms⟩

end PeerBook
