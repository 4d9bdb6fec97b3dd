import PeerBook.Proofs.Directory.Codec
import PeerBook.Proofs.Directory.Coherent
import PeerBook.Proofs.Storage.Contents

/-!
# PeerBook.Proofs.Directory.Stored

When the content of a storage is that of a directory. What a directory stores
has a place each (`Directory.Slot`): the rows, the redirects, the last handle
and the account's own. A content is that of a directory when it has the text of
each place under the key of the place, and no other key where rows and redirects
are looked for (`Directory.StoredIn`). From such a content the directory is read
back with its last handle raised to every handle that it has
(`Directory.load_reads_recounted`), and as it was if it is coherent
(`Directory.load_reads`).

- Different places have different keys (`Slot.key_inj`), and a key tells by its
  prefix what it is for.
- Other keys of the storage make no difference (`StoredIn.of_eq`), so the stores
  of an account can write beside the directory.
- A counter that was not written is made good by reading, as far as there are
  rows and redirects to go by; this is what `recounted` says.
-/

namespace PeerBook

variable {σ α β : Type} {contents : σ → Contents} {c : Contents}

/-! ## Tables under a prefix -/

/-- A table is stored under a prefix: each entry as its text under a key of its own, and nothing
else. -/
structure Contents.Keeps (c : Contents) (keyPrefix : String) (text : PeerId → α → String)
    (t : Table PeerId α) : Prop where
  get? (i : PeerId) : c.get? (keyPrefix ++ toString i) = (t.get? i).map (text i)
  key {k : String} (h : k ∈ c.keysUnder keyPrefix) : ∃ i : PeerId, k = keyPrefix ++ toString i

namespace Directory

variable [Storage σ]

/-- A value can be read under a prefix. -/
def Readable (c : Contents) (keyPrefix : String) (decoder : Json.Decoder β) (b : β) : Prop :=
  ∃ k raw, c.get? k = some raw ∧ Text.hasPrefix keyPrefix k = true ∧
    Json.decode decoder raw = .ok b

/-- All that can be read under a prefix is read, and nothing else; what cannot be read is passed
over. -/
theorem loadRows_reads_all (hs : Storage.Legible contents) (keyPrefix what : String)
    (decoder : Json.Decoder β) :
    (loadRows keyPrefix what decoder : Op σ _).Reads contents c
      fun bs => ∀ b, b ∈ bs ↔ Readable c keyPrefix decoder b := by
  -- what is made of a key
  let found (k : String) : Option β :=
    (c.get? k).bind fun raw => (Json.decode decoder raw).toOption
  refine .bind (hs.list c keyPrefix) fun keys hkeys => ?_
  refine .mono (Storage.collect_reads (g := found) (fun k => ?_) keys) ?_
  · refine .bind (hs.get c k) fun v hv => ?_
    subst hv
    cases hv : c.get? k with
    | none => exact .pure (by simp [found, hv])
    | some raw =>
        dsimp only
        cases hraw : Json.decode decoder raw with
        | ok b => exact .pure (by simp [found, hv, hraw, Except.toOption])
        | error e =>
            exact .bind (.note _ _) fun _ _ =>
              .pure (by simp [found, hv, hraw, Except.toOption])
  · rintro bs rfl b
    have hraw (raw : String) :
        (Json.decode decoder raw).toOption = some b ↔ Json.decode decoder raw = .ok b := by
      cases Json.decode decoder raw <;> simp [Except.toOption]
    simp only [List.mem_filterMap, hkeys, Contents.mem_keysUnder, found, Option.bind_eq_some_iff,
      hraw, Readable]
    constructor
    · rintro ⟨k, ⟨-, hp⟩, raw, hget, hb⟩
      exact ⟨k, raw, hget, hp, hb⟩
    · rintro ⟨k, raw, hget, hp, hb⟩
      exact ⟨k, ⟨⟨raw, hget⟩, hp⟩, raw, hget, hb⟩

/-- What a stored table is read as, if its texts can be read. The listing may be in any order, and
the handle of each entry is that of its value. -/
theorem loadRows_reads (hs : Storage.Legible contents) {keyPrefix : String}
    {text : PeerId → α → String} {t : Table PeerId α} (hk : c.Keeps keyPrefix text t)
    {decoder : Json.Decoder β} (value : PeerId → α → β) (entry : β → PeerId × α)
    (hd : ∀ i a, Json.decode decoder (text i a) = .ok (value i a))
    (he : ∀ i a, entry (value i a) = (i, a)) (what : String) :
    (loadRows keyPrefix what decoder : Op σ _).Reads contents c
      fun bs => Table.ofList (bs.map entry) = t := by
  refine (loadRows_reads_all hs keyPrefix what decoder).mono fun bs hbs => ?_
  apply Table.ofList_eq
  intro i a
  rw [List.mem_map]
  constructor
  · rintro ⟨b, hb, hia⟩
    obtain ⟨k, raw, hget, hp, hb⟩ := (hbs b).mp hb
    obtain ⟨j, rfl⟩ := hk.key (Contents.mem_keysUnder.mpr ⟨⟨raw, hget⟩, hp⟩)
    rw [hk.get? j] at hget
    obtain ⟨a', ha', rfl⟩ := Option.map_eq_some_iff.mp hget
    obtain rfl := Except.ok.inj ((hd j a').symm.trans hb)
    rw [he] at hia
    cases hia
    exact ha'
  · intro ha
    refine ⟨value i a, (hbs _).mpr ⟨keyPrefix ++ toString i, text i a, ?_,
      Text.hasPrefix_append _ _, hd i a⟩, he i a⟩
    rw [hk.get? i, ha]
    rfl

/-! ## A stored directory -/

/-- A place where a directory stores a text. -/
inductive Slot where
  | row (id : PeerId)
  | merged (absorbed : PeerId)
  | lastId
  | self
  deriving DecidableEq

/-- The key of a place. -/
def Slot.key : Slot → String
  | row i => rowKey i
  | merged i => mergedKey i
  | lastId => lastIdKey
  | self => selfKey

/-- Different places have different keys. -/
theorem Slot.key_inj {x y : Slot} (h : x.key = y.key) : x = y := by
  have hl := congrArg String.toList h
  cases x <;> cases y <;>
    simp [key, rowKey, mergedKey, rowPrefix, mergedPrefix, lastIdKey, selfKey] at hl ⊢ <;>
    exact PeerId.toString_inj (String.toList_inj.mp hl)

/-- A key where rows are looked for is that of a row. -/
theorem Slot.row_of_hasPrefix {x : Slot} (h : Text.hasPrefix rowPrefix x.key = true) :
    ∃ i, x = .row i := by
  cases x with
  | row i => exact ⟨i, rfl⟩
  | merged i => simp [Text.hasPrefix, key, mergedKey, rowPrefix, mergedPrefix] at h
  | lastId => exact absurd h (by decide)
  | self => exact absurd h (by decide)

/-- A key where redirects are looked for is that of a redirect. -/
theorem Slot.merged_of_hasPrefix {x : Slot} (h : Text.hasPrefix mergedPrefix x.key = true) :
    ∃ i, x = .merged i := by
  cases x with
  | row i => simp [Text.hasPrefix, key, rowKey, rowPrefix, mergedPrefix] at h
  | merged i => exact ⟨i, rfl⟩
  | lastId => exact absurd h (by decide)
  | self => exact absurd h (by decide)

/-- The text of a row. -/
def rowText (i : PeerId) (a : Address) : String := (Peer.mk i a).toJson.compact

/-- The text of a redirect. -/
def mergeText (absorbed surviving : PeerId) : String := (Merge.mk absorbed surviving).toJson.compact

/-- What a directory stores at a place. As long as no handle was given out, none is stored. -/
def text? (d : Directory) : Slot → Option String
  | .row i => (d.rows.get? i).map (rowText i)
  | .merged i => (d.redirects.get? i).map (mergeText i)
  | .lastId => if d.lastId = ⟨0⟩ then none else some (toString d.lastId)
  | .self => d.self.map toString

/-- A content is that of a directory. -/
structure StoredIn (d : Directory) (c : Contents) : Prop where
  text (x : Slot) : c.get? x.key = d.text? x
  row {k : String} (h : k ∈ c.keysUnder rowPrefix) : ∃ i, k = rowKey i
  merged {k : String} (h : k ∈ c.keysUnder mergedPrefix) : ∃ i, k = mergedKey i

theorem storedIn_empty : empty.StoredIn ∅ where
  text x := by cases x <;> rfl
  row := nofun
  merged := nofun

variable {d : Directory} {n : Nat}

/-- The last handle is read back from its key; as long as none was given out nothing is stored
there, which is read as zero. -/
theorem StoredIn.loadLastId_reads (h : d.StoredIn c) (hs : Storage.Legible contents) :
    (loadLastId : Op σ _).Reads contents c (· = d.lastId) := by
  refine .bind (hs.get c lastIdKey) fun v hv => ?_
  have hl : c.get? lastIdKey = if d.lastId = ⟨0⟩ then none else some (toString d.lastId) :=
    h.text .lastId
  rw [hv, hl]
  by_cases hz : d.lastId = ⟨0⟩
  · rw [if_pos hz]
    exact .pure hz.symm
  · rw [if_neg hz]
    dsimp only
    rw [Text.readUInt64_trimBlank]
    exact .pure rfl

/-- The account's own handle is read back from its key, where nothing is stored as long as there is
none. -/
theorem StoredIn.loadSelf_reads (h : d.StoredIn c) (hs : Storage.Legible contents) :
    (loadSelf : Op σ _).Reads contents c (· = d.self) := by
  refine .bind (hs.get c selfKey) fun v hv => ?_
  have ht : c.get? selfKey = d.self.map toString := h.text .self
  rw [hv, ht]
  cases d.self with
  | none => exact .pure rfl
  | some i =>
      have hread : PeerId.parse (Text.trimBlank (toString i)) = .ok i := by
        have ht : Text.trimBlank (toString i) = toString i := Text.trimBlank_toString i.value
        rw [ht, PeerId.parse, PeerId.parse?_toString]
      rw [Option.map_some]
      dsimp only
      rw [hread]
      exact .pure rfl

omit [Storage σ] in
/-- Logging lines reads nothing and leaves the content. -/
theorem forEach_note_reads {ι : Type} (line : ι → String) (xs : List ι) :
    (Storage.forEach (fun x => Op.note .warn (line x)) xs : Op σ _).Reads contents c
      fun _ => True := by
  induction xs with
  | nil => exact .pure trivial
  | cons x xs ih => exact .bind (.note _ _) fun _ _ => ih

/-- The handles that a directory has in its rows and redirects. -/
def seen (d : Directory) : List PeerId := d.rows.keys ++ d.redirects.keys ++ d.redirects.values

/-- The directory with its last handle raised to every handle that it has. -/
def recounted (d : Directory) : Directory := { d with lastId := d.seen.foldl PeerId.max d.lastId }

/-- **A stored directory is read back** with its last handle recounted. Nothing but its own keys is
looked at, so the storage may hold anything else beside it. -/
theorem load_reads_recounted (hs : Storage.Legible contents) (h : d.StoredIn c) :
    (load : Op σ _).Reads contents c (· = d.recounted) := by
  have hr : c.Keeps rowPrefix rowText d.rows := ⟨fun i => h.text (.row i), h.row⟩
  have hm : c.Keeps mergedPrefix mergeText d.redirects := ⟨fun i => h.text (.merged i), h.merged⟩
  have hrows := loadRows_reads hs hr Peer.mk (fun p => (p.id, p.address))
    (fun i a => Peer.decode_compact ⟨i, a⟩) (fun _ _ => rfl) "recipient"
  have hmerges := loadRows_reads hs hm Merge.mk (fun m => (m.absorbed, m.surviving))
    (fun i j => Merge.decode_compact ⟨i, j⟩) (fun _ _ => rfl) "merge"
  refine .bind hrows fun peers hpeers => .bind hmerges fun merges hmerged => ?_
  refine .bind (h.loadLastId_reads hs) fun stored hstored => ?_
  refine .bind (h.loadSelf_reads hs) fun self hself => ?_
  refine .bind (forEach_note_reads _ _) fun _ _ => .pure ?_
  rw [hpeers, hmerged, hstored, hself]
  rfl

/-- No handle of a coherent directory is above the last one, so counting again changes nothing. Its
redirects lead to handles that were given out, too. -/
theorem Coherent.recounted_eq (h : d.Coherent n) : d.recounted = d := by
  have hmax : d.seen.foldl PeerId.max d.lastId = d.lastId := by
    apply PeerId.foldl_max
    rw [h.lastId_eq]
    intro i hi
    rcases List.mem_append.mp hi with hi | hi
    · rcases List.mem_append.mp hi with hi | hi
      · obtain ⟨a, ha⟩ := Table.mem_keys_iff.mp hi
        exact h.row_le i (by simp [ha])
      · obtain ⟨j, hj⟩ := Table.mem_keys_iff.mp hi
        exact (h.redirect_le i j hj).1
    · obtain ⟨⟨j, i⟩, hj, rfl⟩ := List.mem_map.mp hi
      exact (h.redirect_le j i (Table.get?_eq_some_iff.mpr hj)).2
  rw [recounted, hmax]

/-- A coherent directory is read back as it was. -/
theorem load_reads (hs : Storage.Legible contents) (h : d.StoredIn c) (hc : d.Coherent n) :
    (load : Op σ _).Reads contents c (· = d) := by
  have hload := load_reads_recounted hs h
  rw [hc.recounted_eq] at hload
  exact hload

/-! ## Other keys -/

/-- A key that a directory may store something under, or look for something under. -/
def Owns (key : String) : Prop :=
  Text.hasPrefix rowPrefix key = true ∨ Text.hasPrefix mergedPrefix key = true ∨
    key = lastIdKey ∨ key = selfKey

/-- The key of a place belongs to the directory. -/
theorem owns_key (x : Slot) : Owns x.key := by
  cases x with
  | row i => exact .inl (Text.hasPrefix_append _ _)
  | merged i => exact .inr (.inl (Text.hasPrefix_append _ _))
  | lastId => exact .inr (.inr (.inl rfl))
  | self => exact .inr (.inr (.inr rfl))

/-- What is stored under other keys makes no difference. -/
theorem StoredIn.of_eq {c' : Contents} (h : d.StoredIn c)
    (hc : ∀ key, Owns key → c'.get? key = c.get? key) : d.StoredIn c' where
  text x := by rw [hc _ (owns_key x), h.text x]
  row {k} hk := by
    obtain ⟨hv, hp⟩ := Contents.mem_keysUnder.mp hk
    rw [hc k (.inl hp)] at hv
    exact h.row (Contents.mem_keysUnder.mpr ⟨hv, hp⟩)
  merged {k} hk := by
    obtain ⟨hv, hp⟩ := Contents.mem_keysUnder.mp hk
    rw [hc k (.inr (.inl hp))] at hv
    exact h.merged (Contents.mem_keysUnder.mpr ⟨hv, hp⟩)

end Directory

end PeerBook
