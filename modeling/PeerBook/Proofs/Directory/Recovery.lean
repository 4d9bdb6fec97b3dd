import PeerBook.Proofs.Directory.Written

/-!
# PeerBook.Proofs.Directory.Recovery

What a directory makes of a content that it did not write, as far as handles go.
The last handle is as high as the stored counter, every row that can be read and
every absorbed handle of a redirect (`Directory.ReadFrom`). A row may be deleted
and a redirect redirected, so only the counter and the redirects under their own
keys are there for good: what they are at least as high as is vouched for
(`Directory.Vouched`), and stays so whatever is committed
(`Transaction.vouched_applyAll`).

A redirect is under its own key when the key names the handle that the record
says was absorbed; one under another key may be overwritten by a commit that
knows nothing of it. `Op.Looks` is for reading that may fail: it leaves the
content, and what it answers, if it does, is of some kind.
-/

namespace PeerBook

variable {σ α β : Type} {contents : σ → Contents} {c : Contents}

/-! ## Looking at a content -/

/-- On every state with a content the operation leaves the content, and answers, if it does, a value
of some kind. -/
def Op.Looks (op : Op σ α) (contents : σ → Contents) (c : Contents) (P : α → Prop) : Prop :=
  ∀ s, contents s = c →
    contents (op.run s).state = c ∧ ∀ a, (op.run s).result = .ok a → P a

/-- What reads and always answers does so where it may also fail. -/
theorem Op.Reads.looks {op : Op σ α} {P : α → Prop} (h : op.Reads contents c P) :
    op.Looks contents c P := by
  intro s hs
  obtain ⟨a, s', hr, hs', ha⟩ := h s hs
  rw [hr.1, hr.2]
  exact ⟨hs', fun b hb => Except.ok.inj hb ▸ ha⟩

theorem Op.Looks.pure {a : α} {P : α → Prop} (h : P a) :
    (Pure.pure a : Op σ α).Looks contents c P :=
  fun _ hs => ⟨hs, fun _ hb => Except.ok.inj hb ▸ h⟩

theorem Op.Looks.ofExcept {r : Except Error α} {P : α → Prop} (h : ∀ a, r = .ok a → P a) :
    (Op.ofExcept r : Op σ α).Looks contents c P := by
  intro s hs
  rw [run_ofExcept]
  exact ⟨hs, h⟩

/-- What is read after an answer starts from the same content. -/
theorem Op.Looks.bind {op : Op σ α} {next : α → Op σ β} {P : α → Prop} {Q : β → Prop}
    (h : op.Looks contents c P) (h' : ∀ a, P a → (next a).Looks contents c Q) :
    (op >>= next).Looks contents c Q := by
  intro s hs
  obtain ⟨hkeep, hP⟩ := h s hs
  obtain ⟨a, s₁, hr⟩ | ⟨e, s₁, hf⟩ := returns_or_fails op s
  · rw [hr.2] at hkeep
    rw [hr.state_bind, hr.result_bind]
    exact h' a (hP a hr.1) s₁ hkeep
  · rw [hf.2] at hkeep
    rw [(hf.bind next).2]
    exact ⟨hkeep, fun b hb => absurd hb ((hf.bind next).not_ok b)⟩

namespace Directory

/-! ## What is read -/

/-- The stored counter; one that is missing counts as zero. -/
def counter (c : Contents) : PeerId :=
  match c.get? lastIdKey with
  | none => ⟨0⟩
  | some raw =>
    match Text.readUInt64 (Text.trimBlank raw) with
    | .ok n => ⟨n⟩
    | .error _ => ⟨0⟩

/-- How the handles of a directory that is read are related to the content. -/
structure ReadFrom (d : Directory) (c : Contents) : Prop where
  row_iff (i : PeerId) :
    d.rows.get? i ≠ none ↔ ∃ p, Readable c rowPrefix Peer.ofJson p ∧ p.id = i
  row_le (i : PeerId) : d.rows.get? i ≠ none → i.toNat ≤ d.lastId.toNat
  counter_le : (counter c).toNat ≤ d.lastId.toNat
  absorbed_le {m : Merge} : Readable c mergedPrefix Merge.ofJson m →
    m.absorbed.toNat ≤ d.lastId.toNat

variable [Storage σ]

/-- The last handle is read as the stored counter, or reading fails because that is no numeral. -/
theorem loadLastId_looks (hs : Storage.Legible contents) :
    (loadLastId : Op σ _).Looks contents c (· = counter c) := by
  refine .bind (hs.get c lastIdKey).looks fun v hv => ?_
  unfold counter
  rw [← hv]
  cases v with
  | none => exact .pure rfl
  | some raw =>
      refine .ofExcept fun l hl => ?_
      dsimp only
      cases hread : Text.readUInt64 (Text.trimBlank raw) with
      | ok n =>
          rw [hread] at hl
          exact (Except.ok.inj hl).symm
      | error e =>
          rw [hread] at hl
          contradiction

/-- The account's own handle is read and leaves the content. -/
theorem loadSelf_looks (hs : Storage.Legible contents) :
    (loadSelf : Op σ _).Looks contents c fun _ => True := by
  refine .bind (hs.get c selfKey).looks fun v _ => ?_
  cases v with
  | none => exact .pure trivial
  | some raw => exact .ofExcept fun _ _ => trivial

/-- **Reading a directory** leaves the content, and finds the handles of what can be read. Reading
fails only for a counter or an own handle that is no numeral. -/
theorem load_looks (hs : Storage.Legible contents) :
    (load : Op σ _).Looks contents c (·.ReadFrom c) := by
  refine .bind (loadRows_reads_all hs _ _ _).looks fun peers hpeers => ?_
  refine .bind (loadRows_reads_all hs _ _ _).looks fun merges hmerges => ?_
  refine .bind (loadLastId_looks hs) fun stored hstored => ?_
  refine .bind (loadSelf_looks hs) fun self _ => ?_
  refine .bind (forEach_note_reads _ _).looks fun _ _ => .pure ?_
  have hrows (i : PeerId) :
      i ∈ (Table.ofList (peers.map fun p => (p.id, p.address))).keys ↔
        ∃ p, Readable c rowPrefix Peer.ofJson p ∧ p.id = i := by
    simp only [Table.mem_keys_ofList, List.map_map, List.mem_map, hpeers, Function.comp_apply]
  have hseen {i : PeerId} {ids : List PeerId} (h : i = stored ∨ i ∈ ids) :
      i.toNat ≤ (ids.foldl PeerId.max stored).toNat := PeerId.le_foldl_max h
  refine ⟨fun i => ?_, fun i hi => ?_, ?_, fun {m} hm => ?_⟩
  · rw [Option.ne_none_iff_exists', ← hrows i, Table.mem_keys_iff]
  · rw [Option.ne_none_iff_exists', ← Table.mem_keys_iff] at hi
    exact hseen (.inr (List.mem_append_left _ (List.mem_append_left _ hi)))
  · rw [← hstored]
    exact hseen (.inl rfl)
  · refine hseen (.inr (List.mem_append_left _ (List.mem_append_right _ ?_)))
    rw [Table.mem_keys_ofList, List.map_map]
    exact List.mem_map.mpr ⟨m, (hmerges m).mpr hm, rfl⟩

/-! ## What is there for good -/

/-- A handle that a content is at least as high as, by the stored counter or by a redirect under its
own key. -/
def Vouched (c : Contents) (i : PeerId) : Prop :=
  i.toNat ≤ (counter c).toNat ∨
    ∃ m raw, c.get? (mergedKey m.absorbed) = some raw ∧ Json.decode Merge.ofJson raw = .ok m ∧
      i.toNat ≤ m.absorbed.toNat

omit [Storage σ] in
/-- A directory that is read has its last handle at least as high as what is vouched for. -/
theorem ReadFrom.le_of_vouched {d : Directory} (h : d.ReadFrom c) {i : PeerId}
    (hi : Vouched c i) : i.toNat ≤ d.lastId.toNat := by
  obtain hi | ⟨m, raw, hraw, hm, hi⟩ := hi
  · exact Nat.le_trans hi h.counter_le
  · exact Nat.le_trans hi (h.absorbed_le ⟨_, raw, hraw, Text.hasPrefix_append _ _, hm⟩)

omit [Storage σ] in
/-- The counter of a stored directory is its last handle. -/
theorem StoredIn.counter_eq {d : Directory} (h : d.StoredIn c) : counter c = d.lastId := by
  have hl : c.get? lastIdKey = if d.lastId = ⟨0⟩ then none else some (toString d.lastId) :=
    h.text .lastId
  rw [counter, hl]
  by_cases hz : d.lastId = ⟨0⟩
  · rw [if_pos hz, hz]
  · rw [if_neg hz]
    dsimp only
    rw [Text.readUInt64_trimBlank]

omit [Storage σ] in
/-- A stored directory vouches for the handles up to the last one and up to each that was
absorbed. -/
theorem StoredIn.vouched_iff {d : Directory} (h : d.StoredIn c) {i : PeerId} :
    Vouched c i ↔ i.toNat ≤ d.lastId.toNat ∨ ∃ j ∈ d.redirects.keys, i.toNat ≤ j.toNat := by
  have hget (j : PeerId) : c.get? (mergedKey j) = (d.redirects.get? j).map (mergeText j) :=
    h.text (.merged j)
  rw [Vouched, h.counter_eq]
  refine or_congr_right ⟨?_, ?_⟩
  · rintro ⟨⟨j, k⟩, raw, hraw, -, hi⟩
    rw [hget j] at hraw
    obtain ⟨k', hk', -⟩ := Option.map_eq_some_iff.mp hraw
    exact ⟨j, Table.mem_keys_iff.mpr ⟨k', hk'⟩, hi⟩
  · rintro ⟨j, hj, hi⟩
    obtain ⟨k, hk⟩ := Table.mem_keys_iff.mp hj
    have hraw := hget j
    rw [hk] at hraw
    exact ⟨⟨j, k⟩, _, hraw, Merge.decode_compact ⟨j, k⟩, hi⟩

end Directory

/-! ## What a commit leaves -/

namespace Transaction

open Directory

variable {tx : Transaction} {i : PeerId}

/-- The stored counter goes on to the last handle if any was given out, and otherwise stays as it
was stored, even where reading had raised the last handle above it. -/
theorem counter_applyAll : counter (c.applyAll tx.writes) =
    if tx.lastId = tx.base.lastId then counter c else tx.lastId := by
  have hget := Contents.get?_applyAll c tx.writes fun w hw hk => by
    rw [(eq_of_mem_writes_of_lastIdKey hw hk).2]
  by_cases hl : tx.lastId = tx.base.lastId
  · rw [if_neg fun hm => lastIdKey_mem_writes_iff.mp hm hl] at hget
    rw [if_pos hl, counter, hget]
    rfl
  · rw [if_pos (lastIdKey_mem_writes_iff.mpr hl)] at hget
    rw [if_neg hl, counter, hget]
    dsimp only [Write.value]
    rw [Text.readUInt64_trimBlank]

/-- What is vouched for stays so: a commit only raises the counter, and leaves the redirects under
their own keys. -/
theorem vouched_applyAll (hc : (counter c).toNat ≤ tx.lastId.toNat) (h : Vouched c i) :
    Vouched (c.applyAll tx.writes) i := by
  obtain hi | ⟨⟨absorbed, surviving⟩, raw, hraw, hm, hi⟩ := h
  · left
    rw [counter_applyAll]
    split
    · exact hi
    · exact Nat.le_trans hi hc
  · right
    obtain hkeep | ⟨w, hw, hk, hv⟩ := Contents.get?_applyAll_or c tx.writes (mergedKey absorbed)
    · exact ⟨⟨absorbed, surviving⟩, raw, hkeep.trans hraw, hm, hi⟩
    · -- the redirect is written anew, for the same absorbed handle
      obtain ⟨j, change, -, rfl⟩ | ⟨e, -, rfl⟩ | ⟨-, rfl⟩ | ⟨j, -, rfl⟩ := mem_writes.mp hw
      · rw [key_changeWrite] at hk
        cases Slot.key_inj (y := .merged absorbed) hk
      · cases Slot.key_inj (x := .merged e.1) (y := .merged absorbed) hk
        exact ⟨⟨e.1, e.2⟩, _, hv, Merge.decode_compact _, hi⟩
      · cases Slot.key_inj (x := .lastId) (y := .merged absorbed) hk
      · cases Slot.key_inj (x := .self) (y := .merged absorbed) hk

/-- Where handles were given out, all up to the last are vouched for. -/
theorem vouched_of_le (hne : tx.lastId ≠ tx.base.lastId) (hi : i.toNat ≤ tx.lastId.toNat) :
    Vouched (c.applyAll tx.writes) i := by
  left
  rw [counter_applyAll, if_neg hne]
  exact hi

/-- A row that can be read after a commit could be read before, or is one that it left. Rows of
others under the same prefix are not touched. -/
theorem readable_applyAll {p : Peer}
    (h : Readable (c.applyAll tx.writes) rowPrefix Peer.ofJson p) :
    Readable c rowPrefix Peer.ofJson p ∨ tx.rows.get? p.id = some p.address := by
  obtain ⟨k, raw, hget, hp, hraw⟩ := h
  obtain hkeep | ⟨w, hw, rfl, hv⟩ := Contents.get?_applyAll_or c tx.writes k
  · exact .inl ⟨k, raw, hkeep.symm.trans hget, hp, hraw⟩
  · right
    obtain ⟨j, change, hc, rfl⟩ | ⟨e, -, rfl⟩ | ⟨-, rfl⟩ | ⟨j, -, rfl⟩ := mem_writes.mp hw
    · rw [hget, value_changeWrite] at hv
      obtain ⟨a, rfl, rfl⟩ := Option.map_eq_some_iff.mp hv.symm
      have hpeer : Json.decode Peer.ofJson (rowText j a) = .ok ⟨j, a⟩ := Peer.decode_compact ⟨j, a⟩
      obtain rfl := Except.ok.inj (hraw.symm.trans hpeer)
      rw [get?_rows, hc, Option.getD_some]
    · obtain ⟨j, hj⟩ := Slot.row_of_hasPrefix (x := .merged e.1) hp
      cases hj
    · obtain ⟨j, hj⟩ := Slot.row_of_hasPrefix (x := .lastId) hp
      cases hj
    · obtain ⟨j, hj⟩ := Slot.row_of_hasPrefix (x := .self) hp
      cases hj

end Transaction

end PeerBook
