import PeerBook.Proofs.Directory.Stored

/-!
# PeerBook.Proofs.Directory.Written

What the batch of a commit does to the content of a storage. Each of its writes
leaves at a place what the published directory stores there
(`Transaction.text_of_mem_writes`), and wherever that differs from what was
stored before there is a write (`Transaction.mem_writes_of_text_ne`). So after
the batch the content is that of the published directory
(`Transaction.storedIn_published`).

The batch has four parts, and for each there is a lemma that says which writes it
has (`mem_strips`, `mem_removals`, `mem_gains`, `mem_trailer`); their order
matters only where a batch is cut off. Of the transaction it is asked that each
redirect it has recorded is the one it publishes, so that none is recorded twice
with different ends; those of a resolution are of this kind (`redirect_draft`).
-/

namespace PeerBook.Transaction

open Directory

variable {tx : Transaction} {w : Write} {x : Slot} {c : Contents}

/-- The write of a change to a row. -/
def changeWrite (i : PeerId) : Option Address → Write
  | some a => rowWrite i a
  | none => .del (rowKey i)

theorem key_changeWrite (i : PeerId) (change : Option Address) :
    (changeWrite i change).key = Slot.key (.row i) := by
  cases change <;> rfl

theorem value_changeWrite (i : PeerId) (change : Option Address) :
    (changeWrite i change).value = change.map (rowText i) := by
  cases change <;> rfl

/-- The first part has the rows that only lose identifiers. -/
theorem mem_strips : w ∈ tx.strips ↔
    ∃ i a, tx.changes.get? i = some (some a) ∧ tx.onlyLoses i a = true ∧ rowWrite i a = w := by
  simp only [strips, List.mem_filterMap, Prod.exists, Option.bind_eq_some_iff,
    Option.ite_none_right_eq_some, Option.some.injEq, Table.get?_eq_some_iff]
  grind

/-- The third part has the rows that are new or gain an identifier. -/
theorem mem_gains : w ∈ tx.gains ↔
    ∃ i a, tx.changes.get? i = some (some a) ∧ tx.onlyLoses i a = false ∧ rowWrite i a = w := by
  simp only [gains, List.mem_filterMap, Prod.exists, Option.bind_eq_some_iff,
    Option.ite_none_left_eq_some, Option.some.injEq, Table.get?_eq_some_iff]
  grind

/-- The second part has the rows that go and the recorded redirects. -/
theorem mem_removals : w ∈ tx.removals ↔
    (∃ i, tx.changes.get? i = some none ∧ .del (rowKey i) = w) ∨
      ∃ m ∈ tx.merged, mergeWrite m = w := by
  simp only [removals, List.mem_append, List.mem_filterMap, List.mem_map, Prod.exists,
    Option.ite_none_right_eq_some, Option.some.injEq, Option.isNone_iff_eq_none,
    Table.get?_eq_some_iff]
  grind

/-- The last part has the last handle and the account's own, where they changed. -/
theorem mem_trailer : w ∈ tx.trailer ↔
    (tx.lastId ≠ tx.base.lastId ∧ .put lastIdKey (toString tx.lastId) = w) ∨
      ∃ i, tx.self = some i ∧ .put selfKey (toString i) = w := by
  rw [trailer, List.mem_append, Option.mem_toList, Option.map_eq_some_iff]
  by_cases hl : tx.lastId = tx.base.lastId <;> simp [hl, eq_comm]

/-- Before the last handle and the account's own a batch writes the changed rows and the
redirects. -/
theorem mem_body : w ∈ tx.strips ++ tx.removals ++ tx.gains ↔
    (∃ i change, tx.changes.get? i = some change ∧ changeWrite i change = w) ∨
      ∃ m ∈ tx.merged, mergeWrite m = w := by
  rw [List.mem_append, List.mem_append, mem_strips, mem_removals, mem_gains]
  constructor
  · rintro ((⟨i, a, hc, -, hw⟩ | ⟨i, hc, hw⟩ | hm) | ⟨i, a, hc, -, hw⟩)
    · exact .inl ⟨i, some a, hc, hw⟩
    · exact .inl ⟨i, none, hc, hw⟩
    · exact .inr hm
    · exact .inl ⟨i, some a, hc, hw⟩
  · rintro (⟨i, _ | a, hc, hw⟩ | hm)
    · exact .inl (.inr (.inl ⟨i, hc, hw⟩))
    · cases ho : tx.onlyLoses i a with
      | true => exact .inl (.inl ⟨i, a, hc, ho, hw⟩)
      | false => exact .inr ⟨i, a, hc, ho, hw⟩
    · exact .inl (.inr (.inr hm))

/-- A batch writes the changed rows, the redirects, and the last handle and the account's own if
they changed. -/
theorem mem_writes : w ∈ tx.writes ↔
    (∃ i change, tx.changes.get? i = some change ∧ changeWrite i change = w) ∨
      (∃ m ∈ tx.merged, mergeWrite m = w) ∨
      (tx.lastId ≠ tx.base.lastId ∧ .put lastIdKey (toString tx.lastId) = w) ∨
      ∃ i, tx.self = some i ∧ .put selfKey (toString i) = w := by
  rw [writes, List.mem_append, mem_body, mem_trailer, or_assoc]

/-- The stored last handle is written with the last handle of the transaction, if that is another
than before. -/
theorem eq_of_mem_writes_of_lastIdKey (hw : w ∈ tx.writes) (hk : w.key = lastIdKey) :
    tx.lastId ≠ tx.base.lastId ∧ w = .put lastIdKey (toString tx.lastId) := by
  obtain ⟨i, change, -, rfl⟩ | ⟨m, -, rfl⟩ | ⟨hne, rfl⟩ | ⟨i, -, rfl⟩ := mem_writes.mp hw
  · rw [key_changeWrite] at hk
    cases Slot.key_inj (y := .lastId) hk
  · cases Slot.key_inj (x := .merged m.1) (y := .lastId) hk
  · exact ⟨hne, rfl⟩
  · cases Slot.key_inj (x := .self) (y := .lastId) hk

/-- The stored last handle is written exactly if a handle was given out. -/
theorem lastIdKey_mem_writes_iff :
    lastIdKey ∈ tx.writes.map Write.key ↔ tx.lastId ≠ tx.base.lastId := by
  rw [List.mem_map]
  constructor
  · rintro ⟨w, hw, hk⟩
    exact (eq_of_mem_writes_of_lastIdKey hw hk).1
  · exact fun hne => ⟨_, mem_writes.mpr (.inr (.inr (.inl ⟨hne, rfl⟩))), rfl⟩

/-- Each write leaves at a place what the published directory stores there. For the redirects this
is where it matters that none is recorded twice with different ends. -/
theorem text_of_mem_writes
    (hm : ∀ m ∈ tx.merged, tx.published.redirects.get? m.1 = some m.2)
    (hl : tx.lastId ≠ tx.base.lastId → tx.lastId ≠ ⟨0⟩) (hw : w ∈ tx.writes) :
    ∃ x : Slot, w.key = x.key ∧ w.value = tx.published.text? x := by
  obtain ⟨i, change, hc, rfl⟩ | ⟨m, hmm, rfl⟩ | ⟨hne, rfl⟩ | ⟨i, hi, rfl⟩ := mem_writes.mp hw
  · have hr : tx.published.rows.get? i = change := by
      show tx.rows.get? i = change
      rw [get?_rows, hc, Option.getD_some]
    refine ⟨.row i, key_changeWrite i change, ?_⟩
    rw [value_changeWrite, text?, hr]
  · refine ⟨.merged m.1, rfl, ?_⟩
    rw [text?, hm m hmm]
    rfl
  · refine ⟨.lastId, rfl, ?_⟩
    have hz : tx.published.lastId ≠ ⟨0⟩ := hl hne
    rw [text?, if_neg hz]
    rfl
  · refine ⟨.self, rfl, ?_⟩
    have hs : tx.published.self = some i := by
      show tx.self.or tx.base.self = some i
      rw [hi, Option.some_or]
    rw [text?, hs]
    rfl

/-- Wherever the published directory stores something else than before there is a write, so nothing
is forgotten; there may be writes where nothing changes. -/
theorem mem_writes_of_text_ne (h : tx.published.text? x ≠ tx.base.text? x) :
    ∃ w ∈ tx.writes, w.key = x.key := by
  cases x with
  | row i =>
      cases hc : tx.changes.get? i with
      | none =>
          have hr : tx.published.rows.get? i = tx.base.rows.get? i := by
            show tx.rows.get? i = _
            rw [get?_rows, hc, Option.getD_none]
          exact absurd (by rw [text?, text?, hr]) h
      | some change =>
          exact ⟨_, mem_writes.mpr (.inl ⟨i, change, hc, rfl⟩), key_changeWrite i change⟩
  | merged i =>
      by_cases hi : i ∈ tx.merged.map Prod.fst
      · obtain ⟨m, hm, rfl⟩ := List.mem_map.mp hi
        exact ⟨_, mem_writes.mpr (.inr (.inl ⟨m, hm, rfl⟩)), rfl⟩
      · have hr : tx.published.redirects.get? i = tx.base.redirects.get? i := by
          have hnone : ∀ e ∈ tx.merged, e.1 = i → some e.2 = none :=
            fun e he hei => absurd (List.mem_map.mpr ⟨e, he, hei⟩) hi
          exact (Table.get?_insertAll tx.base.redirects tx.merged hnone).trans (if_neg hi)
        exact absurd (by rw [text?, text?, hr]) h
  | lastId =>
      by_cases hl : tx.lastId = tx.base.lastId
      · have hp : tx.published.lastId = tx.base.lastId := hl
        exact absurd (by rw [text?, text?, hp]) h
      · exact ⟨_, mem_writes.mpr (.inr (.inr (.inl ⟨hl, rfl⟩))), rfl⟩
  | self =>
      cases hs : tx.self with
      | none =>
          have hp : tx.published.self = tx.base.self := by
            show tx.self.or tx.base.self = _
            rw [hs, Option.none_or]
          exact absurd (by rw [text?, text?, hp]) h
      | some i => exact ⟨_, mem_writes.mpr (.inr (.inr (.inr ⟨i, hs, rfl⟩))), rfl⟩

/-- After writes of a batch the content is that of a directory which has what the published one
stores wherever there is a write, and elsewhere what was stored before. -/
theorem storedIn_applyAll {d d' : Directory} {ws : List Write} (hws : ws ⊆ tx.writes)
    (hd : d.StoredIn c) (hm : ∀ m ∈ tx.merged, tx.published.redirects.get? m.1 = some m.2)
    (hl : tx.lastId ≠ tx.base.lastId → tx.lastId ≠ ⟨0⟩)
    (ht : ∀ x : Slot, d'.text? x =
      if x.key ∈ ws.map Write.key then tx.published.text? x else d.text? x) :
    d'.StoredIn (c.applyAll ws) := by
  have hkey {k : String} (hk : ∃ v, (c.applyAll ws).get? k = some v) :
      (∃ v, c.get? k = some v) ∨ ∃ x : Slot, k = x.key := by
    by_cases hne : ∀ w ∈ ws, w.key ≠ k
    · rw [Contents.get?_applyAll_of_ne c hne] at hk
      exact .inl hk
    · obtain ⟨w, hw, rfl⟩ : ∃ w ∈ ws, w.key = k := by simpa using hne
      obtain ⟨x, hx, -⟩ := text_of_mem_writes hm hl (hws hw)
      exact .inr ⟨x, hx⟩
  refine { text := fun x => ?_, row := fun {k} hk => ?_, merged := fun {k} hk => ?_ }
  · have hv : ∀ w ∈ ws, w.key = x.key → w.value = tx.published.text? x := by
      intro w hw hwx
      obtain ⟨y, hy, hwy⟩ := text_of_mem_writes hm hl (hws hw)
      rw [hwy, Slot.key_inj (hy.symm.trans hwx)]
    rw [Contents.get?_applyAll c ws hv, ht x, hd.text x]
  · obtain ⟨hv, hp⟩ := Contents.mem_keysUnder.mp hk
    obtain hv | ⟨x, rfl⟩ := hkey hv
    · exact hd.row (Contents.mem_keysUnder.mpr ⟨hv, hp⟩)
    · obtain ⟨i, rfl⟩ := Slot.row_of_hasPrefix hp
      exact ⟨i, rfl⟩
  · obtain ⟨hv, hp⟩ := Contents.mem_keysUnder.mp hk
    obtain hv | ⟨x, rfl⟩ := hkey hv
    · exact hd.merged (Contents.mem_keysUnder.mpr ⟨hv, hp⟩)
    · obtain ⟨i, rfl⟩ := Slot.merged_of_hasPrefix hp
      exact ⟨i, rfl⟩

/-- **After the batch of a commit the content is that of the published directory.** -/
theorem storedIn_published (hb : tx.base.StoredIn c)
    (hm : ∀ m ∈ tx.merged, tx.published.redirects.get? m.1 = some m.2)
    (hl : tx.lastId ≠ tx.base.lastId → tx.lastId ≠ ⟨0⟩) :
    tx.published.StoredIn (c.applyAll tx.writes) := by
  refine storedIn_applyAll (List.Subset.refl _) hb hm hl fun x => ?_
  split
  · rfl
  · rename_i hx
    by_cases ht : tx.published.text? x = tx.base.text? x
    · exact ht
    · obtain ⟨w, hw, hwx⟩ := mem_writes_of_text_ne ht
      exact absurd (List.mem_map.mpr ⟨w, hw, hwx⟩) hx

/-- Where no handle was given out the stored last handle stays as it was, whatever it is. This is
how a counter that lags behind can go on doing so. -/
theorem storedIn_published_of_lastId_eq {stored : PeerId} (hl : tx.lastId = tx.base.lastId)
    (hb : { tx.base with lastId := stored }.StoredIn c)
    (hm : ∀ m ∈ tx.merged, tx.published.redirects.get? m.1 = some m.2) :
    { tx.published with lastId := stored }.StoredIn (c.applyAll tx.writes) := by
  refine storedIn_applyAll (List.Subset.refl _) hb hm (absurd hl) fun x => ?_
  have htext {x : Slot} (hx : x ≠ .lastId) (d : Directory) :
      { d with lastId := stored }.text? x = d.text? x := by
    cases x with
    | row | merged | self => rfl
    | lastId => exact absurd rfl hx
  by_cases hx : x = .lastId
  · have hnot : x.key ∉ tx.writes.map Write.key := by
      rw [hx]
      exact fun hmem => lastIdKey_mem_writes_iff.mp hmem hl
    rw [if_neg hnot, hx]
    rfl
  · rw [htext hx, htext hx]
    split
    · rfl
    · rename_i hnot
      refine Decidable.byContradiction fun hne => ?_
      obtain ⟨w, hw, hwx⟩ := mem_writes_of_text_ne hne
      exact hnot (List.mem_map.mpr ⟨w, hw, hwx⟩)

/-! ## Commits -/

variable {σ : Type} [Storage σ] {contents : σ → Contents}

/-- On an atomic storage a commit that answers leaves the content of the directory it answers. -/
theorem storedIn_of_commit_returns (hs : Storage.Atomic contents) {s s' : σ} {d : Directory}
    (hb : tx.base.StoredIn (contents s))
    (hp : tx.published.StoredIn ((contents s).applyAll tx.writes))
    (h : tx.commit.Returns s d s') : d.StoredIn (contents s') := by
  obtain ⟨-, rfl, rfl⟩ | ⟨rfl, hw⟩ := commit_returns h
  · exact hb
  · obtain ⟨t, hw', ht⟩ | ⟨e, t, hf, -⟩ := hs.writeBatch tx.writes s
    · obtain ⟨-, rfl⟩ := hw.unique hw'
      rw [ht]
      exact hp
    · exact absurd hw.1 (hf.not_ok ())

/-- A commit that fails leaves the content as it was, on an atomic storage. -/
theorem contents_of_commit_fails (hs : Storage.Atomic contents) {s s' : σ} {e : Error}
    (h : tx.commit.Fails s e s') : contents s' = contents s := by
  obtain ⟨-, rfl⟩ | hw := commit_fails h
  · rfl
  · obtain ⟨t, hw', -⟩ | ⟨e', t, hw', ht⟩ := hs.writeBatch tx.writes s
    · exact absurd hw'.1 (hw.not_ok _)
    · obtain ⟨-, rfl⟩ := hw.unique hw'
      exact ht

/-- On a storage that makes writes one after another a commit leaves the first writes of its
batch. -/
theorem commit_leaves (hs : Storage.Stepwise contents) (tx : Transaction) (s : σ) :
    ∃ made, made <+: tx.writes ∧ contents (tx.commit.run s).state = (contents s).applyAll made := by
  obtain ⟨-, hr⟩ | ⟨f, -, hf⟩ | ⟨-, -, ⟨s', hw, hr⟩ | ⟨e, s', hw, hf⟩⟩ := tx.commit_cases s
  · exact ⟨[], List.nil_prefix, by rw [hr.2]; rfl⟩
  · exact ⟨[], List.nil_prefix, by rw [hf.2]; rfl⟩
  · obtain ⟨t, hw', ht⟩ | ⟨e, t, made, hw', -⟩ := hs.writes tx.writes s
    · obtain ⟨-, rfl⟩ := hw.unique hw'
      exact ⟨tx.writes, List.prefix_rfl, by rw [hr.2, ht]⟩
    · exact absurd hw.1 (hw'.not_ok ())
  · obtain ⟨t, hw', -⟩ | ⟨e', t, made, hw', hm, ht⟩ := hs.writes tx.writes s
    · exact absurd hw'.1 (hw.not_ok ())
    · obtain ⟨-, rfl⟩ := hw.unique hw'
      exact ⟨made, hm, by rw [hf.2, ht]⟩

end PeerBook.Transaction

namespace PeerBook.Directory

variable {d : Directory} {c : Contents} {n : Nat}

/-- The redirects of a trusted resolution are published. -/
theorem redirect_draft (d : Directory) (markSelf : Bool) (request : Address) :
    ∀ m ∈ (d.draft markSelf request).merged,
      (d.draft markSelf request).published.redirects.get? m.1 = some m.2 := by
  rw [merged_draft]
  intro m hm
  obtain ⟨i, hi, rfl⟩ := List.mem_map.mp hm
  show (d.resolved markSelf request).redirects.get? i = _
  rw [redirects_resolved, Redirects.get?_insertAll, if_pos hi]

/-- As long as handles are left, a last handle that is written is not zero. -/
theorem lastId_draft_ne_zero (hn : d.lastId.toNat + 1 < UInt64.size) {markSelf : Bool}
    {request : Address}
    (hne : (d.draft markSelf request).lastId ≠ (d.draft markSelf request).base.lastId) :
    (d.draft markSelf request).lastId ≠ ⟨0⟩ := by
  have hl : (d.draft markSelf request).lastId = _ := lastId_resolved d markSelf request
  rw [base_draft, hl] at hne
  rw [hl]
  split at hne
  · rename_i hcr
    rw [if_pos hcr]
    exact PeerId.next_ne_zero hn
  · contradiction

/-- The batch of a trusted resolution. -/
theorem StoredIn.resolved (h : d.StoredIn c) (hc : d.Coherent n) (hn : n + 1 < UInt64.size)
    (markSelf : Bool) (request : Address) :
    (d.resolved markSelf request).StoredIn (c.applyAll (d.draft markSelf request).writes) := by
  apply Transaction.storedIn_published
  · rw [base_draft]
    exact h
  · exact redirect_draft d markSelf request
  · exact lastId_draft_ne_zero (by rw [hc.lastId_eq]; exact hn)

/-- The batch of a look-up that finds no peer. -/
theorem StoredIn.added (h : d.StoredIn c) (hc : d.Coherent n) (hn : n + 1 < UInt64.size)
    (request : Address) :
    (d.added request).StoredIn (c.applyAll (d.addition request).writes) :=
  Transaction.storedIn_published h nofun fun _ => hc.next_ne_zero hn

end PeerBook.Directory
