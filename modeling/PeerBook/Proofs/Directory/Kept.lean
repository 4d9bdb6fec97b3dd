import PeerBook.Proofs.AddressTable.Listing
import PeerBook.Proofs.Directory.Allotment
import PeerBook.Proofs.Storage.Healthy

/-!
# PeerBook.Proofs.Directory.Kept

The rows of a directory and of the content that it wrote. A content keeps the
rows of a directory when each is there under its key and nothing else lies where
rows are looked for (`Directory.KeptIn`). Less is asked than that the content is
that of the directory: redirects may be overwritten, and handles and redirects
that were recorded may be of any kind. A directory that is read from such a
content has the rows (`Directory.KeptIn.load_reads`), and every commit keeps them
kept (`Directory.KeptIn.published`); so do runs of transactions
(`Opened.keptIn_after`).

This is the invariant to have where transactions are asked for anything, since a
transaction may record a redirect twice and then not even the directory in use
agrees with what is stored about it.
-/

namespace PeerBook

variable {c : Contents} {d : Directory}

namespace Transaction

open Directory

variable {tx : Transaction} {w : Write} {i : PeerId}

/-- Every write of a batch is about the place of something that a directory stores. -/
theorem exists_slot_of_mem_writes (hw : w ∈ tx.writes) : ∃ x : Slot, w.key = x.key := by
  obtain ⟨i, change, -, rfl⟩ | ⟨m, -, rfl⟩ | ⟨-, rfl⟩ | ⟨i, -, rfl⟩ := mem_writes.mp hw
  · exact ⟨.row i, key_changeWrite i change⟩
  · exact ⟨.merged m.1, rfl⟩
  · exact ⟨.lastId, rfl⟩
  · exact ⟨.self, rfl⟩

/-- A write about a row leaves what the published directory stores for it. Nothing has to be known
of the redirects that were recorded, as these are written under other keys. -/
theorem value_of_mem_writes_of_row (hw : w ∈ tx.writes) (hk : w.key = Slot.key (.row i)) :
    w.value = tx.published.text? (.row i) := by
  obtain ⟨j, change, hc, rfl⟩ | ⟨m, -, rfl⟩ | ⟨-, rfl⟩ | ⟨j, -, rfl⟩ := mem_writes.mp hw
  · rw [key_changeWrite] at hk
    cases Slot.key_inj hk
    have hr : tx.published.rows.get? i = change := by
      show tx.rows.get? i = change
      rw [get?_rows, hc, Option.getD_some]
    rw [value_changeWrite, text?, hr]
  · cases Slot.key_inj (x := .merged m.1) (y := .row i) hk
  · cases Slot.key_inj (x := .lastId) (y := .row i) hk
  · cases Slot.key_inj (x := .self) (y := .row i) hk

/-- The account's own handle is written as a numeral. -/
theorem eq_of_mem_writes_of_selfKey (hw : w ∈ tx.writes) (hk : w.key = selfKey) :
    ∃ i : PeerId, w.value = some (toString i) := by
  obtain ⟨j, change, -, rfl⟩ | ⟨m, -, rfl⟩ | ⟨-, rfl⟩ | ⟨i, -, rfl⟩ := mem_writes.mp hw
  · rw [key_changeWrite] at hk
    cases Slot.key_inj (y := .self) hk
  · cases Slot.key_inj (x := .merged m.1) (y := .self) hk
  · cases Slot.key_inj (x := .lastId) (y := .self) hk
  · exact ⟨i, rfl⟩

end Transaction

namespace Directory

/-- A content has the rows of a directory, each under its key, and no others; the last handle and
the account's own are numerals if they are there. -/
structure KeptIn (d : Directory) (c : Contents) : Prop where
  rows : c.Keeps rowPrefix rowText d.rows
  lastId {raw : String} : c.get? lastIdKey = some raw → ∃ i : PeerId, raw = toString i
  self {raw : String} : c.get? selfKey = some raw → ∃ i : PeerId, raw = toString i

/-- A content that is that of the directory keeps its rows. -/
theorem StoredIn.keptIn (h : d.StoredIn c) : d.KeptIn c where
  rows := ⟨fun i => h.text (.row i), h.row⟩
  lastId {raw} hraw := by
    rw [show c.get? lastIdKey = _ from h.text .lastId, text?, Option.ite_none_left_eq_some] at hraw
    exact ⟨d.lastId, (Option.some.inj hraw.2).symm⟩
  self {raw} hraw := by
    rw [show c.get? selfKey = _ from h.text .self, text?, Option.map_eq_some_iff] at hraw
    obtain ⟨i, -, hi⟩ := hraw
    exact ⟨i, hi.symm⟩

/-- Only the rows of the directory matter. -/
theorem KeptIn.of_rows_eq {d' : Directory} (h : d.KeptIn c) (hr : d'.rows = d.rows) :
    d'.KeptIn c := by
  obtain ⟨hrows, hlast, hself⟩ := h
  rw [← hr] at hrows
  exact ⟨hrows, hlast, hself⟩

/-- **A commit keeps the rows** that it publishes: wherever a row changed there is a write about it,
and no write leaves anything else under the keys of rows. -/
theorem KeptIn.published {tx : Transaction} (h : tx.base.KeptIn c) :
    tx.published.KeptIn (c.applyAll tx.writes) where
  rows := by
    refine ⟨fun i => ?_, fun {k} hk => ?_⟩
    · show (c.applyAll tx.writes).get? (Slot.key (.row i)) = tx.published.text? (.row i)
      rw [Contents.get?_applyAll c tx.writes fun w hw => Transaction.value_of_mem_writes_of_row hw]
      split
      · rfl
      · rename_i hnot
        refine (h.rows.get? i).trans (Decidable.byContradiction fun hne => hnot ?_)
        obtain ⟨w, hw, hwx⟩ := Transaction.mem_writes_of_text_ne (x := .row i) (Ne.symm hne)
        exact List.mem_map.mpr ⟨w, hw, hwx⟩
    · obtain ⟨⟨v, hv⟩, hp⟩ := Contents.mem_keysUnder.mp hk
      obtain hkeep | ⟨w, hw, rfl, -⟩ := Contents.get?_applyAll_or c tx.writes k
      · exact h.rows.key (Contents.mem_keysUnder.mpr ⟨⟨v, hkeep.symm.trans hv⟩, hp⟩)
      · obtain ⟨x, hx⟩ := Transaction.exists_slot_of_mem_writes hw
        rw [hx] at hp ⊢
        obtain ⟨i, rfl⟩ := Slot.row_of_hasPrefix hp
        exact ⟨i, rfl⟩
  lastId {raw} hraw := by
    obtain hkeep | ⟨w, hw, hk, hv⟩ := Contents.get?_applyAll_or c tx.writes lastIdKey
    · exact h.lastId (hkeep.symm.trans hraw)
    · obtain ⟨-, rfl⟩ := Transaction.eq_of_mem_writes_of_lastIdKey hw hk
      exact ⟨tx.lastId, Option.some.inj (hraw.symm.trans hv)⟩
  self {raw} hraw := by
    obtain hkeep | ⟨w, hw, hk, hv⟩ := Contents.get?_applyAll_or c tx.writes selfKey
    · exact h.self (hkeep.symm.trans hraw)
    · obtain ⟨i, hi⟩ := Transaction.eq_of_mem_writes_of_selfKey hw hk
      exact ⟨i, Option.some.inj (hraw.symm.trans (hv.trans hi))⟩

/-! ## Reading them back -/

section

variable {σ : Type} [Storage σ] {contents : σ → Contents}

/-- The last handle is read where a numeral stands for it, or nothing. -/
theorem loadLastId_reads_of_numeral (hs : Storage.Legible contents)
    (h : ∀ {raw}, c.get? lastIdKey = some raw → ∃ i : PeerId, raw = toString i) :
    (loadLastId : Op σ _).Reads contents c fun _ => True := by
  refine .bind (hs.get c lastIdKey) fun v hv => ?_
  cases v with
  | none => exact .pure trivial
  | some raw =>
      obtain ⟨i, rfl⟩ := h hv.symm
      dsimp only
      rw [Text.readUInt64_trimBlank]
      exact .pure trivial

/-- The account's own handle is read where a numeral stands for it, or nothing. -/
theorem loadSelf_reads_of_numeral (hs : Storage.Legible contents)
    (h : ∀ {raw}, c.get? selfKey = some raw → ∃ i : PeerId, raw = toString i) :
    (loadSelf : Op σ _).Reads contents c fun _ => True := by
  refine .bind (hs.get c selfKey) fun v hv => ?_
  cases v with
  | none => exact .pure trivial
  | some raw =>
      obtain ⟨i, rfl⟩ := h hv.symm
      have ht : Text.trimBlank (toString i) = toString i := Text.trimBlank_toString i.value
      dsimp only
      rw [ht, PeerId.parse, PeerId.parse?_toString]
      exact .pure trivial

/-- **The rows are read back** from a content that keeps them. -/
theorem KeptIn.load_reads (hs : Storage.Legible contents) (h : d.KeptIn c) :
    (load : Op σ _).Reads contents c (·.rows = d.rows) := by
  have hrows := loadRows_reads hs h.rows Peer.mk (fun p => (p.id, p.address))
    (fun i a => Peer.decode_compact ⟨i, a⟩) (fun _ _ => rfl) "recipient"
  refine .bind hrows fun peers hpeers => .bind (loadRows_reads_all hs _ _ _) fun merges _ => ?_
  refine .bind (loadLastId_reads_of_numeral hs h.lastId) fun stored _ => ?_
  refine .bind (loadSelf_reads_of_numeral hs h.self) fun self _ => ?_
  exact .bind (forEach_note_reads _ _) fun _ _ => .pure hpeers

end

end Directory

/-! ## Runs of transactions -/

namespace Transaction

variable {σ : Type} [Storage σ] {contents : σ → Contents} {tx : Transaction}

/-- A commit that answers keeps the rows that it answers, on a storage that makes the batches it
accepts. -/
theorem keptIn_of_commit_returns (hs : Storage.Orderly contents) {s s' : σ}
    (h : tx.base.KeptIn (contents s)) (hr : tx.commit.Returns s d s') : d.KeptIn (contents s') := by
  obtain ⟨-, rfl, rfl⟩ | ⟨rfl, hw⟩ := commit_returns hr
  · exact h
  · obtain ⟨t, hw', ht⟩ | ⟨e, t, made, hf, -⟩ := hs tx.writes s
    · obtain ⟨-, rfl⟩ := hw.unique hw'
      rw [ht]
      exact h.published
    · exact absurd hw.1 (hf.not_ok ())

end Transaction

namespace Opened

variable {σ : Type} [Storage σ] {contents : σ → Contents} {o : Opened σ}

/-- Each turn keeps the rows of the directory in use, on a storage whose batches are made as a whole
or not at all. -/
theorem keptIn_next (hs : Storage.Atomic contents) (h : o.directory.KeptIn (contents o.storage))
    (t : Turn) : (o.next t).directory.KeptIn (contents (o.next t).storage) := by
  cases t with
  | transact edits commit =>
      cases commit with
      | false => exact h
      | true =>
          rw [next]
          obtain ⟨d, s, hr⟩ | ⟨e, s, hf⟩ :=
            Op.returns_or_fails (o.directory.begin.editAll edits).commit o.storage
          · rw [goOn_of_returns hr]
            rw [← Transaction.base_editAll_begin o.directory edits] at h
            exact Transaction.keptIn_of_commit_returns hs.orderly h hr
          · rw [goOn_of_fails hf]
            show o.directory.KeptIn (contents s)
            rw [Transaction.contents_of_commit_fails hs hf]
            exact h
  | reopen =>
      obtain ⟨d, s, hr, hc, hd⟩ := h.load_reads hs.toLegible o.storage rfl
      rw [next, goOn_of_returns hr]
      show d.KeptIn (contents s)
      rw [hc]
      exact h.of_rows_eq hd

/-- **Turn after turn the storage keeps the rows** of the directory in use. -/
theorem keptIn_after (hs : Storage.Atomic contents)
    (h : o.directory.KeptIn (contents o.storage)) (turns : List Turn) :
    (o.after turns).directory.KeptIn (contents (o.after turns).storage) := by
  induction turns generalizing o with
  | nil => exact h
  | cons t ts ih => exact ih (keptIn_next hs h t)

end Opened

end PeerBook
