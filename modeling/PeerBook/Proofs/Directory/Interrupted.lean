import PeerBook.Proofs.Directory.Written

/-!
# PeerBook.Proofs.Directory.Interrupted

What is stored when only the first writes of a batch were made. Each place has
what the batch leaves there if its write was made, and what was stored before if
not (`Transaction.storedIn_interrupted`); and the directory that is read from it
has its last handle recounted, so a counter that was not written does no harm
(`Directory.recounted_heldIn`). Whatever the prefix of the batch of a trusted
resolution, no identifier is on two of the rows
(`Directory.unambiguous_interrupted`): as long as the peer's row was not written
every row has at most what it had, and by the time that it was written all others
have given up what they lose.

`HeldIn` is the invariant of a storage on which batches may stop: it has what the
directory has, up to the last handle. The directory that is read anew and the one
in use then differ in that handle at most.
-/

namespace PeerBook

open LawfulAddressTable

namespace Directory

/-- Whether writes are about a place. -/
def Slot.Among (x : Slot) (ws : List Write) : Prop := x.key ∈ ws.map Write.key

instance (x : Slot) (ws : List Write) : Decidable (x.Among ws) :=
  inferInstanceAs (Decidable (x.key ∈ ws.map Write.key))

end Directory

/-! ## Part of a batch -/

namespace Transaction

open Directory

variable {tx : Transaction} {stored : PeerId} {ws : List Write} {c : Contents} {i : PeerId}

/-- The directory that is stored when of the batch only some writes were made; `stored` is the last
handle that was stored before. -/
def interrupted (tx : Transaction) (stored : PeerId) (ws : List Write) : Directory where
  rows := tx.base.rows.overlay (tx.changes.filter fun i _ => (Slot.row i).Among ws)
  redirects := tx.base.redirects.insertAll (tx.merged.filter fun m => (Slot.merged m.1).Among ws)
  lastId := if Slot.lastId.Among ws then tx.lastId else stored
  self := if Slot.self.Among ws then tx.published.self else tx.base.self

/-- The row of a handle is the one that the batch leaves if its write was made, and the one before
if not. -/
theorem get?_rows_interrupted : (tx.interrupted stored ws).rows.get? i =
    if (Slot.row i).Among ws then tx.rows.get? i else tx.base.rows.get? i := by
  rw [interrupted, Table.get?_overlay, Table.get?_filter, get?_rows]
  by_cases hi : (Slot.row i).Among ws <;> cases tx.changes.get? i <;> simp [hi, Option.filter]

/-- A row whose change was written is as it is afterwards. -/
theorem get?_rows_interrupted_of_mem
    (h : ∀ change, tx.changes.get? i = some change → changeWrite i change ∈ ws) :
    (tx.interrupted stored ws).rows.get? i = tx.rows.get? i := by
  rw [get?_rows_interrupted]
  split
  · rfl
  · rename_i hi
    cases hc : tx.changes.get? i with
    | none => rw [get?_rows, hc, Option.getD_none]
    | some change =>
        exact absurd (List.mem_map.mpr ⟨_, h change hc, key_changeWrite i change⟩) hi

/-- The redirect of a handle is the one that the batch leaves if its write was made, and the one
before if not. -/
theorem get?_redirects_interrupted
    (hm : ∀ m ∈ tx.merged, tx.published.redirects.get? m.1 = some m.2) :
    (tx.interrupted stored ws).redirects.get? i =
      if (Slot.merged i).Among ws then tx.published.redirects.get? i
      else tx.base.redirects.get? i := by
  have hfilter : ∀ m ∈ tx.merged.filter fun m => (Slot.merged m.1).Among ws, m.1 = i →
      some m.2 = tx.published.redirects.get? i := by
    rintro m hmf rfl
    exact (hm m (List.mem_filter.mp hmf).1).symm
  have hpublished : tx.published.redirects.get? i =
      if i ∈ tx.merged.map Prod.fst then tx.published.redirects.get? i
      else tx.base.redirects.get? i := by
    refine Table.get?_insertAll _ _ ?_
    rintro m hmm rfl
    exact (hm m hmm).symm
  have hmem : i ∈ (tx.merged.filter fun m => (Slot.merged m.1).Among ws).map Prod.fst ↔
      (Slot.merged i).Among ws ∧ i ∈ tx.merged.map Prod.fst := by
    simp only [List.mem_map, List.mem_filter, decide_eq_true_eq]
    constructor
    · rintro ⟨m, ⟨hmm, hmi⟩, rfl⟩
      exact ⟨hmi, m, hmm, rfl⟩
    · rintro ⟨hmi, m, hmm, rfl⟩
      exact ⟨m, ⟨hmm, hmi⟩, rfl⟩
  rw [interrupted, Table.get?_insertAll _ _ hfilter]
  by_cases hi : (Slot.merged i).Among ws
  · rw [if_pos hi]
    by_cases hex : i ∈ tx.merged.map Prod.fst
    · rw [if_pos (hmem.mpr ⟨hi, hex⟩)]
    · rw [if_neg fun h => hex (hmem.mp h).2, hpublished, if_neg hex]
  · rw [if_neg hi, if_neg fun h => hi (hmem.mp h).1]

/-- At each place there is what the batch leaves if its write was made, and what was stored before
if not. -/
theorem text?_interrupted (hm : ∀ m ∈ tx.merged, tx.published.redirects.get? m.1 = some m.2)
    (x : Slot) : (tx.interrupted stored ws).text? x =
      if x.Among ws then tx.published.text? x else { tx.base with lastId := stored }.text? x := by
  cases x with
  | row i =>
      rw [text?, get?_rows_interrupted]
      split <;> rfl
  | merged i =>
      rw [text?, get?_redirects_interrupted hm]
      split <;> rfl
  | lastId =>
      by_cases hx : Slot.lastId.Among ws
      · simp only [text?, interrupted, hx, if_true]
        rfl
      · simp only [text?, interrupted, hx, if_false]
  | self =>
      by_cases hx : Slot.self.Among ws
      · simp only [text?, interrupted, hx, if_true]
      · simp only [text?, interrupted, hx, if_false]

/-- **What is stored of an interrupted batch.** -/
theorem storedIn_interrupted (hws : ws ⊆ tx.writes)
    (hb : { tx.base with lastId := stored }.StoredIn c)
    (hm : ∀ m ∈ tx.merged, tx.published.redirects.get? m.1 = some m.2)
    (hl : tx.lastId ≠ tx.base.lastId → tx.lastId ≠ ⟨0⟩) :
    (tx.interrupted stored ws).StoredIn (c.applyAll ws) :=
  storedIn_applyAll hws hb hm hl fun x => text?_interrupted hm x

/-- Of the rows that a batch strips or removes nothing is left that they did not have; the batch is
sorted by this very test. -/
theorem onlyLoses_of_mem {w : Write} (hw : w ∈ tx.strips ++ tx.removals)
    (hk : w.key = (Slot.row i).key) {a : Address} (ha : tx.rows.get? i = some a) :
    tx.onlyLoses i a = true := by
  have hrow {change : Option Address} (hc : tx.changes.get? i = some change) : change = some a := by
    rw [get?_rows, hc, Option.getD_some] at ha
    exact ha
  rcases List.mem_append.mp hw with hw | hw
  · obtain ⟨j, b, hc, ho, rfl⟩ := mem_strips.mp hw
    cases Slot.key_inj (x := .row j) hk
    cases hrow hc
    exact ho
  · obtain ⟨j, hc, rfl⟩ | ⟨m, -, rfl⟩ := mem_removals.mp hw
    · cases Slot.key_inj (x := .row j) hk
      cases hrow hc
    · cases Slot.key_inj (x := .merged m.1) hk

end Transaction

/-! ## Part of a trusted resolution -/

namespace Directory

variable {d : Directory} {c : Contents} {i : PeerId} {x : Identifier} {ws : List Write}
  {markSelf : Bool} {request : Address}

/-- A content that the directory has written, as a whole or up to where it was stopped: the last
handle may be missing or stored as it was before. -/
structure HeldIn (d : Directory) (c : Contents) : Prop where
  stored : ∃ l : PeerId, l.toNat ≤ d.lastId.toNat ∧ { d with lastId := l }.StoredIn c
  row_le : ∀ i, d.rows.get? i ≠ none → i.toNat ≤ d.lastId.toNat

/-- A directory that was stored as a whole is one that was stored up to somewhere. -/
theorem StoredIn.heldIn (h : d.StoredIn c) {n : Nat} (hc : d.Coherent n) : d.HeldIn c where
  stored := ⟨d.lastId, Nat.le_refl _, h⟩
  row_le := by
    rw [hc.lastId_eq]
    exact hc.row_le

/-- Whatever the stored last handle, with the handles recounted none with a row is above the last
one. -/
theorem recounted_heldIn (h : d.StoredIn c) : d.recounted.HeldIn c where
  stored := ⟨d.lastId, PeerId.le_foldl_max (.inl rfl), h⟩
  row_le i hi := by
    have hkeys : i ∈ d.rows.keys := Table.mem_keys_iff.mpr (Option.ne_none_iff_exists'.mp hi)
    exact PeerId.le_foldl_max
      (.inr (List.mem_append_left _ (List.mem_append_left _ hkeys)))

/-- A directory that was read has a free handle after its last one, as long as numbers are left. -/
theorem HeldIn.hasNext (h : d.HeldIn c) (hn : d.lastId.toNat + 1 < UInt64.size) : d.HasNext :=
  hasNext_of_row_le (fun i hi => h.row_le i hi) hn

/-- A storage with part of the batch is read as the directory of the part. -/
theorem HeldIn.load_interrupted {σ : Type} [Storage σ] {contents : σ → Contents}
    (hs : Storage.Legible contents) (h : d.HeldIn c) (hn : d.lastId.toNat + 1 < UInt64.size)
    (hws : ws ⊆ (d.draft markSelf request).writes) :
    ∃ l, (load : Op σ _).Reads contents (c.applyAll ws) fun d' =>
      d' = ((d.draft markSelf request).interrupted l ws).recounted ∧
        d'.HeldIn (c.applyAll ws) := by
  obtain ⟨l, -, hl⟩ := h.stored
  have hstored : ((d.draft markSelf request).interrupted l ws).StoredIn (c.applyAll ws) := by
    refine Transaction.storedIn_interrupted hws ?_ (redirect_draft d markSelf request)
      (lastId_draft_ne_zero hn)
    rw [base_draft]
    exact hl
  refine ⟨l, (load_reads_recounted hs hstored).mono ?_⟩
  rintro d' rfl
  exact ⟨rfl, recounted_heldIn hstored⟩

/-! ### The rows -/

/-- The writes after which no other row than the peer's changes any more. -/
def losses (d : Directory) (markSelf : Bool) (request : Address) : List Write :=
  (d.draft markSelf request).strips ++ (d.draft markSelf request).removals

/-- The losses come first in the batch of a resolution. -/
theorem losses_first (d : Directory) (markSelf : Bool) (request : Address) :
    d.losses markSelf request <+: (d.draft markSelf request).writes := by
  rw [Transaction.writes, List.append_assoc]
  exact List.prefix_append _ _

/-- A row other than the peer's has at most what it had, whichever writes were made. -/
theorem carries_interrupted_of_ne (h : d.HasNext) {l : PeerId} (hi : i ≠ (d.outcome request).peer)
    (hx : Carries ((d.draft markSelf request).interrupted l ws).rows.get? i x) :
    Carries d.rows.get? i x := by
  obtain ⟨a, ha, hxa⟩ := hx
  rw [Transaction.get?_rows_interrupted, base_draft, rows_draft] at ha
  split at ha
  · rw [← row_begin]
    exact (carries_settled_of_ne (sound_begin h) hi ⟨a, ha, hxa⟩).1
  · exact ⟨a, ha, hxa⟩

/-- As long as only losses were written every row has at most what it had: also the peer's, which is
written after them if it gains anything. -/
theorem carries_interrupted_of_prefix {l : PeerId} (hws : ws ⊆ d.losses markSelf request)
    (hx : Carries ((d.draft markSelf request).interrupted l ws).rows.get? i x) :
    Carries d.rows.get? i x := by
  obtain ⟨a, ha, hxa⟩ := hx
  rw [Transaction.get?_rows_interrupted] at ha
  split at ha
  · rename_i hi
    obtain ⟨w, hw, hk⟩ := List.mem_map.mp hi
    have hloses := Transaction.onlyLoses_of_mem (hws hw) hk ha
    rw [Transaction.onlyLoses, base_draft, Option.any_eq_true] at hloses
    obtain ⟨b, hb, hcov⟩ := hloses
    exact ⟨b, hb, Address.covers_iff.mp hcov x hxa⟩
  · rw [base_draft] at ha
    exact ⟨a, ha, hxa⟩

/-- The change of a row other than the peer's is among the losses, since it is stripped or absorbed
and gains nothing. -/
theorem mem_losses_of_ne (h : d.HasNext) (hi : i ≠ (d.outcome request).peer)
    {change : Option Address} (hc : (d.draft markSelf request).changes.get? i = some change) :
    Transaction.changeWrite i change ∈ d.losses markSelf request := by
  rw [losses, List.mem_append]
  cases change with
  | none => exact .inr (Transaction.mem_removals.mpr (.inl ⟨i, hc, rfl⟩))
  | some a =>
      refine .inl (Transaction.mem_strips.mpr ⟨i, a, hc, ?_, rfl⟩)
      have ha : (settled request d.begin).2.rows.get? i = some a := by
        rw [← rows_draft d markSelf, Transaction.get?_rows, hc, Option.getD_some]
      obtain ⟨b, hb, hab⟩ := mem_row_settled_of_ne (sound_begin h) hi ha
      rw [row_begin] at hb
      rw [Transaction.onlyLoses, base_draft, hb, Option.any_some, Address.covers_iff]
      exact fun x hx => ((hab x).mp hx).1

/-- With the losses and the peer's row written all rows are as they will be. -/
theorem rows_interrupted_of_losses (h : d.HasNext) (l : PeerId)
    (hws : d.losses markSelf request ⊆ ws) (hp : (Slot.row (d.outcome request).peer).Among ws) :
    ((d.draft markSelf request).interrupted l ws).rows = (d.resolved markSelf request).rows := by
  refine Table.ext_get? fun i => ?_
  show _ = (d.draft markSelf request).rows.get? i
  by_cases hi : i = (d.outcome request).peer
  · rw [Transaction.get?_rows_interrupted, hi, if_pos hp]
  · exact Transaction.get?_rows_interrupted_of_mem fun change hc =>
      hws (mem_losses_of_ne h hi hc)

/-- **No part of a batch puts an identifier on two rows.** Up to the peer's row only losses were
written; with it the rows are as they will be. -/
theorem unambiguous_interrupted (h : d.HasNext) (hu : Unambiguous d.rows.get?) (l : PeerId)
    (hws : ws <+: (d.draft markSelf request).writes) :
    Unambiguous ((d.draft markSelf request).interrupted l ws).rows.get? := by
  by_cases hp : (Slot.row (d.outcome request).peer).Among ws
  · obtain hbefore | hafter :=
      List.prefix_or_prefix_of_prefix hws (losses_first d markSelf request)
    · exact hu.mono fun i x hx => carries_interrupted_of_prefix hbefore.subset hx
    · rw [rows_interrupted_of_losses h l hafter.subset hp]
      exact unambiguous_resolved h hu markSelf request
  · refine hu.mono fun i x hx => ?_
    by_cases hi : i = (d.outcome request).peer
    · obtain ⟨a, ha, hxa⟩ := hx
      rw [Transaction.get?_rows_interrupted, hi, if_neg hp, base_draft, ← hi] at ha
      exact ⟨a, ha, hxa⟩
    · exact carries_interrupted_of_ne h hi hx

end Directory

end PeerBook
