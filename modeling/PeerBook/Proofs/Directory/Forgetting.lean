import PeerBook.Proofs.Account.Uniqueness
import PeerBook.Proofs.Directory.Allotment
import PeerBook.Proofs.Directory.Interrupted
import PeerBook.Proofs.Directory.Sharing
import PeerBook.Proofs.Samples

/-!
# PeerBook.Proofs.Directory.Forgetting

How a handle is given out twice. Reading raises the last handle to every row, but
a commit that gives out no handle leaves the stored one as it was, even where
that was lower. So a transaction can take away all that reading went by
(`Directory.forgetting`), and after the next reading the handles go on from below.
Whether the handle of a row is ever given out again is therefore decided by the
content that was read first (`given_again_iff_unvouched`).

One direction is `Opened.not_mem_given`: what the content vouches for is not given
out. For the other the run is constructed: all rows from the handle on are removed
and all redirects led to zero in one commit, the directory is read anew, and rows
are added until the handle comes (`mem_given_of_not_vouched`). A content whose
counter was never written is the least case.
-/

namespace PeerBook

open Directory

variable {σ : Type} [Storage σ] {contents : σ → Contents}
variable {d e : Directory} {c : Contents} {i j : PeerId}

/-! ## Edits that take rows away -/

namespace Transaction

variable (tx : Transaction)

/-- Two lists of edits are made one after the other. -/
theorem editAll_append (es es' : List Edit) :
    tx.editAll (es ++ es') = (tx.editAll es).editAll es' := List.foldl_append

/-- A removal changes nothing but rows, so redirects and the last handle stay; those that are
refused change nothing at all. -/
theorem editAll_remove (ids : List PeerId) :
    ∃ cs, tx.editAll (ids.map .remove) = { tx with changes := cs } := by
  induction ids generalizing tx with
  | nil => exact ⟨tx.changes, rfl⟩
  | cons i ids ih =>
      have hstep : ∃ cs, tx.edit (.remove i) = { tx with changes := cs } := by
        rw [edit_remove]
        split
        · exact ⟨_, rfl⟩
        · exact ⟨tx.changes, rfl⟩
      obtain ⟨cs, hcs⟩ := hstep
      obtain ⟨cs', hcs'⟩ := ih { tx with changes := cs }
      refine ⟨cs', ?_⟩
      show (tx.edit (.remove i)).editAll _ = _
      rw [hcs]
      exact hcs'

/-- Of what is removed no row is left. -/
theorem get?_rows_edit_remove : (tx.edit (.remove i)).rows.get? j =
    if j = i then none else tx.rows.get? j := by
  rw [edit_remove]
  split
  · exact get?_rows_change tx i none j
  · rename_i hnone
    split
    · rename_i hj
      rw [hj]
      simpa [Table.contains] using hnone
    · rfl

/-- After removals in order no removed handle has a row, and every other handle has what it had. -/
theorem get?_rows_editAll_remove (ids : List PeerId) :
    (tx.editAll (ids.map .remove)).rows.get? j =
      if j ∈ ids then none else tx.rows.get? j := by
  induction ids generalizing tx with
  | nil => rfl
  | cons i ids ih =>
      refine (ih (tx.edit (.remove i))).trans ?_
      rw [get?_rows_edit_remove]
      by_cases hj : j = i <;> simp [hj]

/-- Redirects that are recorded one after the other are appended in that order. -/
theorem editAll_recordMerged (ids : List PeerId) (surviving : PeerId) :
    tx.editAll (ids.map (.recordMerged · surviving)) =
      { tx with merged := tx.merged ++ ids.map (·, surviving) } := by
  rw [editAll, List.foldl_map]
  exact foldl_recordMerged tx surviving ids

end Transaction

namespace Directory

/-- Edits that remove the rows from a handle on and lead all redirects to zero. -/
def forget (d : Directory) (i : PeerId) : List Edit :=
  (d.rows.keys.filter fun j => decide (i.toNat ≤ j.toNat)).map .remove ++
    d.redirects.keys.map (.recordMerged · ⟨0⟩)

/-- The edits that forget a handle add no row. -/
theorem additions_forget (d : Directory) (i : PeerId) : Edit.additions (d.forget i) = 0 := by
  rw [Edit.additions, List.countP_eq_zero]
  intro x hx
  rcases List.mem_append.mp hx with hx | hx
  · obtain ⟨j, -, rfl⟩ := List.mem_map.mp hx
    exact Bool.false_ne_true
  · obtain ⟨j, -, rfl⟩ := List.mem_map.mp hx
    exact Bool.false_ne_true

/-- A transaction that takes away what keeps a handle from being given out again. -/
def forgetting (d : Directory) (i : PeerId) : Transaction := d.begin.editAll (d.forget i)

/-- The transaction that forgets a handle has changes of rows and recorded redirects, and is
otherwise the one that was begun. -/
theorem forgetting_eq (d : Directory) (i : PeerId) :
    ∃ cs, d.forgetting i =
      { d.begin with changes := cs, merged := d.redirects.keys.map (·, ⟨0⟩) } := by
  obtain ⟨cs, hcs⟩ := d.begin.editAll_remove
    (d.rows.keys.filter fun j => decide (i.toNat ≤ j.toNat))
  refine ⟨cs, ?_⟩
  rw [forgetting, forget, Transaction.editAll_append, hcs, Transaction.editAll_recordMerged]
  rfl

@[simp] theorem base_forgetting (d : Directory) (i : PeerId) : (d.forgetting i).base = d := by
  obtain ⟨cs, hcs⟩ := d.forgetting_eq i
  rw [hcs]
  rfl

@[simp] theorem lastId_forgetting (d : Directory) (i : PeerId) :
    (d.forgetting i).lastId = d.lastId := by
  obtain ⟨cs, hcs⟩ := d.forgetting_eq i
  rw [hcs]
  rfl

/-- The rows from the handle on are gone, and those below it are as they were. -/
theorem get?_rows_forgetting : (d.forgetting i).rows.get? j =
    if i.toNat ≤ j.toNat then none else d.rows.get? j := by
  rw [forgetting, forget, Transaction.editAll_append, Transaction.editAll_recordMerged]
  refine (Transaction.get?_rows_editAll_remove d.begin _).trans ?_
  rw [Transaction.rows_begin]
  have hmem : j ∈ d.rows.keys.filter (fun j => decide (i.toNat ≤ j.toNat)) ↔
      j ∈ d.rows.keys ∧ i.toNat ≤ j.toNat := by simp
  by_cases hij : i.toNat ≤ j.toNat
  · rw [if_pos hij]
    split
    · rfl
    · rename_i hj
      rw [hmem, Table.mem_keys_iff, not_and'] at hj
      exact Option.eq_none_iff_forall_ne_some.mpr fun a ha => hj hij ⟨a, ha⟩
  · rw [if_neg hij, if_neg fun h => hij (hmem.mp h).2]

/-- Every redirect leads to zero. -/
theorem get?_redirects_forgetting : (d.forgetting i).published.redirects.get? j =
    if j ∈ d.redirects.keys then some ⟨0⟩ else none := by
  obtain ⟨cs, hcs⟩ := d.forgetting_eq i
  rw [hcs]
  refine (Redirects.get?_insertAll d.redirects d.redirects.keys ⟨0⟩ j).trans ?_
  split
  · rfl
  · rename_i hj
    exact Option.eq_none_iff_forall_ne_some.mpr fun k hk => hj (Table.mem_keys_iff.mpr ⟨k, hk⟩)

/-- What is stored of its redirects is what it publishes. -/
theorem published_merged_forgetting :
    ∀ m ∈ (d.forgetting i).merged, (d.forgetting i).published.redirects.get? m.1 = some m.2 := by
  intro m hm
  rw [get?_redirects_forgetting]
  obtain ⟨cs, hcs⟩ := d.forgetting_eq i
  rw [hcs] at hm
  obtain ⟨j, hj, rfl⟩ := List.mem_map.mp hm
  exact if_pos hj

/-- What only removes rows is let through. -/
theorem violation?_forgetting : (d.forgetting i).violation? = none := by
  rw [Transaction.violation?_eq_none_iff]
  intro j x hj hb
  refine absurd ?_ hb
  obtain ⟨a, ha, hx⟩ := hj
  rw [get?_rows_forgetting] at ha
  split at ha
  · contradiction
  · exact ⟨a, by rw [base_forgetting]; exact ha, hx⟩

/-- Where the row of the handle was there, there is something to commit. -/
theorem hasChanges_forgetting (hi : d.rows.get? i ≠ none) :
    (d.forgetting i).hasChanges = true := by
  rw [← Bool.not_eq_false, Transaction.hasChanges_eq_false_iff]
  rintro ⟨hc, -⟩
  have hrow : (d.forgetting i).rows.get? i = none := by
    rw [get?_rows_forgetting, if_pos (Nat.le_refl _)]
  rw [Transaction.get?_rows, hc, base_forgetting] at hrow
  exact hi hrow

/-- The commit leaves a content of the rows below the handle, with the last handle as it was
stored. -/
theorem commit_forgetting_returns (ha : Storage.Atomic contents) (hw : Storage.Reliable σ) {s : σ}
    (he : e.StoredIn (contents s)) (hi : e.recounted.rows.get? i ≠ none) :
    ∃ s', (e.recounted.forgetting i).commit.Returns s (e.recounted.forgetting i).published s' ∧
      { (e.recounted.forgetting i).published with lastId := e.lastId }.StoredIn (contents s') := by
  obtain ⟨hc, -⟩ | ⟨f, hv, -⟩ | ⟨-, -, ⟨s', hr, hcommit⟩ | ⟨err, s', hf, -⟩⟩ :=
    (e.recounted.forgetting i).commit_cases s
  · rw [hasChanges_forgetting hi] at hc
    contradiction
  · rw [violation?_forgetting] at hv
    contradiction
  · refine ⟨s', hcommit, ?_⟩
    obtain ⟨t, hr', ht⟩ | ⟨err, t, hf, -⟩ := ha.writeBatch (e.recounted.forgetting i).writes s
    · obtain ⟨-, rfl⟩ := hr.unique hr'
      rw [ht]
      refine Transaction.storedIn_published_of_lastId_eq ?_ ?_ published_merged_forgetting
      · rw [lastId_forgetting, base_forgetting]
      · rw [base_forgetting]
        exact he
    · exact absurd hr.1 (hf.not_ok ())
  · obtain ⟨t, ht⟩ := hw s (e.recounted.forgetting i).writes
    exact absurd ht.1 (hf.not_ok ())

/-- What is read then has its last handle below the one that was forgotten, if the stored counter
and all absorbed handles are below it: there is nothing else to go by. -/
theorem lastId_forgotten_lt (hl : e.lastId.toNat < i.toNat)
    (hm : ∀ j ∈ d.redirects.keys, j.toNat < i.toNat) :
    { (d.forgetting i).published with lastId := e.lastId }.recounted.lastId.toNat < i.toNat := by
  refine PeerId.foldl_max_lt hl fun j hj => ?_
  rcases List.mem_append.mp hj with hj | hj
  · rcases List.mem_append.mp hj with hj | hj
    · obtain ⟨a, ha⟩ := Table.mem_keys_iff.mp hj
      have hrow : (d.forgetting i).rows.get? j = some a := ha
      rw [get?_rows_forgetting] at hrow
      split at hrow
      · contradiction
      · rename_i hij
        exact Nat.not_le.mp hij
    · obtain ⟨k, hk⟩ := Table.mem_keys_iff.mp hj
      have hr := hk.symm.trans get?_redirects_forgetting
      split at hr
      · rename_i hmem
        exact hm j hmem
      · contradiction
  · -- a surviving handle is zero
    obtain ⟨⟨k, j⟩, hk, rfl⟩ := List.mem_map.mp hj
    have hr := (Table.get?_eq_some_iff.mpr hk).symm.trans get?_redirects_forgetting
    split at hr
    · cases hr
      exact Nat.lt_of_le_of_lt (Nat.zero_le _) hl
    · contradiction

end Directory

namespace Opened

/-- **A handle of a row that is not vouched for can be given out again**: the row is removed, the
directory is read anew, and rows are added. -/
theorem mem_given_of_not_vouched (ha : Storage.Atomic contents) (hw : Storage.Reliable σ)
    {o : Opened σ} (he : e.StoredIn (contents o.storage)) (ho : o.directory = e.recounted)
    (hn : o.directory.lastId.toNat < UInt64.size - 1) (hi : o.directory.rows.get? i ≠ none)
    (hv : ¬Vouched (contents o.storage) i) :
    ∃ turns, o.Roomy turns ∧ i ∈ o.given turns := by
  have hl : e.lastId.toNat < i.toNat := Nat.not_le.mp fun h => hv (he.vouched_iff.mpr (.inl h))
  have hm : ∀ j ∈ e.recounted.redirects.keys, j.toNat < i.toNat := fun j hj =>
    Nat.not_le.mp fun h => hv (he.vouched_iff.mpr (.inr ⟨j, hj, h⟩))
  have hle : i.toNat ≤ o.directory.lastId.toNat := by
    rw [ho] at hi ⊢
    exact (recounted_heldIn he).row_le i hi
  rw [ho] at hi
  obtain ⟨s₁, hcommit, hs₁⟩ := commit_forgetting_returns ha hw he hi
  obtain ⟨d₂, s₂, hload, -, hd₂⟩ := load_reads_recounted ha.toLegible hs₁ s₁ rfl
  have hlt : d₂.lastId.toNat < i.toNat := hd₂ ▸ lastId_forgotten_lt hl hm
  -- as many rows as it takes to reach the handle
  let adds : List Edit :=
    List.replicate (i.toNat - d₂.lastId.toNat) (.add (.ofNumber .sample))
  have hadds : Edit.additions adds = i.toNat - d₂.lastId.toNat := by
    rw [Edit.additions, List.countP_replicate]
    rfl
  have h₁ : o.next (.transact (e.recounted.forget i) true) =
      ⟨s₁, (e.recounted.forgetting i).published⟩ := by
    rw [next, ho]
    exact goOn_of_returns hcommit
  have h₂ : (o.next (.transact (e.recounted.forget i) true)).next .reopen = ⟨s₂, d₂⟩ := by
    rw [h₁, next]
    exact goOn_of_returns hload
  refine ⟨[.transact (e.recounted.forget i) true, .reopen, .transact adds false],
    ⟨?_, ?_, ?_, trivial⟩, ?_⟩
  · rw [Turn.additions, additions_forget]
    exact hn
  · rw [h₁]
    show (e.recounted.forgetting i).lastId.toNat < _
    rw [lastId_forgetting, ← ho]
    exact hn
  · rw [h₂, Turn.additions, hadds]
    dsimp only
    omega
  · refine List.mem_append_right _ (List.mem_append_right _ (List.mem_append_left _ ?_))
    rw [h₂, answers, Transaction.mem_answers_iff]
    · rw [hadds]
      show d₂.lastId.toNat < _ ∧ _ ≤ d₂.lastId.toNat + _
      omega
    · rw [hadds]
      show d₂.lastId.toNat + _ < _
      omega

end Opened

/-- **Which handles are given out again**, among those that were the handle of a row when the
directory was read or after any turns: only those of rows that were read and are above the stored
counter and above every stored redirect. And each of these can be, if the content is that of a
directory whatever its counter. -/
theorem given_again_iff_unvouched (ha : Storage.Atomic contents) {s s' : σ}
    (hload : (Directory.load : Op σ _).Returns s d s') :
    (∀ earlier later i, (Opened.mk s' d).Roomy (earlier ++ later) →
        ((Opened.mk s' d).after earlier).directory.rows.get? i ≠ none →
        i ∈ ((Opened.mk s' d).after earlier).given later →
        d.rows.get? i ≠ none ∧ ¬Vouched (contents s) i) ∧
      (Storage.Reliable σ → ∀ e : Directory, e.StoredIn (contents s) →
        d.lastId.toNat < UInt64.size - 1 →
        ∀ i, d.rows.get? i ≠ none → ¬Vouched (contents s) i →
          ∃ turns, (Opened.mk s' d).Roomy turns ∧ i ∈ (Opened.mk s' d).given turns) := by
  obtain ⟨hkeep, hread⟩ := load_looks ha.toLegible s rfl
  rw [hload.2] at hkeep
  have hd : d.ReadFrom (contents s) := hread d hload.1
  refine ⟨fun earlier later i hn hi hgiven => ?_, fun hw e he hn i hi hv => ?_⟩
  · have hstart : (Opened.mk s' d).Accounts contents
        fun i => d.rows.get? i ≠ none ∧ ¬Vouched (contents s) i := by
      unfold Opened.Accounts
      rw [hkeep]
      exact hd.accounts
    obtain ⟨hearlier, hlater⟩ := hn.append
    have hacc := hstart.after ha hearlier
    exact (hacc.row i hi).resolve_left fun hrem => Opened.not_mem_given ha hacc hrem hlater hgiven
  · obtain ⟨d', s₁, hr, -, hd'⟩ := load_reads_recounted ha.toLegible he s rfl
    obtain ⟨rfl, -⟩ := hload.unique hr
    refine Opened.mem_given_of_not_vouched ha hw (o := ⟨s', d⟩) (hkeep ▸ he) hd' hn hi
      (hkeep ▸ hv)

/-! ## A counter that was never written -/

/-- A directory that was stopped right after its first row, before the counter was written. -/
def Directory.uncounted : Directory :=
  (empty.begin.insert (.ofNumber .sample)).interrupted ⟨0⟩
    [Transaction.rowWrite ⟨1⟩ (.ofNumber .sample)]

/-- The storage that was left. -/
def Memory.uncounted : Memory :=
  ⟨(∅ : Contents).applyAll [Transaction.rowWrite ⟨1⟩ (.ofNumber .sample)]⟩

/-- The content that was left is that of this directory: of the batch only the row was written. -/
theorem Directory.storedIn_uncounted : uncounted.StoredIn Memory.uncounted.contents := by
  have hone : [Transaction.rowWrite ⟨1⟩ (.ofNumber .sample)] ⊆
      (empty.begin.insert (.ofNumber .sample)).writes := by decide +kernel
  exact Transaction.storedIn_interrupted hone storedIn_empty nofun fun _ => by decide

/-- The row that was read has the handle 1. Once it is removed, 1 is given out to another, since the
counter was never written and nothing else speaks for the handle. -/
theorem uncounted_handle_given_again :
    ∃ (d : Directory) (s : Memory), (Directory.load : Op Memory _).Returns .uncounted d s ∧
      d.rows.get? ⟨1⟩ = some (.ofNumber .sample) ∧
      (∀ earlier later i, (Opened.mk s d).Roomy (earlier ++ later) →
        ((Opened.mk s d).after earlier).directory.rows.get? i ≠ none →
        i ∈ ((Opened.mk s d).after earlier).given later → d.rows.get? i ≠ none) ∧
      ∃ turns, (Opened.mk s d).Roomy turns ∧ ⟨1⟩ ∈ (Opened.mk s d).given turns := by
  obtain ⟨d, s, hload, -, rfl⟩ :=
    load_reads_recounted Memory.atomic.toLegible storedIn_uncounted .uncounted rfl
  have hrow : Directory.uncounted.recounted.rows.get? ⟨1⟩ = some (.ofNumber .sample) := by
    decide +kernel
  have hunvouched : ¬Vouched Memory.uncounted.contents ⟨1⟩ := by
    rw [storedIn_uncounted.vouched_iff]
    decide +kernel
  obtain ⟨honly, hagain⟩ := given_again_iff_unvouched Memory.atomic hload
  exact ⟨_, s, hload, hrow, fun earlier later i hn hi hg => (honly earlier later i hn hi hg).1,
    hagain Memory.reliable _ storedIn_uncounted (by decide +kernel) ⟨1⟩ (by rw [hrow]; exact nofun)
      hunvouched⟩

end PeerBook
