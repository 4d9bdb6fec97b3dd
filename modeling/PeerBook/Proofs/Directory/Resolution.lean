import PeerBook.Account.Resolve
import PeerBook.Proofs.Directory.Overlay
import PeerBook.Proofs.PeerId.Order
import PeerBook.Proofs.Reconcile.Ownership

/-!
# PeerBook.Proofs.Directory.Resolution

What the operations of an account make of its directory. A trusted resolution
answers `Directory.outcome` and leads to `Directory.resolved`; an untrusted
look-up finds a peer or leads to `Directory.added`. Both go through a commit,
which writes one batch and publishes, or leaves everything as it was
(`Transaction.commit_cases`).

- `draft_eq` shows the transaction of a resolution: its rows are those of the
  settled table, its redirects those of the absorbed handles, and the account's
  own handle is in it where that is news. One lemma each says what these are
  after the resolution.
- The rows are then those of `settled` on the transaction as a table
  (`get?_rows_resolved`), so what `PeerBook.Proofs.Reconcile` says of tables is
  said of directories without being proved again.

All of this needs a free handle (`Directory.HasNext`), which a directory has as
long as no row is above the last one and numbers are left.
-/

namespace PeerBook

open LawfulAddressTable

variable {σ : Type} [Storage σ]

/-! ## Commits -/

namespace Transaction

/-- A commit has nothing to do, or is refused, or writes its batch; then it publishes if the batch
was made, and fails with the batch if not. -/
theorem commit_cases (tx : Transaction) (s : σ) :
    (tx.hasChanges = false ∧ tx.commit.Returns s tx.base s) ∨
      (∃ f, tx.violation? = some f ∧ tx.commit.Fails s (.storage f) s) ∨
      tx.hasChanges = true ∧ tx.violation? = none ∧
        ((∃ s', (Storage.writeBatch tx.writes).Returns s () s' ∧
            tx.commit.Returns s tx.published s') ∨
          ∃ e s', (Storage.writeBatch tx.writes).Fails s e s' ∧ tx.commit.Fails s e s') := by
  unfold commit
  cases hc : tx.hasChanges with
  | false => exact .inl ⟨rfl, Op.returns_pure _ s⟩
  | true =>
      cases hv : tx.violation? with
      | some f => exact .inr (.inl ⟨f, rfl, rfl, rfl⟩)
      | none =>
          refine .inr (.inr ⟨rfl, rfl, ?_⟩)
          obtain ⟨⟨⟩, s', h⟩ | ⟨e, s', h⟩ := Op.returns_or_fails (Storage.writeBatch tx.writes) s
          · exact .inl ⟨s', h, h.bind (Op.returns_pure _ s')⟩
          · exact .inr ⟨e, s', h, h.bind _⟩

/-- A commit that answers had nothing to do, or wrote its batch. -/
theorem commit_returns {tx : Transaction} {s s' : σ} {d : Directory}
    (h : tx.commit.Returns s d s') :
    tx.hasChanges = false ∧ d = tx.base ∧ s' = s ∨
      d = tx.published ∧ (Storage.writeBatch tx.writes).Returns s () s' := by
  obtain ⟨hc, hr⟩ | ⟨f, -, hf⟩ | ⟨-, -, ⟨t, hw, hr⟩ | ⟨e, t, -, hf⟩⟩ := tx.commit_cases s
  · obtain ⟨rfl, rfl⟩ := h.unique hr
    exact .inl ⟨hc, rfl, rfl⟩
  · exact absurd h.1 (hf.not_ok d)
  · obtain ⟨rfl, rfl⟩ := h.unique hr
    exact .inr ⟨rfl, hw⟩
  · exact absurd h.1 (hf.not_ok d)

/-- A commit that fails was refused, or its batch failed; in both cases nothing was published. -/
theorem commit_fails {tx : Transaction} {s s' : σ} {e : Error} (h : tx.commit.Fails s e s') :
    tx.violation? ≠ none ∧ s' = s ∨ (Storage.writeBatch tx.writes).Fails s e s' := by
  obtain ⟨-, hr⟩ | ⟨f, hv, hf⟩ | ⟨-, -, ⟨t, -, hr⟩ | ⟨e', t, hw, hf⟩⟩ := tx.commit_cases s
  · exact absurd hr.1 (h.not_ok _)
  · exact .inl ⟨by simp [hv], h.2.symm.trans hf.2⟩
  · exact absurd hr.1 (h.not_ok _)
  · obtain ⟨rfl, rfl⟩ := h.unique hf
    exact .inr hw

/-- There is nothing to commit without changed rows, redirects and a handle of the account. -/
theorem hasChanges_eq_false_iff {tx : Transaction} :
    tx.hasChanges = false ↔ tx.changes = ∅ ∧ tx.merged = [] ∧ tx.self = none := by
  have he : tx.changes = ∅ ↔ tx.changes.entries = [] := by
    constructor
    · intro h
      rw [h]
      rfl
    · exact fun h => Table.eq_of_entries h
  rw [hasChanges, he, Bool.or_eq_false_iff, Bool.or_eq_false_iff, and_assoc, Bool.not_eq_false',
    Bool.not_eq_false', List.isEmpty_iff, List.isEmpty_iff, Option.isSome_eq_false_iff,
    Option.isNone_iff_eq_none]

/-- Without changes the directory published is the one before. -/
theorem published_of_not_hasChanges {tx : Transaction} (h : tx.hasChanges = false)
    (hl : tx.lastId = tx.base.lastId) : tx.published = tx.base := by
  obtain ⟨hc, hm, hs⟩ := hasChanges_eq_false_iff.mp h
  have hr : tx.rows = tx.base.rows := by
    rw [rows, hc]
    rfl
  unfold published
  rw [hr, hm, hs, hl]
  rfl

/-- The owners of an identifier are the handles whose rows carry it. -/
theorem mem_owners {rows : Table PeerId Address} {x : Identifier} {i : PeerId} :
    i ∈ Directory.owners rows x ↔ Carries rows.get? i x := by
  rw [Directory.owners, Table.mem_keys_iff]
  simp only [Table.get?_filter, Option.filter_eq_some_iff, List.contains_iff_mem]
  rfl

end Transaction

namespace Directory

/-! ## Trusted resolutions -/

/-- The answer of a trusted resolution. -/
def outcome (d : Directory) (request : Address) : Reconciliation := (settled request d.begin).1

/-- The transaction of a trusted resolution, with its redirects and, where it is news, the handle
of the account itself. -/
def draft (d : Directory) (markSelf : Bool) (request : Address) : Transaction :=
  let r := d.outcome request
  let tx := r.merged.foldl (fun tx absorbed => tx.recordMerged absorbed r.peer)
    (settled request d.begin).2
  if markSelf && d.selfId != some r.peer then tx.setSelf r.peer else tx

/-- The directory after a trusted resolution. -/
def resolved (d : Directory) (markSelf : Bool) (request : Address) : Directory :=
  (d.draft markSelf request).published

/-- The next handle is one that no row has. -/
def HasNext (d : Directory) : Prop := d.rows.get? d.lastId.next = none

/-- As long as handles are left and no row is above the last one, the next one has no row. -/
theorem hasNext_of_row_le {d : Directory}
    (h : ∀ i, d.rows.get? i ≠ none → i.toNat ≤ d.lastId.toNat)
    (hn : d.lastId.toNat + 1 < UInt64.size) : d.HasNext := by
  unfold HasNext
  by_cases hr : d.rows.get? d.lastId.next = none
  · exact hr
  · have hle := h _ hr
    rw [PeerId.toNat_next hn] at hle
    omega

/-- A transaction on a directory with a free handle is a sound table. -/
theorem sound_begin {d : Directory} (h : d.HasNext) : Sound d.begin := by
  show d.begin.rows.get? d.lastId.next = none
  rw [Transaction.rows_begin]
  exact h

/-- A transaction that only rows of have changed. -/
def Untouched (d : Directory) (tx : Transaction) : Prop :=
  tx.base = d ∧ tx.merged = [] ∧ tx.self = none

/-- A resolution in a transaction touches rows and nothing else. -/
theorem untouched_settled (d : Directory) (request : Address) :
    d.Untouched (settled request d.begin).2 :=
  settled_induction request ⟨rfl, rfl, rfl⟩ (fun _ _ _ h => h) fun _ _ h => h

theorem lastId_changeAll (tx : Transaction) (cs : List (PeerId × Option Address)) :
    (changeAll tx cs).lastId = tx.lastId := by
  induction cs generalizing tx with
  | nil => rfl
  | cons c cs ih => exact ih (tx.change c.1 c.2)

/-- The last handle is the new one if a row was added, and the one before if not: a resolution adds
one row at most. -/
theorem lastId_settled (d : Directory) (request : Address) :
    (settled request d.begin).2.lastId =
      if (d.outcome request).created = true then d.lastId.next else d.lastId := by
  unfold outcome
  obtain ⟨p, -, -, hs⟩ | hs := settled_cases request d.begin
  · rw [hs]
    rfl
  · rw [hs]
    unfold Plan.outcome Plan.applyTo
    cases (Plan.of request (found d.begin request)).target with
    | none =>
        rw [if_pos rfl]
        exact congrArg PeerId.next (lastId_changeAll d.begin _)
    | some p =>
        dsimp only
        rw [if_neg Bool.false_ne_true]
        split
        · exact lastId_changeAll d.begin _
        · exact lastId_changeAll d.begin _

/-- Redirects that are recorded one after the other are appended. -/
theorem foldl_recordMerged (tx : Transaction) (peer : PeerId) (absorbed : List PeerId) :
    absorbed.foldl (fun tx a => tx.recordMerged a peer) tx =
      { tx with merged := tx.merged ++ absorbed.map (·, peer) } := by
  induction absorbed generalizing tx with
  | nil => simp
  | cons a as ih =>
      rw [List.foldl_cons, ih, Transaction.recordMerged, List.map_cons, List.append_assoc]
      rfl

/-- What a trusted resolution commits. -/
theorem draft_eq (d : Directory) (markSelf : Bool) (request : Address) :
    d.draft markSelf request =
      { (settled request d.begin).2 with
        merged := (d.outcome request).merged.map (·, (d.outcome request).peer)
        self := if markSelf && d.selfId != some (d.outcome request).peer then
          some (d.outcome request).peer else none } := by
  obtain ⟨-, hm, hs⟩ := untouched_settled d request
  rw [draft, foldl_recordMerged, hm, List.nil_append]
  split
  · rfl
  · rw [← hs]

theorem base_draft (d : Directory) (markSelf : Bool) (request : Address) :
    (d.draft markSelf request).base = d := by
  rw [draft_eq]
  exact (untouched_settled d request).1

/-- It redirects the absorbed handles to the peer. -/
theorem merged_draft (d : Directory) (markSelf : Bool) (request : Address) :
    (d.draft markSelf request).merged =
      (d.outcome request).merged.map (·, (d.outcome request).peer) := by
  rw [draft_eq]

theorem rows_draft (d : Directory) (markSelf : Bool) (request : Address) :
    (d.draft markSelf request).rows = (settled request d.begin).2.rows := by
  rw [draft_eq]
  rfl

/-- The rows after a resolution are those of the settled table. -/
theorem rows_resolved (d : Directory) (markSelf : Bool) (request : Address) :
    (d.resolved markSelf request).rows = (settled request d.begin).2.rows :=
  rows_draft d markSelf request

/-- The redirects after a resolution are those before and those of the absorbed handles. -/
theorem redirects_resolved (d : Directory) (markSelf : Bool) (request : Address) :
    (d.resolved markSelf request).redirects =
      d.redirects.insertAll
        ((d.outcome request).merged.map (·, (d.outcome request).peer)) := by
  rw [resolved, draft_eq, Transaction.published]
  dsimp only
  rw [(untouched_settled d request).1]

/-- The last handle after a resolution is the new one if a row was added. -/
theorem lastId_resolved (d : Directory) (markSelf : Bool) (request : Address) :
    (d.resolved markSelf request).lastId =
      if (d.outcome request).created = true then d.lastId.next else d.lastId := by
  rw [resolved, draft_eq]
  exact lastId_settled d request

/-- The account's own handle is the peer's where it is written. -/
theorem self_draft {d : Directory} {markSelf : Bool} {request : Address} {i : PeerId}
    (hi : (d.draft markSelf request).self = some i) :
    i = (d.outcome request).peer := by
  rw [draft_eq] at hi
  dsimp only at hi
  split at hi
  · exact (Option.some.inj hi).symm
  · contradiction

/-- The account's own handle after a resolution is the peer's, or the one before. It is written only
where it was asked for and the one before does not lead to the peer. -/
theorem self_resolved {d : Directory} {markSelf : Bool} {request : Address} {i : PeerId}
    (hi : (d.resolved markSelf request).self = some i) :
    i = (d.outcome request).peer ∨ d.self = some i := by
  have hor : (d.draft markSelf request).self.or (d.draft markSelf request).base.self = some i := hi
  rw [base_draft] at hor
  cases hs : (d.draft markSelf request).self with
  | none =>
      rw [hs, Option.none_or] at hor
      exact .inr hor
  | some j =>
      rw [hs, Option.some_or] at hor
      obtain rfl := Option.some.inj hor
      exact .inl (self_draft hs)

/-- A resolution without changes leaves the directory as it is. A new row would be a change, and so
would any row that is absorbed. -/
theorem resolved_of_not_hasChanges {d : Directory} (hd : d.HasNext) {markSelf : Bool}
    {request : Address} (h : (d.draft markSelf request).hasChanges = false) :
    d.resolved markSelf request = d := by
  have hb := base_draft d markSelf request
  have hr : (settled request d.begin).2.rows = d.rows := by
    rw [← rows_draft d markSelf, Transaction.rows, (Transaction.hasChanges_eq_false_iff.mp h).1, hb]
    rfl
  -- a new row would be a change
  have hn : ¬(d.outcome request).created = true := by
    intro hcr
    obtain ⟨a, ha, -⟩ := row_settled_survivor request (sound_begin hd)
    have hnone := (created_settled_iff (sound_begin hd)).mp hcr
    have ha' : (settled request d.begin).2.rows.get? (d.outcome request).peer = some a := ha
    have hnone' : d.begin.rows.get? (d.outcome request).peer = none := hnone
    rw [hr] at ha'
    rw [Transaction.rows_begin, ha'] at hnone'
    contradiction
  have hl : (d.draft markSelf request).lastId = (d.draft markSelf request).base.lastId := by
    have := lastId_resolved d markSelf request
    rw [if_neg hn] at this
    rw [hb]
    exact this
  rw [resolved, Transaction.published_of_not_hasChanges h hl, hb]

/-! ## The rows after a trusted resolution -/

theorem row_begin (d : Directory) : row d.begin = d.rows.get? := by
  show d.begin.rows.get? = _
  rw [Transaction.rows_begin]

/-- The rows after a resolution, as the settled table has them. -/
theorem get?_rows_resolved (d : Directory) (markSelf : Bool) (request : Address) :
    (d.resolved markSelf request).rows.get? = row (settled request d.begin).2 := by
  rw [rows_resolved]
  rfl

variable {d : Directory} {request : Address} {i : PeerId}

/-- The peer's row carries the request. -/
theorem row_resolved_peer (h : d.HasNext) (markSelf : Bool) (request : Address) :
    ∃ a, (d.resolved markSelf request).rows.get? (d.outcome request).peer = some a ∧
      a.covers request = true := by
  obtain ⟨a, ha, hc, -⟩ := row_settled_survivor request (sound_begin h)
  rw [get?_rows_resolved]
  exact ⟨a, ha, hc⟩

/-- A resolution leaves its peer with a row, whether the peer is new or not. -/
theorem row_resolved_peer_ne_none (h : d.HasNext) (markSelf : Bool) (request : Address) :
    (d.resolved markSelf request).rows.get? (d.outcome request).peer ≠ none := by
  obtain ⟨a, ha, -⟩ := row_resolved_peer h markSelf request
  rw [ha]
  exact Option.some_ne_none a

/-- The peer is new when it had no row, and then has the next handle. -/
theorem created_outcome_iff (h : d.HasNext) :
    (d.outcome request).created = true ↔ d.rows.get? (d.outcome request).peer = none := by
  rw [← row_begin]
  exact created_settled_iff (sound_begin h)

/-- A new peer has the next handle. -/
theorem peer_outcome_of_created (h : (d.outcome request).created = true) :
    (d.outcome request).peer = d.lastId.next := peer_settled_of_created h

/-- The absorbed handles are those that had rows and have none. -/
theorem mem_merged_outcome_iff (h : d.HasNext) (markSelf : Bool) :
    i ∈ (d.outcome request).merged ↔ i ≠ (d.outcome request).peer ∧ d.rows.get? i ≠ none ∧
      (d.resolved markSelf request).rows.get? i = none := by
  rw [get?_rows_resolved, ← row_begin]
  exact mem_merged_iff (sound_begin h)

/-- A peer that absorbs others had a row. -/
theorem row_peer_of_mem_merged (h : d.HasNext) (hi : i ∈ (d.outcome request).merged) :
    d.rows.get? (d.outcome request).peer ≠ none := by
  rw [ne_eq, ← created_outcome_iff h]
  intro hc
  have hm : (d.outcome request).merged = [] := merged_settled_of_created (sound_begin h) hc
  rw [hm] at hi
  contradiction

/-- Only the peer can get a row. -/
theorem row_of_row_resolved (h : d.HasNext) {markSelf : Bool}
    (hi : i ≠ (d.outcome request).peer)
    (hr : (d.resolved markSelf request).rows.get? i ≠ none) : d.rows.get? i ≠ none := by
  obtain ⟨b, hb⟩ := Option.ne_none_iff_exists'.mp hr
  rw [get?_rows_resolved] at hb
  obtain ⟨a, ha, -⟩ := mem_row_settled_of_ne (sound_begin h) hi hb
  rw [row_begin] at ha
  rw [ha]
  exact nofun

/-- A resolution keeps every identifier on one row at most. -/
theorem unambiguous_resolved (h : d.HasNext) (hu : Unambiguous d.rows.get?) (markSelf : Bool)
    (request : Address) : Unambiguous (d.resolved markSelf request).rows.get? := by
  rw [get?_rows_resolved]
  rw [← row_begin] at hu
  exact unambiguous_settled (sound_begin h) hu

/-- A row with an account identity keeps it. -/
theorem resolved_keeps_aci (h : d.HasNext) (hu : Unambiguous d.rows.get?) (markSelf : Bool)
    (request : Address) {a : Address} {z : Aci} (ha : d.rows.get? i = some a)
    (hz : a.aci = some z) :
    ∃ b, (d.resolved markSelf request).rows.get? i = some b ∧ b.aci = some z := by
  rw [get?_rows_resolved]
  rw [← row_begin] at hu ha
  exact settled_keeps_aci request (sound_begin h) hu ha hz

/-! ## Untrusted look-ups -/

/-- The transaction of a look-up that finds no peer. -/
def addition (d : Directory) (request : Address) : Transaction :=
  d.begin.insert (Account.recordable request)

/-- The directory after a look-up that finds no peer. -/
def added (d : Directory) (request : Address) : Directory := (d.addition request).published

/-- A look-up that adds a row has what may be recorded of the request on it, and leaves the
others. -/
theorem get?_rows_added (d : Directory) (request : Address) (i : PeerId) :
    (d.added request).rows.get? i =
      if i = d.lastId.next then some (Account.recordable request) else d.rows.get? i := by
  have hr : { d.begin with lastId := d.lastId.next }.rows.get? i = d.rows.get? i :=
    congrArg (·.get? i) (Transaction.rows_begin d)
  rw [← hr]
  exact Transaction.get?_rows_change { d.begin with lastId := d.lastId.next } _ _ i

/-- A look-up that adds a row has something to commit. -/
theorem hasChanges_addition (d : Directory) (request : Address) :
    (d.addition request).hasChanges = true := by
  rw [← Bool.not_eq_false, Transaction.hasChanges_eq_false_iff]
  rintro ⟨hc, -⟩
  have hg : (d.addition request).changes.get? d.lastId.next =
      some (some (Account.recordable request)) := Table.get?_insert_self _ _ _
  rw [hc] at hg
  contradiction

end Directory

end PeerBook
