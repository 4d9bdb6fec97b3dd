import PeerBook.Proofs.Directory.Edits
import PeerBook.Proofs.Directory.Recovery

/-!
# PeerBook.Proofs.Directory.Allotment

Which handles are not given out, over runs of transactions on a directory that was
read from any content and may be read anew in between. What a turn can do is said
once (`Opened.next_cases`). A handle that the content vouches for stays vouched for,
so the last handle never falls below it (`Opened.not_mem_given`); and a row that is
committed with a new handle is vouched for, so all rows are accounted for but those
that were read and were not vouched for then (`Opened.Accounts.after`).

A turn is a list of edits with or without a commit, or reading anew, so runs are of
any length and a commit may be refused. The storage is atomic: what is stored is
what was committed. The invariants are `Directory.Remembers` for one handle and
`Directory.Accounts` for all rows; each has a lemma for reading and one for a
commit, and the run lemmas follow by induction over the turns.
-/

namespace PeerBook

open Directory

/-! ## Handles that are remembered -/

namespace Directory

variable {d d' : Directory} {c : Contents} {i : PeerId} {old : PeerId → Prop}

/-- A handle that will not be given out: it is not above the last one, now and whenever the
directory is read anew. -/
structure Remembers (d : Directory) (c : Contents) (i : PeerId) : Prop where
  le : i.toNat ≤ d.lastId.toNat
  vouched : Vouched c i

/-- All handles of rows are remembered but for those of some old ones. -/
structure Accounts (d : Directory) (c : Contents) (old : PeerId → Prop) : Prop where
  counter_le : (counter c).toNat ≤ d.lastId.toNat
  row : ∀ i, d.rows.get? i ≠ none → d.Remembers c i ∨ old i
  readable : ∀ p, Readable c rowPrefix Peer.ofJson p → Vouched c p.id ∨ old p.id

/-- A directory that was read remembers the handles that are vouched for. -/
theorem ReadFrom.remembers (h : d.ReadFrom c) (hi : Vouched c i) : d.Remembers c i :=
  ⟨h.le_of_vouched hi, hi⟩

/-- What was read accounts for its rows but for those that the content does not vouch for. -/
theorem ReadFrom.accounts (h : d.ReadFrom c) :
    d.Accounts c fun i => d.rows.get? i ≠ none ∧ ¬Vouched c i where
  counter_le := h.counter_le
  row i hi := (Classical.em (Vouched c i)).imp h.remembers fun hv => ⟨hi, hv⟩
  readable p hp := (Classical.em (Vouched c p.id)).imp_right fun hv =>
    ⟨(h.row_iff p.id).mpr ⟨p, hp, rfl⟩, hv⟩

/-- Reading anew accounts for no fewer rows: what is read is what the content has, and every
readable row of it was accounted for. -/
theorem Accounts.of_readFrom (h : d.Accounts c old) (hr : d'.ReadFrom c) :
    d'.Accounts c old where
  counter_le := hr.counter_le
  row i hi := by
    obtain ⟨p, hp, rfl⟩ := (hr.row_iff i).mp hi
    exact (h.readable p hp).imp_left hr.remembers
  readable := h.readable

variable {tx : Transaction} {n : Nat}

/-- What is remembered stays so when a transaction is committed, as the last handle only grows. -/
theorem Remembers.published (hc : (counter c).toNat ≤ d.lastId.toNat)
    (hg : d.begin.Grows tx n) (h : d.Remembers c i) :
    tx.published.Remembers (c.applyAll tx.writes) i := by
  have hl : tx.lastId.toNat = d.lastId.toNat + n := hg.toNat_lastId
  refine ⟨?_, Transaction.vouched_applyAll (by omega) h.vouched⟩
  show i.toNat ≤ tx.lastId.toNat
  have hle := h.le
  omega

/-- A commit goes on accounting for the rows: a row that was there is remembered as before, and one
with a new handle because the counter was written with it. -/
theorem Accounts.published (hg : d.begin.Grows tx n) (h : d.Accounts c old) :
    tx.published.Accounts (c.applyAll tx.writes) old := by
  have hl : tx.lastId.toNat = d.lastId.toNat + n := hg.toNat_lastId
  have hc := h.counter_le
  have hrow : ∀ i, tx.rows.get? i ≠ none →
      tx.published.Remembers (c.applyAll tx.writes) i ∨ old i := by
    intro i hi
    obtain hi | ⟨hlt, hle⟩ := hg.row i hi
    · rw [Transaction.rows_begin] at hi
      exact (h.row i hi).imp_left (.published hc hg)
    · -- the handle is new, so the last one is written
      have hne : tx.lastId ≠ tx.base.lastId := by
        rw [hg.base]
        intro heq
        rw [heq] at hle
        exact Nat.not_lt.mpr hle hlt
      exact .inl ⟨hle, Transaction.vouched_of_le hne hle⟩
  refine ⟨?_, hrow, fun p hp => ?_⟩
  · show _ ≤ tx.lastId.toNat
    rw [Transaction.counter_applyAll]
    split
    · omega
    · exact Nat.le_refl _
  · obtain hp | hp := Transaction.readable_applyAll hp
    · exact (h.readable p hp).imp_left (Transaction.vouched_applyAll (by omega))
    · exact (hrow p.id (by rw [hp]; exact nofun)).imp_left (·.vouched)

end Directory

/-! ## Runs of transactions -/

/-- A directory in use, with its storage. -/
structure Opened (σ : Type) where
  storage : σ
  directory : Directory

/-- A turn of a run: a transaction, committed or dropped after its edits, or the directory is read
anew. -/
inductive Turn where
  | transact (edits : List Edit) (commit : Bool)
  | reopen

/-- The number of rows that a turn adds. -/
def Turn.additions : Turn → Nat
  | transact edits _ => Edit.additions edits
  | reopen => 0

namespace Opened

variable {σ : Type} [Storage σ]

omit [Storage σ] in
/-- Goes on with a directory that was answered, or with the one before if there was a failure. -/
def goOn (o : Opened σ) (r : Outcome σ Directory) : Opened σ :=
  ⟨r.state, r.result.toOption.getD o.directory⟩

/-- The directory in use after a turn. -/
def next (o : Opened σ) : Turn → Opened σ
  | .transact edits true => o.goOn ((o.directory.begin.editAll edits).commit.run o.storage)
  | .transact _ false => o
  | .reopen => o.goOn (Directory.load.run o.storage)

/-- The directory in use after turns in order. -/
def after (o : Opened σ) (turns : List Turn) : Opened σ := turns.foldl next o

omit [Storage σ] in
/-- The handles that a turn gives out. -/
def answers (o : Opened σ) : Turn → List PeerId
  | .transact edits _ => o.directory.begin.answers edits
  | .reopen => []

/-- The handles that turns give out, in order. -/
def given (o : Opened σ) : List Turn → List PeerId
  | [] => []
  | t :: ts => o.answers t ++ (o.next t).given ts

/-- As long as turns go on there are handles left for them. -/
def Roomy (o : Opened σ) : List Turn → Prop
  | [] => True
  | t :: ts => o.directory.lastId.toNat + t.additions < UInt64.size - 1 ∧ (o.next t).Roomy ts

variable {o : Opened σ} {turns turns' : List Turn}

/-- There is room for turns in two goes if there is room for all of them. -/
theorem Roomy.append (h : o.Roomy (turns ++ turns')) :
    o.Roomy turns ∧ (o.after turns).Roomy turns' := by
  induction turns generalizing o with
  | nil => exact ⟨trivial, h⟩
  | cons t ts ih =>
      obtain ⟨hn, h⟩ := h
      obtain ⟨hts, h'⟩ := ih h
      exact ⟨⟨hn, hts⟩, h'⟩

omit [Storage σ] in
/-- After an answer the directory that was answered is in use. -/
theorem goOn_of_returns {op : Op σ Directory} {d : Directory} {s : σ}
    (h : op.Returns o.storage d s) : o.goOn (op.run o.storage) = ⟨s, d⟩ := by
  rw [goOn, h.1, h.2]
  rfl

omit [Storage σ] in
/-- After a failure the directory from before is still in use. -/
theorem goOn_of_fails {op : Op σ Directory} {e : Error} {s : σ}
    (h : op.Fails o.storage e s) : o.goOn (op.run o.storage) = ⟨s, o.directory⟩ := by
  rw [goOn, h.1, h.2]
  rfl

variable {contents : σ → Contents} {i : PeerId} {old : PeerId → Prop}

/-- **What a turn can do.** It leaves content and directory, it commits a transaction that goes on
from the directory, or it reads the directory from the content. -/
theorem next_cases (ha : Storage.Atomic contents) (t : Turn)
    (hn : o.directory.lastId.toNat + t.additions < UInt64.size - 1) :
    (contents (o.next t).storage = contents o.storage ∧ (o.next t).directory = o.directory) ∨
      (∃ (tx : Transaction) (n : Nat), o.directory.begin.Grows tx n ∧
        contents (o.next t).storage = (contents o.storage).applyAll tx.writes ∧
        (o.next t).directory = tx.published) ∨
      contents (o.next t).storage = contents o.storage ∧
        (o.next t).directory.ReadFrom (contents o.storage) := by
  cases t with
  | transact edits commit =>
      cases commit with
      | false => exact .inl ⟨rfl, rfl⟩
      | true =>
          have hg : o.directory.begin.Grows (o.directory.begin.editAll edits) _ :=
            Transaction.editAll_grows edits (Nat.lt_of_lt_of_le hn (Nat.sub_le _ _))
          rw [next]
          obtain ⟨d, s, hr⟩ | ⟨e, s, hf⟩ :=
            Op.returns_or_fails (o.directory.begin.editAll edits).commit o.storage
          · rw [goOn_of_returns hr]
            obtain ⟨-, rfl, rfl⟩ | ⟨rfl, hw⟩ := Transaction.commit_returns hr
            · exact .inl ⟨rfl, hg.base⟩
            · obtain ⟨s', hw', hs⟩ | ⟨e, s', hf, -⟩ := ha.writeBatch _ o.storage
              · obtain ⟨-, rfl⟩ := hw.unique hw'
                exact .inr (.inl ⟨_, _, hg, hs, rfl⟩)
              · exact absurd hw.1 (hf.not_ok ())
          · rw [goOn_of_fails hf]
            exact .inl ⟨Transaction.contents_of_commit_fails ha hf, rfl⟩
  | reopen =>
      obtain ⟨hkeep, hread⟩ := load_looks ha.toLegible o.storage rfl
      rw [next]
      obtain ⟨d, s, hr⟩ | ⟨e, s, hf⟩ := Op.returns_or_fails Directory.load o.storage
      · rw [goOn_of_returns hr]
        rw [hr.2] at hkeep
        exact .inr (.inr ⟨hkeep, hread d hr.1⟩)
      · rw [goOn_of_fails hf]
        rw [hf.2] at hkeep
        exact .inl ⟨hkeep, rfl⟩

/-! ## What turns preserve -/

/-- The directory in use accounts for its rows. -/
def Accounts (o : Opened σ) (contents : σ → Contents) (old : PeerId → Prop) : Prop :=
  o.directory.Accounts (contents o.storage) old

/-- The directory in use remembers a handle. -/
def Remembers (o : Opened σ) (contents : σ → Contents) (i : PeerId) : Prop :=
  o.directory.Remembers (contents o.storage) i

/-- Each turn accounts for the rows that it leaves. -/
theorem Accounts.next (ha : Storage.Atomic contents) (h : o.Accounts contents old) {t : Turn}
    (hn : o.directory.lastId.toNat + t.additions < UInt64.size - 1) :
    (o.next t).Accounts contents old := by
  unfold Accounts at h ⊢
  obtain ⟨hs, hd⟩ | ⟨tx, n, hg, hs, hd⟩ | ⟨hs, hd⟩ := next_cases ha t hn
  · rw [hs, hd]
    exact h
  · rw [hs, hd]
    exact h.published hg
  · rw [hs]
    exact h.of_readFrom hd

/-- Turn after turn the rows are accounted for, by induction over the turns. -/
theorem Accounts.after (ha : Storage.Atomic contents) (h : o.Accounts contents old)
    (hn : o.Roomy turns) : (o.after turns).Accounts contents old := by
  induction turns generalizing o with
  | nil => exact h
  | cons t ts ih => exact ih (h.next ha hn.1) hn.2

/-- Each turn remembers what was remembered. -/
theorem Remembers.next (ha : Storage.Atomic contents) (hacc : o.Accounts contents old)
    (h : o.Remembers contents i) {t : Turn}
    (hn : o.directory.lastId.toNat + t.additions < UInt64.size - 1) :
    (o.next t).Remembers contents i := by
  unfold Remembers at h ⊢
  obtain ⟨hs, hd⟩ | ⟨tx, n, hg, hs, hd⟩ | ⟨hs, hd⟩ := next_cases ha t hn
  · rw [hs, hd]
    exact h
  · rw [hs, hd]
    exact h.published hacc.counter_le hg
  · rw [hs]
    exact hd.remembers h.vouched

omit [Storage σ] in
/-- A turn gives out no handle that is remembered: what it gives out is above the last one. -/
theorem not_mem_answers (h : o.Remembers contents i) {t : Turn}
    (hn : o.directory.lastId.toNat + t.additions < UInt64.size - 1) : i ∉ o.answers t := by
  cases t with
  | reopen => exact List.not_mem_nil
  | transact edits commit =>
      intro hi
      have hlt := ((Transaction.mem_answers_iff (Nat.lt_of_lt_of_le hn (Nat.sub_le _ _))).mp hi).1
      exact Nat.not_lt.mpr h.le hlt

/-- **Turns give out no handle that is remembered.** -/
theorem not_mem_given (ha : Storage.Atomic contents) (hacc : o.Accounts contents old)
    (h : o.Remembers contents i) (hn : o.Roomy turns) : i ∉ o.given turns := by
  induction turns generalizing o with
  | nil => exact List.not_mem_nil
  | cons t ts ih =>
      rw [given, List.mem_append, not_or]
      exact ⟨not_mem_answers h hn.1, ih (hacc.next ha hn.1) (h.next ha hacc hn.1) hn.2⟩

end Opened

end PeerBook
