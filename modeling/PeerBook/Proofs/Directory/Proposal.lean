import PeerBook.Account.Resolve
import PeerBook.Proofs.Directory.Resolution
import PeerBook.Proofs.Storage.Healthy

/-!
# PeerBook.Proofs.Directory.Proposal

What a trusted resolution asks of the storage. All of it is decided by the
directory before the storage is touched: an answer and a transaction
(`Directory.proposal`), and with them the one batch that is written
(`Directory.batch`). What is submitted to the storage is that batch and nothing
else, so a failure leaves the first writes of it (`Directory.submit_fails`), and
a later try makes it whole from there (`Directory.submit_alike`). Nothing here
asks anything of the directory.

So a resolution may be tried again after a failure from any directory, also one
in which identifiers are shared or a chain does not end. Whether it answers is
not said here; where it is refused it is refused on every storage
(`Transaction.commit_refused`), and on a healthy one it is answered otherwise
(`Directory.submit_answers`).
-/

namespace PeerBook

variable {σ : Type} [Storage σ] {contents : σ → Contents} {healthy : σ → Prop}
variable {R : σ → σ → Prop}

namespace Transaction

/-- The batch that a commit writes. -/
def batch (tx : Transaction) : List Write :=
  if tx.hasChanges && tx.violation?.isNone then tx.writes else []

/-- What a commit answers, unless the storage fails. -/
def verdict (tx : Transaction) : Except Error Directory :=
  if tx.hasChanges then
    match tx.violation? with
    | some f => .error (.storage f)
    | none => .ok tx.published
  else .ok tx.base

/-- A commit that fails leaves the first writes of its batch; none, where it was refused. This is
all that an orderly storage lets one say. -/
theorem commit_fails_leaves (hs : Storage.Orderly contents) {tx : Transaction} {s s' : σ}
    {e : Error} (h : tx.commit.Fails s e s') :
    ∃ made, made <+: tx.batch ∧ contents s' = (contents s).applyAll made := by
  obtain ⟨-, hr⟩ | ⟨f, -, hf⟩ | ⟨hc, hv, ⟨t, -, hr⟩ | ⟨e', t, hw, hf⟩⟩ := tx.commit_cases s
  · exact absurd hr.1 (h.not_ok _)
  · obtain ⟨-, rfl⟩ := h.unique hf
    exact ⟨[], List.nil_prefix, rfl⟩
  · exact absurd hr.1 (h.not_ok _)
  · obtain ⟨rfl, rfl⟩ := h.unique hf
    have hb : tx.batch = tx.writes := by simp [batch, hc, hv]
    obtain ⟨u, hr', -⟩ | ⟨e'', u, made, hf', hm, hu⟩ := hs tx.writes s
    · exact absurd hr'.1 (hw.not_ok ())
    · obtain ⟨-, rfl⟩ := hw.unique hf'
      rw [hb]
      exact ⟨made, hm, hu⟩

/-- On a healthy storage a commit answers what it has to, and leaves the content with its batch made
and the storage healthy. -/
theorem commit_healthy (hh : Storage.Healthy contents healthy) (tx : Transaction) {s : σ}
    (hs : healthy s) :
    (tx.commit.run s).result = tx.verdict ∧ healthy (tx.commit.run s).state ∧
      contents (tx.commit.run s).state = (contents s).applyAll tx.batch := by
  unfold commit batch verdict
  cases hc : tx.hasChanges with
  | false => exact ⟨rfl, hs, rfl⟩
  | true =>
      cases hv : tx.violation? with
      | some f => exact ⟨rfl, hs, rfl⟩
      | none =>
          obtain ⟨s', hr, hs', hcs⟩ := hh tx.writes s hs
          have hp : (do Storage.writeBatch tx.writes; return tx.published : Op σ _).Returns s
            tx.published s' := hr.bind (Op.returns_pure _ s')
          exact ⟨hp.1, hp.2.symm ▸ hs', (congrArg contents hp.2).trans hcs⟩

/-- A commit that is refused is so whatever the storage, and leaves it alone: the check looks at the
transaction only. -/
theorem commit_refused {tx : Transaction} {e : Error} (h : tx.verdict = .error e) (s : σ) :
    tx.commit.Fails s e s := by
  unfold verdict at h
  unfold commit
  cases hc : tx.hasChanges with
  | false =>
      rw [hc] at h
      contradiction
  | true =>
      rw [hc] at h
      cases hv : tx.violation? with
      | none =>
          rw [hv] at h
          contradiction
      | some f =>
          rw [hv] at h
          obtain rfl := Except.error.inj h
          exact ⟨rfl, rfl⟩

/-- Where batches go alike, so do commits. -/
theorem commit_respects (hw : ∀ ws, (Storage.writeBatch ws : Op σ Unit).Respects R)
    (tx : Transaction) : (tx.commit : Op σ _).Respects R := by
  unfold commit
  cases tx.hasChanges with
  | false => exact .pure tx.base
  | true =>
      cases tx.violation? with
      | some f => exact .ofExcept (.error (.storage f))
      | none => exact .bind (hw tx.writes) fun _ => .pure tx.published

end Transaction

/-- What a finding commits: the redirects of the absorbed handles and, where it is news, the handle
of the account itself, beside the rows. -/
def Reconciliation.commits (r : Reconciliation) (d : Directory) (markSelf : Bool)
    (tx : Transaction) : Transaction :=
  let tx := r.merged.foldl (fun tx absorbed => tx.recordMerged absorbed r.peer) tx
  if markSelf && d.selfId != some r.peer then tx.setSelf r.peer else tx

namespace Directory

/-- What a trusted resolution answers and commits, from the directory alone. -/
def proposal (d : Directory) (markSelf : Bool) (request : Address) :
    Except Error (Reconciliation × Transaction) :=
  let found := (reconcile request).run d.begin
  found.result.map fun outcome => (outcome, outcome.commits d markSelf found.state)

/-- What is proposed where the decision answers. -/
theorem proposal_of_returns {d : Directory} (markSelf : Bool) {request : Address}
    {outcome : Reconciliation} {tx : Transaction}
    (h : (reconcile request).Returns d.begin outcome tx) :
    d.proposal markSelf request = .ok (outcome, outcome.commits d markSelf tx) := by
  rw [proposal, h.1, h.2]
  rfl

/-- Nothing is proposed where the decision fails. -/
theorem proposal_of_fails {d : Directory} (markSelf : Bool) {request : Address} {e : Error}
    {tx : Transaction} (h : (reconcile request).Fails d.begin e tx) :
    d.proposal markSelf request = .error e := by
  rw [proposal, h.1]
  rfl

/-- The batch that a trusted resolution writes. -/
def batch (d : Directory) (markSelf : Bool) (request : Address) : List Write :=
  match d.proposal markSelf request with
  | .ok (_, tx) => tx.batch
  | .error _ => []

/-- The part of a trusted resolution that changes the storage before any store follows: it
answers with the directory to go on with. -/
def submit (d : Directory) (markSelf : Bool) (request : Address) :
    Op σ (Reconciliation × Directory) := do
  let (outcome, tx) ← Op.ofExcept (d.proposal markSelf request)
  return (outcome, ← tx.commit)

/-- What is submitted leaves, where it fails, the first writes of its batch. A resolution that could
not even be decided has an empty batch. -/
theorem submit_fails (hs : Storage.Orderly contents) {d : Directory} {markSelf : Bool}
    {request : Address} {s s' : σ} {e : Error} (h : (d.submit markSelf request).Fails s e s') :
    ∃ made, made <+: d.batch markSelf request ∧ contents s' = (contents s).applyAll made := by
  unfold submit at h
  unfold batch
  cases hp : d.proposal markSelf request with
  | error e' =>
      rw [hp] at h
      have hsame : s = s' := h.2
      exact ⟨[], List.nil_prefix, by rw [hsame]; rfl⟩
  | ok p =>
      rw [hp] at h
      obtain ⟨outcome, tx⟩ := p
      obtain ⟨d', t, hr⟩ | ⟨e', t, hf⟩ := Op.returns_or_fails tx.commit s
      · have hb : (do return (outcome, ← tx.commit) : Op σ _).Returns s (outcome, d') t :=
          hr.bind (Op.returns_pure _ t)
        exact absurd hb.1 (h.not_ok _)
      · have hb : (do return (outcome, ← tx.commit) : Op σ _).Fails s e' t := hf.bind _
        obtain ⟨-, rfl⟩ := h.unique hb
        exact Transaction.commit_fails_leaves hs hf

/-- **What is submitted to healthy storages goes alike** if its batch leads to one content in
both. -/
theorem submit_alike (hh : Storage.Healthy contents healthy) (d : Directory) (markSelf : Bool)
    (request : Address) {s t : σ} (hs : healthy s) (ht : healthy t)
    (hc : (contents s).applyAll (d.batch markSelf request) =
      (contents t).applyAll (d.batch markSelf request)) :
    (((d.submit markSelf request).run s).Alike (Storage.Twins contents healthy)
      ((d.submit markSelf request).run t)) := by
  unfold submit
  unfold batch at hc
  cases hp : d.proposal markSelf request with
  | error e =>
      rw [hp] at hc
      exact ⟨rfl, hs, ht, hc⟩
  | ok p =>
      rw [hp] at hc
      obtain ⟨outcome, tx⟩ := p
      obtain ⟨hr, hs', hcs⟩ := tx.commit_healthy hh hs
      obtain ⟨hr', ht', hct⟩ := tx.commit_healthy hh ht
      have hcommit : (tx.commit.run s).Alike (Storage.Twins contents healthy) (tx.commit.run t) :=
        ⟨hr.trans hr'.symm, hs', ht', by rw [hcs, hct, hc]⟩
      exact hcommit.andThen fun d' => Op.Respects.pure (outcome, d')

/-- Where batches go alike from related states, so does what is submitted. -/
theorem submit_respects (hw : ∀ ws, (Storage.writeBatch ws : Op σ Unit).Respects R)
    (d : Directory) (markSelf : Bool) (request : Address) :
    (d.submit markSelf request : Op σ _).Respects R :=
  .bind (.ofExcept _) fun (outcome, tx) =>
    .bind (tx.commit_respects hw) fun d' => .pure (outcome, d')

/-- On a healthy storage a trusted resolution is answered, unless it is refused on every storage. So
a failure that comes and goes is always the storage's. -/
theorem submit_answers (hh : Storage.Healthy contents healthy) (d : Directory) (markSelf : Bool)
    (request : Address) :
    (∀ s, healthy s → ∃ p s', (d.submit markSelf request).Returns s p s') ∨
      ∃ e, ∀ s : σ, (d.submit markSelf request).Fails s e s := by
  unfold submit
  cases hp : d.proposal markSelf request with
  | error e => exact .inr ⟨e, fun s => ⟨rfl, rfl⟩⟩
  | ok p =>
      obtain ⟨outcome, tx⟩ := p
      cases hv : tx.verdict with
      | error e => exact .inr ⟨e, fun s => (Transaction.commit_refused hv s).bind _⟩
      | ok d' =>
          refine .inl fun s hs => ⟨(outcome, d'), (tx.commit.run s).state, ?_⟩
          have hr : tx.commit.Returns s d' (tx.commit.run s).state :=
            ⟨(tx.commit_healthy hh hs).1.trans hv, rfl⟩
          exact hr.bind (Op.returns_pure _ _)

end Directory

end PeerBook
