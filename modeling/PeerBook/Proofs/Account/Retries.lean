import PeerBook.Proofs.Account.Interruption
import PeerBook.Proofs.Directory.Proposal

/-!
# PeerBook.Proofs.Account.Retries

Trying a trusted resolution again after the storage failed it. The directory
decides what is asked of the storage (`Directory.submit`), the stores follow
only when that was done, and the directory is replaced only then too: so a
resolution that fails leaves the account as it was, but for the first writes of
a batch in its storage (`submit_of_resolveWith_fails`). From there a healthy
storage comes to where it would have come without the failures
(`failed_resolution_can_be_retried`).

- `Tried` is an account after any number of failures of one request, with the
  storage mended or broken in other ways in between. Made from there, the batch
  leads to the content that it would have led to at first (`Tried.contents_eq`),
  as it writes everything again that was written in part.
- The cascade starts when the batch is made, so from related storages it goes
  alike whatever was tried before (`resolveWith_alike`).
-/

namespace PeerBook

variable {σ : Type} {R : σ → σ → Prop} {contents : σ → Contents} {healthy : σ → Prop}

/-! ## Stores that follow alike -/

/-- A merger that goes alike on related storages. -/
def Merger.Respects (m : Merger σ) (R : σ → σ → Prop) : Prop :=
  ∀ surviving absorbed, (m.merge surviving absorbed).Respects R

/-- A merger that goes alike on related storages is followed alike. -/
theorem Merger.Respects.follow {m : Merger σ} (h : m.Respects R) (surviving absorbed : PeerId) :
    (m.follow surviving absorbed).Respects R := by
  refine .bind (h surviving absorbed).attempt fun r => ?_
  cases r with
  | ok u => exact .pure none
  | error e => exact .bind (.note _ _) fun _ => .pure _

namespace Account

/-- Two accounts that differ in their storages only; these are related, and the stores keep them
so. -/
structure Alike (R : σ → σ → Prop) (a b : Account σ) : Prop where
  storage : R a.storage b.storage
  directory : a.directory = b.directory
  mergers : a.mergers = b.mergers
  events : a.events = b.events
  respects : ∀ m ∈ a.mergers, m.Respects R

/-- What goes alike on the storages goes alike on the accounts. -/
theorem onStorage_respects {α : Type} {op : Op σ α} (h : op.Respects R) :
    (onStorage op).Respects (Alike R) := fun _ _ hab =>
  ⟨(h _ _ hab.storage).result, (h _ _ hab.storage).state, hab.directory, hab.mergers, hab.events,
    hab.respects⟩

/-- Sending events goes alike. -/
theorem send_respects (events : List Event) : (send events).Respects (Alike R) := fun _ _ hab =>
  ⟨rfl, hab.storage, hab.directory, hab.mergers, congrArg (· ++ events) hab.events, hab.respects⟩

/-- The cascade of one merge goes alike, since both accounts have the same mergers and these go
alike on the two storages. -/
theorem cascade_respects (surviving absorbed : PeerId) :
    (cascade surviving absorbed : Op (Account σ) _).Respects (Alike R) := by
  rintro ⟨s, d, mergers, events⟩ ⟨t, _, _, _⟩ ⟨hst, rfl, rfl, rfl, hm⟩
  -- both accounts have the same mergers, which the cascade reads from them
  have hall : (mergeAll mergers surviving absorbed).Respects R :=
    .collect fun m hmem => (hm m hmem).follow surviving absorbed
  have hrun : (do
      let failures ← onStorage (mergeAll mergers surviving absorbed)
      send (.merged surviving absorbed :: failures.map .cascadeFailed)
      return failures : Op (Account σ) _).Respects (Alike R) :=
    .bind (onStorage_respects hall) fun failures => .bind (send_respects _) fun _ => .pure failures
  obtain ⟨hresult, hstate⟩ := hrun ⟨s, d, mergers, events⟩ ⟨t, d, mergers, events⟩
    ⟨hst, rfl, rfl, rfl, hm⟩
  exact ⟨hresult, hstate⟩

/-- The cascades of several merges go alike, by induction on their list. -/
theorem cascadeAll_respects (surviving : PeerId) (absorbed : List PeerId) :
    (cascadeAll surviving absorbed : Op (Account σ) _).Respects (Alike R) := by
  induction absorbed with
  | nil => exact .pure []
  | cons a as ih =>
      exact .bind (cascade_respects surviving a) fun _ => .bind ih fun _ => .pure _

end Account

/-! ## Resolutions as submissions -/

variable [Storage σ]

namespace Account

/-- A trusted resolution of the directory fails with what is submitted to the storage, or goes on
with what that answers. -/
theorem reconcileDirectory_cases (account : Account σ) (markSelf : Bool) (request : Address) :
    (∃ e s, (account.directory.submit markSelf request).Fails account.storage e s ∧
        (reconcileDirectory markSelf request).Fails account e { account with storage := s }) ∨
      ∃ outcome d s,
        (account.directory.submit markSelf request).Returns account.storage (outcome, d) s ∧
        (reconcileDirectory markSelf request).Returns account outcome
          { account with storage := s, directory := d } := by
  obtain ⟨outcome, tx, hr⟩ | ⟨e, tx, hf⟩ :=
    Op.returns_or_fails (reconcile request) account.directory.begin
  · have hw := hr.within account
    have hp := Directory.proposal_of_returns markSelf hr
    unfold Directory.submit
    rw [hp]
    obtain ⟨d, s, hc⟩ | ⟨e, s, hc⟩ :=
      Op.returns_or_fails (outcome.commits account.directory markSelf tx).commit account.storage
    · have hz : (onStorage (outcome.commits account.directory markSelf tx).commit).Returns account d
          { account with storage := s } := hc.zoom
      exact .inr ⟨outcome, d, s, hc.bind (Op.returns_pure _ s), (Op.returns_state _).bind
        (hw.bind (hz.bind ((Op.returns_update _ _).bind (Op.returns_pure _ _))))⟩
    · have hz : (onStorage (outcome.commits account.directory markSelf tx).commit).Fails account e
          { account with storage := s } := hc.zoom
      exact .inl ⟨e, s, hc.bind _, (Op.returns_state _).bind_fails (hw.bind_fails (hz.bind _))⟩
  · have hp := Directory.proposal_of_fails markSelf hf
    unfold Directory.submit
    rw [hp]
    exact .inl ⟨e, account.storage, ⟨rfl, rfl⟩,
      (Op.returns_state _).bind_fails ((hf.within account).bind _)⟩

/-- A resolution fails as what it submits does, and leaves the account but for the storage. -/
theorem resolveWith_of_fails {account : Account σ} {markSelf : Bool} {request : Address} {e : Error}
    {s : σ} (h : (account.directory.submit markSelf request).Fails account.storage e s) :
    (resolveWith markSelf request).Fails account e { account with storage := s } := by
  obtain ⟨e', s', hs, hf⟩ | ⟨outcome, d, s', hs, -⟩ :=
    reconcileDirectory_cases account markSelf request
  · obtain ⟨rfl, rfl⟩ := h.unique hs
    exact hf.bind _
  · exact absurd hs.1 (h.not_ok _)

/-- A resolution whose submission is answered publishes, tells its events and lets the stores
follow. -/
theorem resolveWith_of_returns {account account' : Account σ} {markSelf : Bool} {request : Address}
    {outcome : Reconciliation} {d : Directory} {s : σ} {failures : List CascadeFailure}
    (h : (account.directory.submit markSelf request).Returns account.storage (outcome, d) s)
    (hc : (cascadeAll outcome.peer outcome.merged).Returns
      { account with storage := s, directory := d, events := account.events ++ outcome.events }
      failures account') :
    (resolveWith markSelf request).Returns account ⟨outcome.peer, outcome.merged, failures⟩
      account' := by
  obtain ⟨e, s', hs, -⟩ | ⟨outcome', d', s', hs, hr⟩ :=
    reconcileDirectory_cases account markSelf request
  · exact absurd h.1 (hs.not_ok _)
  · obtain ⟨hp, rfl⟩ := h.unique hs
    obtain ⟨rfl, rfl⟩ := Prod.mk.inj hp
    exact hr.bind ((Op.returns_update _ _).bind (hc.bind (Op.returns_pure _ _)))

/-- Where what is submitted is answered, so is the resolution. -/
theorem resolveWith_answers {account : Account σ} {markSelf : Bool} {request : Address}
    {p : Reconciliation × Directory} {s : σ}
    (h : (account.directory.submit markSelf request).Returns account.storage p s) :
    ∃ r account', (resolveWith markSelf request).Returns account r account' := by
  obtain ⟨failures, account', hc, -⟩ := cascadeAll_returns p.1.peer p.1.merged
    { account with storage := s, directory := p.2, events := account.events ++ p.1.events }
  exact ⟨_, account', resolveWith_of_returns h hc⟩

/-- **A trusted resolution that fails did so in what it submitted**, and did nothing else. -/
theorem submit_of_resolveWith_fails {account account' : Account σ} {markSelf : Bool}
    {request : Address} {e : Error} (h : (resolveWith markSelf request).Fails account e account') :
    ∃ s, account' = { account with storage := s } ∧
      (account.directory.submit markSelf request).Fails account.storage e s := by
  obtain ⟨p, s, hs⟩ | ⟨e', s, hs⟩ :=
    Op.returns_or_fails (account.directory.submit markSelf request) account.storage
  · obtain ⟨r, b, hr⟩ := resolveWith_answers hs
    exact absurd hr.1 (h.not_ok r)
  · obtain ⟨rfl, rfl⟩ := h.unique (resolveWith_of_fails hs)
    exact ⟨s, rfl, hs⟩

/-- Where what is submitted goes alike, so do the resolutions: events and cascades depend on what
was answered and on nothing that was tried before. -/
theorem resolveWith_alike {account : Account σ} (hm : ∀ m ∈ account.mergers, m.Respects R)
    {markSelf : Bool} {request : Address} {s t : σ}
    (h : ((account.directory.submit markSelf request).run s).Alike R
      ((account.directory.submit markSelf request).run t)) :
    ((resolveWith markSelf request).run { account with storage := s }).Alike (Alike R)
      ((resolveWith markSelf request).run { account with storage := t }) := by
  obtain ⟨⟨outcome, d⟩, s', hs⟩ | ⟨e, s', hs⟩ :=
    Op.returns_or_fails (account.directory.submit markSelf request) s
  · obtain ⟨t', ht, hR⟩ := h.returns hs
    have hcascade := cascadeAll_respects outcome.peer outcome.merged
      { account with storage := s', directory := d, events := account.events ++ outcome.events }
      { account with storage := t', directory := d, events := account.events ++ outcome.events }
      ⟨hR, rfl, rfl, rfl, hm⟩
    obtain ⟨failures, a, hc, -⟩ := cascadeAll_returns outcome.peer outcome.merged
      { account with storage := s', directory := d, events := account.events ++ outcome.events }
    obtain ⟨b, hc', hab⟩ := hcascade.returns hc
    exact .of_returns (resolveWith_of_returns hs hc) (resolveWith_of_returns ht hc') hab
  · obtain ⟨t', ht, hR⟩ := h.fails hs
    exact .of_fails (resolveWith_of_fails hs) (resolveWith_of_fails ht) ⟨hR, rfl, rfl, rfl, hm⟩

/-! ## Tries that failed -/

/-- An account after tries of a trusted resolution that failed. Between them the storage may be
mended, or break otherwise, as long as its content is the same. -/
inductive Tried (contents : σ → Contents) (markSelf : Bool) (request : Address)
    (account : Account σ) : Account σ → Prop
  | start : Tried contents markSelf request account account
  | fail {b c : Account σ} {e : Error} (h : Tried contents markSelf request account b)
    (hf : (resolveWith markSelf request).Fails b e c) : Tried contents markSelf request account c
  | mend {b : Account σ} (s : σ) (h : Tried contents markSelf request account b)
    (hs : contents s = contents b.storage) :
    Tried contents markSelf request account { b with storage := s }

/-- Tries that failed leave in the storage alone something that the batch, made from there, makes up
for. -/
theorem Tried.contents_eq (hs : Storage.Orderly contents) {account account' : Account σ}
    {markSelf : Bool} {request : Address} (h : account.Tried contents markSelf request account') :
    account' = { account with storage := account'.storage } ∧
      (contents account'.storage).applyAll (account.directory.batch markSelf request) =
        (contents account.storage).applyAll (account.directory.batch markSelf request) := by
  induction h with
  | start => exact ⟨rfl, rfl⟩
  | fail _ hf ih =>
      obtain ⟨heq, hc⟩ := ih
      obtain ⟨s, rfl, hsub⟩ := submit_of_resolveWith_fails hf
      obtain ⟨made, hm, hmade⟩ := Directory.submit_fails hs hsub
      rw [heq] at hm ⊢
      refine ⟨rfl, ?_⟩
      rw [← hc, hmade, Contents.applyAll_of_prefix _ hm]
  | mend s _ hsame ih =>
      obtain ⟨heq, hc⟩ := ih
      rw [heq]
      exact ⟨rfl, by rw [hsame, hc]⟩

end Account

/-- **A resolution that failed in the storage can be tried again.** On any account, on a storage
whose batches are made or stop after some of their first writes: a trusted resolution that fails
leaves the account as it was but for its storage, which is as what was submitted to it left it and
has the first writes of the batch. And after any number of such failures, on a healthy storage the
resolution answers what it answers on a healthy storage with the content from before the failures,
tells the same, and leaves the same directory and the same content; and there it is answered, unless
it is refused without the storage being touched, as it is on every storage. -/
theorem failed_resolution_can_be_retried (hs : Storage.Orderly contents)
    (hh : Storage.Healthy contents healthy) {account : Account σ}
    (hm : ∀ m ∈ account.mergers, m.Respects (Storage.Twins contents healthy)) (markSelf : Bool)
    (request : Address) :
    (∀ e account', (Account.resolveWith markSelf request).Fails account e account' →
      ∃ s, account' = { account with storage := s } ∧
        (account.directory.submit markSelf request).Fails account.storage e s ∧
        ∃ made, made <+: account.directory.batch markSelf request ∧
          contents s = (contents account.storage).applyAll made) ∧
      ∀ account', account.Tried contents markSelf request account' → healthy account'.storage →
        ∀ s, healthy s → contents s = contents account.storage →
          ((Account.resolveWith markSelf request).run account').Alike
              (fun a b => a.directory = b.directory ∧ a.mergers = b.mergers ∧
                a.events = b.events ∧ contents a.storage = contents b.storage)
              ((Account.resolveWith markSelf request).run { account with storage := s }) ∧
            ((∃ r a, (Account.resolveWith markSelf request).Returns account' r a) ∨
              ∃ e, ∀ t, (Account.resolveWith markSelf request).Fails
                { account with storage := t } e { account with storage := t }) := by
  refine ⟨fun e account' hf => ?_, fun account' ht hgood s hgood' hsame => ?_⟩
  · obtain ⟨s, rfl, hsub⟩ := Account.submit_of_resolveWith_fails hf
    exact ⟨s, rfl, hsub, Directory.submit_fails hs hsub⟩
  · obtain ⟨heq, hc⟩ := ht.contents_eq hs
    have hc' : (contents account'.storage).applyAll (account.directory.batch markSelf request) =
        (contents s).applyAll (account.directory.batch markSelf request) := by rw [hc, hsame]
    have hsub := Directory.submit_alike hh account.directory markSelf request hgood hgood' hc'
    have hrun := Account.resolveWith_alike hm hsub
    rw [← heq] at hrun
    refine ⟨⟨hrun.result, hrun.state.directory, hrun.state.mergers, hrun.state.events,
      hrun.state.storage.contents_eq⟩, ?_⟩
    obtain hanswers | ⟨e, hrefused⟩ :=
      Directory.submit_answers hh account.directory markSelf request
    · obtain ⟨p, t, hp⟩ := hanswers account'.storage hgood
      rw [heq]
      exact .inl (Account.resolveWith_answers hp)
    · exact .inr ⟨e, fun t => Account.resolveWith_of_fails (hrefused t)⟩

/-- A merger that notes which handle a peer was known by. -/
def Merger.noting : Merger Stepper where
  name := "notes"
  merge surviving absorbed := Storage.put ("notes/" ++ toString absorbed) (toString surviving)

/-- A storage with the two peers that were met apart, behind rules. -/
def Stepper.holding (rules : List Rule) : Stepper := ⟨⟨Account.apart.storage, rules⟩⟩

/-- The account of the two on it. -/
def Account.onStepper (s : Stepper) : Account Stepper :=
  ⟨s, Account.apart.directory, [.noting], []⟩

/-- The storage of the two, which takes no redirect. -/
def Account.broken : Account Stepper := .onStepper (.holding [⟨.put, Directory.mergedPrefix⟩])

/-- The proof that the two are one stops before its redirect, and is made after the rule is gone:
the second try answers what a first one would have, with the same events and the same content. -/
theorem refused_redirect_is_retried :
    ∃ e s r a, (Account.resolveWith false .sampleProof).Fails .broken e
        { Account.broken with storage := s } ∧
      Stepper.contents s ≠ Stepper.contents Account.broken.storage ∧
      (Account.resolveWith false .sampleProof).Returns
        { Account.broken with storage := ⟨⟨s.inner.inner, []⟩⟩ } r a ∧
      r = ⟨⟨1⟩, [⟨2⟩], []⟩ ∧ a.events = [.addressChanged ⟨1⟩, .merged ⟨1⟩ ⟨2⟩] ∧
      Stepper.contents a.storage = Stepper.contents ((Account.resolveWith false .sampleProof).run
        { Account.broken with storage := .holding [] }).state.storage := by
  have hm : ∀ m ∈ Account.broken.mergers,
      m.Respects (Storage.Twins Stepper.contents Stepper.Open) := by
    intro m hmem
    obtain rfl := List.mem_singleton.mp hmem
    exact fun surviving absorbed => (Stepper.put_makes _ _).respects
  have hbroken : ((Account.resolveWith false .sampleProof).run .broken).result.toOption = none ∧
      Stepper.contents ((Account.resolveWith false .sampleProof).run .broken).state.storage ≠
        Stepper.contents Account.broken.storage := by decide +kernel
  have hwhole : ((Account.resolveWith false .sampleProof).run
        { Account.broken with storage := .holding [] }).result.toOption =
          some ⟨⟨1⟩, [⟨2⟩], []⟩ ∧
      ((Account.resolveWith false .sampleProof).run
        { Account.broken with storage := .holding [] }).state.events =
          [.addressChanged ⟨1⟩, .merged ⟨1⟩ ⟨2⟩] := by decide +kernel
  obtain ⟨hfail, hretry⟩ := failed_resolution_can_be_retried Stepper.orderly Stepper.healthy hm
    false .sampleProof
  obtain ⟨hnone, hcontents⟩ := hbroken
  obtain ⟨r, b, hr⟩ | ⟨e, b, hf⟩ :=
    Op.returns_or_fails (Account.resolveWith false .sampleProof) .broken
  · rw [hr.1] at hnone
    exact absurd hnone nofun
  · obtain ⟨s, rfl, -⟩ := hfail e b hf
    rw [hf.2] at hcontents
    have hfailed : Account.Tried Stepper.contents false .sampleProof .broken
        { Account.broken with storage := s } := .fail .start hf
    have htried : Account.Tried Stepper.contents false .sampleProof .broken
        { Account.broken with storage := ⟨⟨s.inner.inner, []⟩⟩ } := hfailed.mend _ rfl
    have hmended : Stepper.Open ⟨⟨s.inner.inner, []⟩⟩ := rfl
    have hopen : Stepper.Open (.holding []) := rfl
    obtain ⟨⟨hresult, -, -, hevents, hsame⟩, -⟩ := hretry _ htried hmended _ hopen rfl
    obtain ⟨r, a, hr⟩ | ⟨e', a, hf'⟩ := Op.returns_or_fails
      (Account.resolveWith false .sampleProof) { Account.broken with storage := .holding [] }
    · rw [hr.1, hr.2] at hwhole
      refine ⟨e, s, r, _, hf, hcontents, ⟨?_, rfl⟩, Option.some.inj hwhole.1, ?_, hsame⟩
      · exact hresult.trans hr.1
      · exact hevents.trans ((congrArg Account.events hr.2).trans hwhole.2)
    · rw [hf'.1] at hwhole
      exact absurd hwhole.1 nofun

end PeerBook
