import PeerBook.Proofs.Account.Contested
import PeerBook.Proofs.Directory.Written
import PeerBook.Proofs.Storage.Faithful
import PeerBook.Proofs.Stores.Keys

/-!
# PeerBook.Proofs.Account.Lookups

Untrusted look-ups, on accounts whose rows may share identifiers. A look-up
answers the best match and leaves the account alone (`lookup_finds`), or it adds
one row under the next handle: its commit is never refused, since the new row
shares nothing with another (`lookup_adds`), and the row is what the next
look-up finds (`bestMatch?_added`). So a look-up never rewrites
(`lookup_never_rewrites`).

The row that is added holds the strongest identifier of the address and nothing
else, but for one sort of address: a phone number and a username without ACI and
PNI are recorded together (`lookup_records_strongest_iff`).
-/

namespace PeerBook

/-! ## What is recorded -/

namespace Address

/-- Whether an address is a phone number with a username, and nothing else. -/
def IsNumberWithUsername (a : Address) : Prop :=
  a.aci = none ∧ a.pni = none ∧ a.number ≠ none ∧ a.username ≠ none

/-- **Only the strongest identifier is recorded**, except of a phone number with a username. An
address with an ACI or a PNI is cut down to that; any other is recorded as it is. -/
theorem identifiers_recordable_iff {a : Address} :
    (Account.recordable a).identifiers = [a.strongest] ↔ ¬a.IsNumberWithUsername := by
  obtain ⟨⟨aci, pni, number, username⟩, h⟩ := a
  cases aci with
  | some z =>
      simp [Account.recordable, IsNumberWithUsername, strongest, identifiers, ofAci,
        Identifiers.toList]
  | none =>
      cases pni with
      | some z =>
          simp [Account.recordable, IsNumberWithUsername, strongest, identifiers, ofPni,
            Identifiers.toList]
      | none =>
          cases number with
          | some n =>
              cases username <;>
                simp [Account.recordable, IsNumberWithUsername, strongest, identifiers,
                  Identifiers.toList]
          | none =>
              cases username with
              | some u =>
                  simp [Account.recordable, IsNumberWithUsername, strongest, identifiers,
                    Identifiers.toList]
              | none => contradiction

/-- A phone number with a username is recorded whole. -/
theorem recordable_of_isNumberWithUsername {a : Address} (h : a.IsNumberWithUsername) :
    Account.recordable a = a := by
  rw [Account.recordable, h.1, h.2.1]

/-- What is recorded of an address shares an identifier with it. -/
theorem sharesWith_recordable (a : Address) : (Account.recordable a).sharesWith a = true := by
  rw [sharesWith_iff]
  obtain ⟨x, hx⟩ := List.exists_mem_of_ne_nil _ (Account.recordable a).identifiers_ne_nil
  exact ⟨x, hx, Directory.mem_of_mem_recordable hx⟩

end Address

/-! ## The directory -/

namespace Directory

variable {d : Directory} {a : Address}

/-- Whether a row agrees with an address on the strongest kind on which any row does, and is the
lowest of those that agree on it. -/
def BestMatch (d : Directory) (a : Address) (i : PeerId) : Prop :=
  ∃ b k, d.rows.get? i = some b ∧ b.rank a = some k ∧
    ∀ j c l, d.rows.get? j = some c → c.rank a = some l → l < k ∨ l = k ∧ i.toNat ≤ j.toNat

/-- What is found is a best match by the rows. -/
theorem bestMatch_of_bestMatch? {p : Peer} (h : d.bestMatch? a = some p) : d.BestMatch a p.id := by
  obtain ⟨hp, k, hk, hmax⟩ := bestMatch?_spec h
  refine ⟨p.address, k, hp, hk, fun j c l hj hl => ?_⟩
  rcases Nat.lt_or_eq_of_le (hmax j c l hj hl) with hlt | heq
  · exact .inl hlt
  · obtain rfl := Kind.strength_inj heq
    exact .inr ⟨rfl, le_of_bestMatch? h hj (hl.trans hk.symm)⟩

/-- The commit of a look-up is not refused, whatever the rows share. -/
theorem violation?_addition (hnone : d.bestMatch? a = none) :
    (d.addition a).violation? = none :=
  Transaction.violation?_eq_none_iff_noNewSharing.mpr (noNewSharing_added hnone)

/-- The row that a look-up adds is what the same look-up then finds, as no row but the new one meets
the address. -/
theorem bestMatch?_added (hnone : d.bestMatch? a = none) :
    ∃ p, (d.added a).bestMatch? a = some p ∧ p.id = d.lastId.next := by
  have hrow := get?_rows_added d a
  cases hb : (d.added a).bestMatch? a with
  | none =>
      have hnew := hrow d.lastId.next
      rw [if_pos rfl] at hnew
      exact absurd (Address.sharesWith_recordable a) (bestMatch?_eq_none_iff.mp hb _ _ hnew)
  | some p =>
      -- no row but the new one meets the address
      obtain ⟨hp, hsh⟩ := sharesWith_of_bestMatch? hb
      refine ⟨p, rfl, Decidable.byContradiction fun hne => ?_⟩
      rw [hrow, if_neg hne] at hp
      exact bestMatch?_eq_none_iff.mp hnone _ _ hp hsh

/-- A look-up writes its row and the last handle, and nothing else, so no row and no redirect that
is stored can be lost by it. -/
theorem key_of_mem_writes_addition {w : Write} (hw : w ∈ (d.addition a).writes) :
    w.key = rowKey d.lastId.next ∨ w.key = lastIdKey := by
  obtain ⟨i, change, hc, rfl⟩ | ⟨m, hm, -⟩ | ⟨-, rfl⟩ | ⟨i, hi, -⟩ := Transaction.mem_writes.mp hw
  · have hi : i = d.lastId.next := by
      refine Decidable.byContradiction fun hne => ?_
      have hg : (d.addition a).changes.get? i = (∅ : Table PeerId (Option Address)).get? i :=
        Table.get?_insert_of_ne _ _ hne
      rw [hc, Table.get?_empty] at hg
      contradiction
    rw [Transaction.key_changeWrite, hi]
    exact .inl rfl
  · exact absurd hm List.not_mem_nil
  · exact .inr rfl
  · exact absurd hi nofun

end Directory

/-! ## Look-ups of an account -/

variable {σ : Type} [Storage σ] {account account' : Account σ} {a : Address} {id : PeerId}

namespace Account

/-- A look-up that finds a peer answers it and does nothing. -/
theorem lookup_finds {p : Peer} (h : account.directory.bestMatch? a = some p) :
    (lookup a).Returns account p.id account := by
  obtain ⟨q, hq, hr⟩ | ⟨hn, -⟩ := lookup_commits account a
  · cases h.symm.trans hq
    exact hr
  · rw [h] at hn
    contradiction

/-- A look-up that finds none adds one row if the storage takes the batch. -/
theorem lookup_adds (hnone : account.directory.bestMatch? a = none) {s : σ}
    (hw : (Storage.writeBatch (account.directory.addition a).writes).Returns account.storage () s) :
    (lookup a).Returns account account.directory.lastId.next
      (account.publish s (account.directory.added a)
        [.created account.directory.lastId.next]) := by
  obtain ⟨p, hp, -⟩ | ⟨-, ⟨e, t, hf, -⟩ | ⟨d, t, hc, hr⟩⟩ := lookup_commits account a
  · rw [hnone] at hp
    contradiction
  · obtain ⟨hv, -⟩ | hb := Transaction.commit_fails hf
    · exact absurd (Directory.violation?_addition hnone) hv
    · exact absurd hw.1 (hb.not_ok ())
  · obtain ⟨rfl, ht⟩ := commit_addition_returns hc
    obtain ⟨-, rfl⟩ := hw.unique ht
    exact hr

/-- A look-up that finds none and answers has added one row. -/
theorem publish_of_lookup_returns (hnone : account.directory.bestMatch? a = none)
    (h : (lookup a).Returns account id account') :
    id = account.directory.lastId.next ∧ ∃ s, account' = account.publish s
      (account.directory.added a) [.created account.directory.lastId.next] := by
  obtain ⟨p, hp, -⟩ | ⟨-, ⟨e, t, -, hf⟩ | ⟨d, t, hc, hr⟩⟩ := lookup_commits account a
  · rw [hnone] at hp
    contradiction
  · exact absurd h.1 (hf.not_ok id)
  · obtain ⟨rfl, -⟩ := commit_addition_returns hc
    obtain ⟨rfl, rfl⟩ := h.unique hr
    exact ⟨rfl, t, rfl⟩

end Account

/-- **What a look-up records.** On any account, let no row meet an address. Then a look-up that
answers has added a row, and this has exactly one identifier, the strongest of the address, unless
the address is a phone number with a username: that is recorded whole. On a storage that takes every
batch the look-up does answer. -/
theorem lookup_records_strongest_iff (account : Account σ) {a : Address}
    (hnew : ∀ i b, account.directory.rows.get? i = some b → ¬b.sharesWith a = true) :
    (∀ id account', (Account.lookup a).Returns account id account' →
      account'.events = account.events ++ [.created id] ∧
        ∃ b, account'.directory.rows.get? id = some b ∧
          (b.identifiers = [a.strongest] ↔ ¬a.IsNumberWithUsername) ∧
          (a.IsNumberWithUsername → b = a)) ∧
      (Storage.Reliable σ → ∃ id account', (Account.lookup a).Returns account id account') := by
  have hnone := Directory.bestMatch?_eq_none_iff.mpr hnew
  refine ⟨fun id account' h => ?_, fun hw => ?_⟩
  · obtain ⟨rfl, s, rfl⟩ := Account.publish_of_lookup_returns hnone h
    refine ⟨rfl, Account.recordable a, ?_, Address.identifiers_recordable_iff,
      Address.recordable_of_isNumberWithUsername⟩
    exact (Directory.get?_rows_added _ a _).trans (if_pos rfl)
  · obtain ⟨s, hs⟩ := hw account.storage (account.directory.addition a).writes
    exact ⟨_, _, Account.lookup_adds hnone hs⟩

/-- A phone number with a username. -/
def Address.sampleUnproven : Address :=
  ⟨⟨none, none, some .sample, some ⟨"alice.01", by decide⟩⟩, rfl⟩

/-- A phone number and a username that were not verified together are recorded together. -/
theorem lookup_records_unproven_association :
    ∃ account', (Account.lookup .sampleUnproven).Returns (.fresh (⟨∅⟩ : Memory) []) ⟨1⟩ account' ∧
      ∃ b, account'.directory.rows.get? ⟨1⟩ = some b ∧
        b.identifiers = [.number .sample, .username ⟨"alice.01", by decide⟩] := by
  have hnew : ∀ i b, (Account.fresh (⟨∅⟩ : Memory) []).directory.rows.get? i = some b →
      ¬b.sharesWith .sampleUnproven = true := fun i b hb => nomatch hb
  obtain ⟨hall, hreturns⟩ := lookup_records_strongest_iff _ hnew
  obtain ⟨id, account', hr⟩ := hreturns Memory.reliable
  obtain ⟨-, b, hb, -, hwhole⟩ := hall id account' hr
  obtain rfl : id = ⟨1⟩ := Except.ok.inj (hr.1.symm.trans rfl)
  refine ⟨account', hr, b, hb, ?_⟩
  rw [hwhole ⟨rfl, rfl, nofun, nofun⟩]
  rfl

/-! ## Nothing is rewritten -/

/-- What a look-up may make of an account: nothing where a row meets the address, and else one row
more. -/
structure Account.LookedUp (contents : σ → Contents) (account : Account σ) (a : Address)
    (id : PeerId) (account' : Account σ) : Prop where
  redirects : account'.directory.redirects = account.directory.redirects
  self : account'.directory.self = account.directory.self
  mergers : account'.mergers = account.mergers
  /-- Under every other key than those of the row and of the last handle lies what lay there. -/
  content : ∀ key, key ≠ Directory.rowKey id → key ≠ Directory.lastIdKey →
    (contents account'.storage).get? key = (contents account.storage).get? key
  /-- So whatever a store of the account keeps is as before. -/
  stores : ∀ st ∈ Store.all {}, ∀ key, st.Keeps key →
    (contents account'.storage).get? key = (contents account.storage).get? key
  /-- Where a row meets the address, the best match is answered and nothing is done. -/
  found : (∃ i b, account.directory.rows.get? i = some b ∧ b.sharesWith a = true) →
    account' = account ∧ account.directory.BestMatch a id
  /-- Where none does, a row that meets it is added under the handle answered, and this is told. -/
  added : (¬∃ i b, account.directory.rows.get? i = some b ∧ b.sharesWith a = true) →
    account'.events = account.events ++ [.created id] ∧ ∃ b, b.sharesWith a = true ∧
      ∀ i, account'.directory.rows.get? i = if i = id then some b else account.directory.rows.get? i
  /-- The handle of the new row is above all that were ever given out, as long as there are any. -/
  fresh : (¬∃ i b, account.directory.rows.get? i = some b ∧ b.sharesWith a = true) →
    account.directory.lastId.toNat < UInt64.size - 1 →
    ∀ i, account.directory.Mentions i → i.toNat < id.toNat
  /-- Then in particular no row lies under the next handle. -/
  vacant : account.directory.lastId.toNat < UInt64.size - 1 → account.directory.HasNext
  /-- And as long as none does, every row that was there is as before. -/
  rows : account.directory.HasNext →
    ∀ i b, account.directory.rows.get? i = some b → account'.directory.rows.get? i = some b

namespace Account

variable {contents : σ → Contents}

omit [Storage σ] in
/-- An account that found a peer and was left as it is, given that no handle is above its last
one. -/
theorem lookedUp_of_found {p : Peer} (h : account.directory.bestMatch? a = some p)
    (hle : ∀ i, account.directory.Mentions i → i.toNat ≤ account.directory.lastId.toNat) :
    LookedUp contents account a p.id account where
  redirects := rfl
  self := rfl
  mergers := rfl
  content _ _ _ := rfl
  stores _ _ _ _ := rfl
  found _ := ⟨rfl, Directory.bestMatch_of_bestMatch? h⟩
  added hn := absurd ⟨p.id, p.address, Directory.sharesWith_of_bestMatch? h⟩ hn
  fresh hn := absurd ⟨p.id, p.address, Directory.sharesWith_of_bestMatch? h⟩ hn
  vacant hn := Directory.hasNext_of_row_le (fun i hi => hle i (.inl hi)) (Nat.add_lt_of_lt_sub hn)
  rows _ _ _ hb := hb

omit [Storage σ] in
/-- An account that added a row, given that no handle is above its last one. The new handle is then
free, so no row is overwritten, neither in the directory nor in the storage. -/
theorem lookedUp_of_added (hnone : account.directory.bestMatch? a = none) {s : σ}
    (hs : contents s = (contents account.storage).applyAll (account.directory.addition a).writes)
    (hle : ∀ i, account.directory.Mentions i → i.toNat ≤ account.directory.lastId.toNat) :
    LookedUp contents account a account.directory.lastId.next
      (account.publish s (account.directory.added a)
        [.created account.directory.lastId.next]) := by
  have hcontent : ∀ key, key ≠ Directory.rowKey account.directory.lastId.next →
      key ≠ Directory.lastIdKey →
      (contents s).get? key = (contents account.storage).get? key := by
    intro key hrow hlast
    rw [hs]
    refine Contents.get?_applyAll_of_ne _ fun w hw hk => ?_
    obtain he | he := Directory.key_of_mem_writes_addition hw
    · exact hrow (hk.symm.trans he)
    · exact hlast (hk.symm.trans he)
  have hrows := Directory.get?_rows_added account.directory a
  exact {
    redirects := rfl
    self := rfl
    mergers := rfl
    content := hcontent
    stores := by
      intro st hst key hk
      have hno := Store.not_owns_of_keeps hst hk
      refine hcontent key ?_ ?_
      · rintro rfl
        exact hno (Directory.owns_key (.row _))
      · rintro rfl
        exact hno (Directory.owns_key .lastId)
    found := by
      rintro ⟨i, b, hb, hsh⟩
      exact absurd hsh (Directory.bestMatch?_eq_none_iff.mp hnone i b hb)
    added := fun _ => ⟨rfl, _, Address.sharesWith_recordable a, hrows⟩
    fresh := by
      intro _ hn i hi
      rw [PeerId.toNat_next (Nat.add_lt_of_lt_sub hn)]
      exact Nat.lt_succ_of_le (hle i hi)
    vacant := fun hn =>
      Directory.hasNext_of_row_le (fun i hi => hle i (.inl hi)) (Nat.add_lt_of_lt_sub hn)
    rows := by
      intro hnext i b hb
      have hne : i ≠ account.directory.lastId.next := by
        rintro rfl
        rw [hnext] at hb
        contradiction
      exact (hrows i).trans ((if_neg hne).trans hb) }

end Account

/-- **An untrusted look-up never rewrites.** Let an account be read from any content of a storage
that does not fail, with whatever identifiers its rows share. Every address is looked up: an account
that has the peer already is left as it is, and otherwise exactly one row is added to it
(`Account.LookedUp`). The row is added under the handle after the last one, which is new as long as
handles are left; only where they are used up may it be that of a row, which then is overwritten.
Looked up again the address leads to the same peer, and nothing is done. -/
theorem lookup_never_rewrites {contents : σ → Contents} (hs : Storage.Faithful contents)
    {mergers : List (Merger σ)} {s s' : σ} {account : Account σ}
    (hload : (Account.load mergers).Returns s account s') (a : Address) :
    ∃ id account', (Account.lookup a).Returns account id account' ∧
      account.LookedUp contents a id account' ∧
      (Account.lookup a).Returns account' id account' := by
  have hle : ∀ i, account.directory.Mentions i →
      i.toNat ≤ account.directory.lastId.toNat := by
    obtain ⟨d, hd, rfl⟩ := Account.load_returns_cases hload
    exact fun i => Directory.le_lastId_of_load hd
  cases hb : account.directory.bestMatch? a with
  | some p =>
      have hr := Account.lookup_finds hb
      exact ⟨p.id, account, hr, Account.lookedUp_of_found hb hle, hr⟩
  | none =>
      obtain ⟨t, hw, -, ht⟩ := hs.writeBatch (account.directory.addition a).writes account.storage
        trivial
      obtain ⟨p, hp, hid⟩ := Directory.bestMatch?_added hb
      refine ⟨_, _, Account.lookup_adds hb hw, Account.lookedUp_of_added hb ht hle, ?_⟩
      rw [← hid]
      exact Account.lookup_finds hp

/-- Of three rows the first two share a phone-number identity and the last two a number. The number
leads to the lower of its two rows, and an address that none of them meets to a fourth row. -/
theorem linked_rows_are_looked_up :
    ∃ account, (Account.load []).Returns Memory.linked account Memory.linked ∧
      (∃ account', (Account.lookup (.ofNumber .sample)).Returns account ⟨2⟩ account' ∧
        account' = account ∧ account.directory.BestMatch (.ofNumber .sample) ⟨2⟩) ∧
      ∃ account', (Account.lookup (.ofAci (.sample 1))).Returns account ⟨4⟩ account' ∧
        account.LookedUp Memory.contents (.ofAci (.sample 1)) ⟨4⟩ account' ∧
        (Account.lookup (.ofAci (.sample 1))).Returns account' ⟨4⟩ account' := by
  have hload : (Account.load []).Returns Memory.linked ⟨.linked, .linked, [], []⟩ .linked :=
    Memory.load_linked.bind ((Op.returns_state _).bind (Op.returns_pure _ _))
  refine ⟨_, hload, ?_, ?_⟩
  · obtain ⟨id, account', hr, hl, -⟩ :=
      lookup_never_rewrites Memory.faithful hload (.ofNumber .sample)
    obtain ⟨he, hbest⟩ := hl.found ⟨⟨2⟩, _, rfl, by decide⟩
    obtain rfl : id = ⟨2⟩ := Except.ok.inj (hr.1.symm.trans rfl)
    exact ⟨account', hr, he, hbest⟩
  · obtain ⟨id, account', hr, hl, hagain⟩ :=
      lookup_never_rewrites Memory.faithful hload (.ofAci (.sample 1))
    obtain rfl : id = ⟨4⟩ := Except.ok.inj (hr.1.symm.trans rfl)
    exact ⟨account', hr, hl, hagain⟩

end PeerBook
