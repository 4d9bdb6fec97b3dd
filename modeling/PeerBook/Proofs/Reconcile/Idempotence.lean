import PeerBook.Proofs.Directory.Overlay
import PeerBook.Proofs.Reconcile.Recorded
import PeerBook.Proofs.Samples

/-!
# PeerBook.Proofs.Reconcile.Idempotence

A trusted resolution made again changes nothing. The first one leaves every
identifier of its request on one row alone, whatever rows shared them before
(`carries_settled_iff`); so whatever part of the request comes after it meets
this row and no other (`found_settled_of_covers`), and is answered without
touching the table (`reconcile_settles`).

A resolution may add a row, and the next one has to find it. That a table does
so is a law of its own (`GrowingAddressTable`): what is added is found at once,
also when no handle is left for another row.
-/

namespace PeerBook

open LawfulAddressTable

/-! ## Tables that find what is added -/

/-- The laws of a lawful table that finds a row as soon as it is added. -/
class GrowingAddressTable (τ : Type) extends LawfulAddressTable τ where
  finds_insert {t : τ} (a : Address) : Sound t → Finds (insert t a)

open GrowingAddressTable

namespace Rows

instance : GrowingAddressTable Rows where
  finds_insert a h := ⟨mem_meeting (nodup_add h a), nodup_meeting (nodup_add h a)⟩

end Rows

namespace Transaction

instance : GrowingAddressTable Transaction where
  finds_insert {tx} a _ :=
    ⟨Directory.mem_meeting_peersOf, Directory.nodup_meeting_peersOf (tx.insert a).rows⟩

end Transaction

instance {τ : Type} [GrowingAddressTable τ] : GrowingAddressTable (Recorded τ) where
  finds_insert {r} a h := by
    obtain ⟨hmem, hnodup⟩ : Finds (insert r.current a) := finds_insert a h
    exact ⟨hmem, hnodup⟩

/-! ## After the first resolution -/

section

variable {τ : Type} [LawfulAddressTable τ] {t : τ} {request : Address}

/-- **Afterwards the surviving row alone carries what the request does**, whatever rows shared it
before. -/
theorem carries_settled_iff (ht : Sound t) {i : PeerId} {x : Identifier}
    (hx : x ∈ request.identifiers) :
    Carries (row (settled request t).2) i x ↔ i = (settled request t).1.peer := by
  constructor
  · intro h
    by_cases hi : i = (settled request t).1.peer
    · exact hi
    · exact absurd hx (carries_settled_of_ne ht hi h).2
  · rintro rfl
    exact carries_settled_of_mem ht hx

end

variable {τ : Type} [GrowingAddressTable τ] {t : τ} {request part : Address}

/-- Afterwards the table finds what its rows say, also where the resolution took the last handle.
The table need not be sound any more then, which is why this is a law of its own. -/
theorem finds_settled (request : Address) (ht : Sound t) : Finds (settled request t).2 := by
  have hadm := admits_losses request ht
  have hs := sound_changeAll ht hadm
  obtain ⟨p, -, -, he⟩ | he := settled_cases request t
  · rw [he]
    exact finds_of_sound ht
  rw [he]
  unfold Plan.applyTo
  cases hp : Plan.target? request (found t request) with
  | none =>
      rw [Plan.target_of, hp]
      exact finds_insert _ hs
  | some p =>
      rw [Plan.target_of, hp]
      dsimp only
      split
      · exact finds_of_sound hs
      · refine finds_of_sound (sound_change _ hs ?_)
        rw [row_losses_target ht hp]
        exact nofun

/-- A part of the request finds the surviving row then, which carries all of it, and no other. -/
theorem found_settled_of_covers (ht : Sound t) (hp : request.covers part = true) :
    ∃ a, found (settled request t).2 part = [⟨(settled request t).1.peer, a⟩] ∧
      a.covers part = true := by
  have hpart := Address.covers_iff.mp hp
  obtain ⟨a, ha, hcovers, -⟩ := row_settled_survivor request ht
  have hap : a.covers part = true := Address.covers_trans hcovers hp
  refine ⟨a, (finds_settled request ht).eq_singleton ha (Address.sharesWith_of_covers hap) ?_, hap⟩
  intro j b hb hsh
  obtain ⟨x, hxb, hxp⟩ := Address.sharesWith_iff.mp hsh
  exact (carries_settled_iff ht (hpart x hxp)).mp ⟨b, hb, hxb⟩

/-! ## The second one -/

/-- Where one row alone is found, and carries the whole request, there is nothing to do: the table
is asked once and not changed. -/
theorem run_reconcile_of_found {τ : Type} [LawfulAddressTable τ] {t : τ} {request : Address}
    {p : Peer} (hf : found t request = [p]) (hc : p.address.covers request = true) :
    (reconcile request).run t = ⟨.ok ⟨p.id, [], [], false, false⟩, t, []⟩ := by
  unfold reconcile
  rw [Op.run_bind, run_find, hf]
  dsimp only [Outcome.andThen]
  rw [if_pos hc]
  rfl

/-- **A resolution settles its request and every part of it**: resolving any part again answers the
same peer, reports nothing absorbed, stripped, created or changed, and adds, replaces and removes
nothing. -/
theorem reconcile_settles {r : Recorded τ} (ht : Sound r)
    (hp : ∀ x ∈ part.identifiers, x ∈ request.identifiers) :
    ∃ o r', (reconcile request).Returns r o r' ∧
      (reconcile part).run r' = ⟨.ok ⟨o.peer, [], [], false, false⟩, r', []⟩ := by
  obtain ⟨a, hf, ha⟩ := found_settled_of_covers ht (Address.covers_iff.mpr hp)
  exact ⟨_, _, reconcile_returns request ht, run_reconcile_of_found hf ha⟩

/-- An account, and a phone-number identity on two rows. -/
def Rows.repeated : Rows :=
  ⟨[⟨⟨1⟩, .ofAci (.sample 0)⟩, ⟨⟨2⟩, .ofPni (.sample 0)⟩, ⟨⟨3⟩, .ofPni (.sample 0)⟩], ⟨4⟩⟩

/-- A proof absorbs both rows of the phone-number identity; asked for that identity again, the
table does nothing. -/
theorem repeated_rows_settle :
    ∃ o r', (reconcile .sampleProof).Returns (⟨Rows.repeated, []⟩ : Recorded Rows) o r' ∧
      o = ⟨⟨1⟩, [⟨2⟩, ⟨3⟩], [], false, true⟩ ∧ r'.states.length = 3 ∧
      (reconcile (.ofPni (.sample 0))).run r' =
        ⟨.ok ⟨⟨1⟩, [], [], false, false⟩, r', []⟩ := by
  let r : Recorded Rows := ⟨Rows.repeated, []⟩
  have hs : LawfulAddressTable.Sound r := ⟨by decide, by decide⟩
  have hp : ∀ x ∈ (Address.ofPni (.sample 0)).identifiers, x ∈ Address.sampleProof.identifiers := by
    decide
  obtain ⟨o, r', hr, hagain⟩ := reconcile_settles hs hp
  have ho : ((reconcile .sampleProof).run r).result.toOption =
      some ⟨⟨1⟩, [⟨2⟩, ⟨3⟩], [], false, true⟩ := by decide +kernel
  have hlength : ((reconcile .sampleProof).run r).state.states.length = 3 := by decide +kernel
  rw [hr.1] at ho
  rw [hr.2] at hlength
  obtain rfl := Option.some.inj ho
  exact ⟨_, r', hr, rfl, hlength, hagain⟩

end PeerBook
