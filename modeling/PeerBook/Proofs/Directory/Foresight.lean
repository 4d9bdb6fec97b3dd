import PeerBook.Proofs.Directory.Proposal
import PeerBook.Proofs.Redirects.Chains
import PeerBook.Proofs.Samples
import PeerBook.Proofs.Storage.Faithful

/-!
# PeerBook.Proofs.Directory.Foresight

Whether a transaction foresees what a handle will stand for. After the commit a
handle is followed to the end of its chain; the transaction takes the end of
the committed chain and then goes over its own redirects once, in the order in
which they were recorded (`Redirects.pass`).

* **A handle without a redirect in the table to come** is left as it is, since
  what was ever redirected stays so (`Redirects.pass_of_get?_recording`). So the
  transaction is right about all handles exactly if it gives an absorbed handle
  the answer of the handle that it was last absorbed into.

* **Where every handle is absorbed once**, each step of the pass is a redirect of
  the table to come, so the pass stays on the chain (`Redirects.follow_pass`). It
  can stop short: at a handle whose redirect was recorded earlier or was there
  before. So the transaction is right about all handles exactly if no merge was
  recorded into a handle that was redirected by then
  (`Redirects.forall_pass_eq_follow_iff`).

A handle that is absorbed again takes its first way on in the pass and its last
one in the table. Whether the two meet depends on all that is recorded after
them, so there no condition on the single redirects decides it.

Both conditions stand in `transaction_foresees_iff`.
-/

namespace PeerBook

namespace Redirects

/-- Goes over recorded redirects once, the oldest first. -/
def pass (merged : List (PeerId × PeerId)) (i : PeerId) : PeerId :=
  merged.foldl (fun i (absorbed, surviving) => if absorbed = i then surviving else i) i

/-- The table with recorded redirects made. -/
def recording (r : Redirects) (merged : List (PeerId × PeerId)) : Redirects :=
  Table.insertAll r merged

/-- One side of every recorded redirect, the absorbed or the surviving handle, is not redirected
when it is recorded. -/
def Unredirected (side : PeerId × PeerId → PeerId) (r : Redirects) :
    List (PeerId × PeerId) → Prop
  | [] => True
  | m :: merged =>
    r.get? (side m) = none ∧ Unredirected side (Table.insert r m.1 m.2) merged

instance (side : PeerId × PeerId → PeerId) (r : Redirects) (merged : List (PeerId × PeerId)) :
    Decidable (r.Unredirected side merged) :=
  match merged with
  | [] => .isTrue trivial
  | m :: merged =>
    have := instDecidableUnredirected side (Table.insert r m.1 m.2) merged
    inferInstanceAs (Decidable (_ ∧ _))

variable {r : Redirects} {i j : PeerId} {merged : List (PeerId × PeerId)}

theorem pass_cons (m : PeerId × PeerId) (merged : List (PeerId × PeerId)) (i : PeerId) :
    pass (m :: merged) i = pass merged (if m.1 = i then m.2 else i) := rfl

theorem recording_cons (r : Redirects) (m : PeerId × PeerId) (merged : List (PeerId × PeerId)) :
    r.recording (m :: merged) = recording (Table.insert r m.1 m.2) merged := rfl

/-! ## Recorded redirects -/

/-- What is redirected stays so, to this or that handle. -/
theorem get?_recording_ne_none (hi : r.get? i ≠ none) (merged : List (PeerId × PeerId)) :
    (r.recording merged).get? i ≠ none := by
  induction merged generalizing r with
  | nil => exact hi
  | cons m merged ih =>
      refine ih ?_
      by_cases hm : i = m.1
      · rw [hm, Table.get?_insert_self]
        exact nofun
      · rw [Table.get?_insert_of_ne r _ hm]
        exact hi

/-- The pass leaves a handle that has no redirect in the end: none of the recorded ones is about
it. -/
theorem pass_of_get?_recording (hi : (r.recording merged).get? i = none) : pass merged i = i := by
  induction merged generalizing r with
  | nil => rfl
  | cons m merged ih =>
      have hne : m.1 ≠ i := by
        rintro rfl
        refine get?_recording_ne_none (r := Table.insert r m.1 m.2) ?_ merged hi
        rw [Table.get?_insert_self]
        exact nofun
      rw [pass_cons, if_neg hne]
      exact ih hi

/-! ## Handles absorbed once -/

/-- Redirects of handles that have none leave the others, so what was redirected when the
transaction began is so in the end. -/
theorem get?_recording_of_unredirected (hf : r.Unredirected Prod.fst merged)
    (hj : r.get? i = some j) : (r.recording merged).get? i = some j := by
  induction merged generalizing r with
  | nil => exact hj
  | cons m merged ih =>
      obtain ⟨hm, hf⟩ := hf
      refine ih hf ?_
      have hi : i ≠ m.1 := by
        rintro rfl
        rw [hm] at hj
        contradiction
      rw [Table.get?_insert_of_ne r _ hi, hj]

/-- The first recorded redirect is in the table to come. -/
theorem get?_recording_cons_self {m : PeerId × PeerId}
    (hf : r.Unredirected Prod.fst (m :: merged)) :
    (r.recording (m :: merged)).get? m.1 = some m.2 :=
  get?_recording_of_unredirected (r := Table.insert r m.1 m.2) hf.2
    (Table.get?_insert_self r _ _)

/-- The pass does not touch a handle that was redirected before, since no recorded redirect is about
it. -/
theorem pass_of_redirected (hf : r.Unredirected Prod.fst merged) (hi : r.get? i ≠ none) :
    pass merged i = i := by
  induction merged generalizing r with
  | nil => rfl
  | cons m merged ih =>
      obtain ⟨hm, hf⟩ := hf
      have hne : m.1 ≠ i := by
        rintro rfl
        exact hi hm
      rw [pass_cons, if_neg hne]
      refine ih hf ?_
      rw [Table.get?_insert_of_ne r _ hne.symm]
      exact hi

/-- The pass stays on the chain of the table to come: each step of it is a redirect of that table,
so it may stop short of the end but not leave the chain. -/
theorem follow_pass (hf : r.Unredirected Prod.fst merged) (ha : (r.recording merged).Acyclic)
    (i : PeerId) : (r.recording merged).follow (pass merged i) = (r.recording merged).follow i := by
  induction merged generalizing r i with
  | nil => rfl
  | cons m merged ih =>
      have hm := get?_recording_cons_self hf
      rw [pass_cons, recording_cons, ih hf.2 ha]
      split
      · rename_i hi
        subst hi
        exact (ha.follow_of_get?_eq_some hm).symm
      · rfl

/-- The pass gets to the end of the chain unless it stops at a handle that is redirected. -/
theorem pass_eq_follow_iff (hf : r.Unredirected Prod.fst merged)
    (ha : (r.recording merged).Acyclic) (i : PeerId) :
    pass merged i = (r.recording merged).follow i ↔
      (r.recording merged).get? (pass merged i) = none := by
  constructor
  · intro h
    rw [h]
    exact ha.get?_follow i
  · intro h
    rw [← follow_pass hf ha, follow_of_get?_eq_none h]

/-- **The pass gets to the end of every chain exactly if each redirect was recorded to a handle
that was not redirected by then.** -/
theorem forall_pass_eq_follow_iff (hf : r.Unredirected Prod.fst merged)
    (ha : (r.recording merged).Acyclic) :
    (∀ i, r.get? i = none → pass merged i = (r.recording merged).follow i) ↔
      r.Unredirected Prod.snd merged := by
  induction merged generalizing r with
  | nil => exact ⟨fun _ => trivial, fun _ i hi => (follow_of_get?_eq_none hi).symm⟩
  | cons m merged ih =>
      obtain ⟨absorbed, surviving⟩ := m
      have hm := get?_recording_cons_self hf
      have hnext := ha.follow_of_get?_eq_some hm
      have ih := ih hf.2 ha
      constructor
      · intro h
        refine ⟨?_, ih.mp fun i hi => ?_⟩
        · cases hs : r.get? surviving with
          | none => rfl
          | some next =>
              -- the pass takes the absorbed handle to the surviving one and stops there
              have hne : surviving ≠ absorbed := by
                rintro rfl
                rw [hf.1] at hs
                contradiction
              have hs' : (Table.insert r absorbed surviving).get? surviving ≠ none := by
                rw [Table.get?_insert_of_ne r _ hne, hs]
                exact nofun
              have hpass := h absorbed hf.1
              rw [pass_cons, if_pos rfl, pass_of_redirected hf.2 hs'] at hpass
              have hend := ha.get?_follow absorbed
              rw [← hpass, get?_recording_of_unredirected hf hs] at hend
              contradiction
        · have hne : i ≠ absorbed := by
            rintro rfl
            rw [Table.get?_insert_self] at hi
            contradiction
          rw [Table.get?_insert_of_ne r _ hne] at hi
          have hi := h i hi
          rwa [pass_cons, if_neg hne.symm] at hi
      · rintro ⟨hs, hu⟩ i hi
        have h := ih.mpr hu
        rw [pass_cons]
        split
        · rename_i hia
          obtain rfl : absorbed = i := hia
          have hne : surviving ≠ absorbed := by
            rintro rfl
            exact ha _ (.single hm)
          rw [hnext]
          refine h surviving ?_
          rw [Table.get?_insert_of_ne r _ hne]
          exact hs
        · rename_i hia
          refine h i ?_
          rw [Table.get?_insert_of_ne r _ (Ne.symm hia)]
          exact hi

end Redirects

namespace Transaction

/-- What a transaction answers for a handle: the end of its committed chain, after the pass. -/
theorem follow_eq_pass (tx : Transaction) (i : PeerId) :
    tx.follow i = Redirects.pass tx.merged (tx.base.redirects.follow i) := rfl

/-- After a commit the redirects are those before and the recorded ones. -/
theorem redirects_of_commit_returns {σ : Type} [Storage σ] {tx : Transaction} {s s' : σ}
    {d : Directory} (h : tx.commit.Returns s d s') :
    d.redirects = tx.base.redirects.recording tx.merged := by
  obtain ⟨hc, rfl, -⟩ | ⟨rfl, -⟩ := commit_returns h
  · rw [(hasChanges_eq_false_iff.mp hc).2.1]
    rfl
  · rfl

/-- A handle without a redirect afterwards stands for itself in the transaction too. -/
theorem follow_of_get?_eq_none {tx : Transaction} {i : PeerId}
    (hi : (tx.base.redirects.recording tx.merged).get? i = none) : tx.follow i = i := by
  have hbase : tx.base.redirects.get? i = none :=
    Decidable.byContradiction fun hne => Redirects.get?_recording_ne_none hne tx.merged hi
  rw [follow_eq_pass, Redirects.follow_of_get?_eq_none hbase, Redirects.pass_of_get?_recording hi]

end Transaction

/-- **When a transaction foresees what handles will stand for.** Take a commit that succeeds and
leaves no cycle. The transaction is right about all handles exactly if it answers the same for both
sides of every redirect that there is afterwards. Where every handle was absorbed once, what the
transaction answers for a handle lies on its chain, and is what the directory answers exactly if no
redirect leads on from it; and the transaction is right about all handles exactly if no merge was
recorded into a handle that was redirected by then. -/
theorem transaction_foresees_iff {σ : Type} [Storage σ] {tx : Transaction} {s s' : σ}
    {d : Directory} (h : tx.commit.Returns s d s') (hd : d.redirects.Acyclic) :
    ((∀ i, tx.follow i = d.follow i) ↔
      ∀ absorbed surviving, d.redirects.get? absorbed = some surviving →
        tx.follow absorbed = tx.follow surviving) ∧
    (tx.base.redirects.Unredirected Prod.fst tx.merged →
      (∀ i, d.follow (tx.follow i) = d.follow i ∧
        (tx.follow i = d.follow i ↔ d.redirects.get? (tx.follow i) = none)) ∧
      ((∀ i, tx.follow i = d.follow i) ↔
        tx.base.redirects.Unredirected Prod.snd tx.merged)) := by
  have hr := Transaction.redirects_of_commit_returns h
  have ha : (tx.base.redirects.recording tx.merged).Acyclic := hr ▸ hd
  refine ⟨⟨fun hall i j hj => ?_, fun hstep => hd.eq_follow hstep fun i hi => ?_⟩, fun hf => ?_⟩
  · rw [hall, hall]
    exact hd.follow_of_get?_eq_some hj
  · exact Transaction.follow_of_get?_eq_none (hr ▸ hi)
  have hmono : ∀ i j, tx.base.redirects.get? i = some j →
      (tx.base.redirects.recording tx.merged).get? i = some j :=
    fun i j => Redirects.get?_recording_of_unredirected hf
  have hfollow (i : PeerId) : d.follow i =
      (tx.base.redirects.recording tx.merged).follow (tx.base.redirects.follow i) := by
    rw [ha.follow_follow hmono, ← hr]
    rfl
  refine ⟨fun i => ⟨?_, ?_⟩, ?_⟩
  · calc
      d.follow (tx.follow i)
        = (tx.base.redirects.recording tx.merged).follow (tx.follow i) := by rw [← hr]; rfl
      _ = d.follow i := by rw [hfollow, Transaction.follow_eq_pass, Redirects.follow_pass hf ha]
  · rw [hfollow, hr]
    exact Redirects.pass_eq_follow_iff hf ha (tx.base.redirects.follow i)
  · rw [← Redirects.forall_pass_eq_follow_iff hf ha]
    constructor
    · intro hall i hi
      have hi' := hall i
      rwa [hfollow, Transaction.follow_eq_pass, Redirects.follow_of_get?_eq_none hi] at hi'
    · intro hall i
      rw [hfollow]
      exact hall _ ((ha.anti hmono).get?_follow i)

/-- The second of three peers is merged into the third, and then the first into the second: the
transaction takes the first for the second, the directory afterwards takes it for the third. -/
theorem late_merge_is_not_foreseen :
    let d : Directory := ⟨Table.ofList [(⟨1⟩, .ofNumber .sample), (⟨2⟩, .ofPni (.sample 0)),
      (⟨3⟩, .sampleProof)], ∅, ⟨3⟩, none⟩
    let tx := (((d.begin.change ⟨2⟩ none).recordMerged ⟨2⟩ ⟨3⟩).change ⟨1⟩ none).recordMerged
      ⟨1⟩ ⟨2⟩
    (∃ s, tx.commit.Returns (⟨∅⟩ : Memory) tx.published s ∧ tx.published.redirects.Acyclic ∧
      tx.base.redirects.Unredirected Prod.fst tx.merged) ∧
    tx.follow ⟨1⟩ = ⟨2⟩ ∧ tx.published.follow ⟨1⟩ = ⟨3⟩ ∧
      ¬∀ i, tx.follow i = tx.published.follow i := by
  intro d tx
  have hv : tx.hasChanges = true ∧ tx.violation? = none := by decide +kernel
  have hc : tx.commit.Returns (⟨∅⟩ : Memory) tx.published (tx.commit.run (⟨∅⟩ : Memory)).state := by
    refine ⟨?_, rfl⟩
    have hr := (tx.commit_healthy Memory.faithful.writeBatch (s := ⟨∅⟩) trivial).1
    rw [hr, Transaction.verdict, hv.1, hv.2]
    rfl
  have ha : tx.published.redirects.Acyclic := by
    refine Redirects.acyclic_of_ascending fun i j hj => ?_
    have hall : ∀ e ∈ tx.published.redirects.entries, e.1.value < e.2.value := by decide +kernel
    exact hall _ (Table.get?_eq_some_iff.mp hj)
  have hf : tx.base.redirects.Unredirected Prod.fst tx.merged := by decide +kernel
  have hn : ¬tx.base.redirects.Unredirected Prod.snd tx.merged := by decide +kernel
  exact ⟨⟨_, hc, ha, hf⟩, by decide +kernel, by decide +kernel,
    fun hall => hn (((transaction_foresees_iff hc ha).2 hf).2.mp hall)⟩

end PeerBook
