import Mathlib.Logic.Relation
import PeerBook.Redirects

/-!
# PeerBook.Proofs.Redirects.Chains

Chains of redirects. A chain names the handles it passes (`Chain`), and a handle
has an end when a chain from it comes to a handle without a redirect (`EndsAt`).

- There is one way on from every handle, so a chain that ends passes no handle
  twice (`Chain.nodup`) and is no longer than the table (`Chain.length_le`);
  `follow` walks all of it (`follow_of_endsAt`).
- A chain that passes a handle twice goes round in a cycle
  (`Chain.onCycle_of_not_nodup`), so what `follow` answers is the end of the
  chain or lies on a cycle (`endsAt_or_onCycle`).
- In a table without cycles every chain ends (`Acyclic.endsAt_follow`), and
  following is determined by its two equations (`Acyclic.eq_follow`).
- Redirects that are added at ends only prolong chains (`EndsAt.insertAll`),
  which is what merges do: they redirect handles that were never absorbed.
-/

namespace PeerBook.Redirects

/-- A chain of redirects from one handle to another, by the handles before the last. -/
inductive Chain (r : Redirects) : PeerId → List PeerId → PeerId → Prop
  | refl (i : PeerId) : Chain r i [] i
  | step {i j k : PeerId} {passed : List PeerId} (hj : r.get? i = some j)
      (rest : Chain r j passed k) : Chain r i (i :: passed) k

/-- The chain from a handle comes to an end. -/
def EndsAt (r : Redirects) (i k : PeerId) : Prop :=
  (∃ passed, r.Chain i passed k) ∧ r.get? k = none

variable {r r' : Redirects} {i j k l : PeerId} {passed passed' : List PeerId}

/-- A handle without a redirect is the end of its own chain. -/
theorem endsAt_self (h : r.get? i = none) : r.EndsAt i i := ⟨⟨[], .refl i⟩, h⟩

/-! ## Chains -/

/-- Chains are put together where one ends and the next begins. -/
theorem Chain.append (h : r.Chain i passed j) (h' : r.Chain j passed' k) :
    r.Chain i (passed ++ passed') k := by
  induction h with
  | refl => exact h'
  | step hj _ ih => exact .step hj (ih h')

/-- Every handle that a chain passes has a redirect. -/
theorem Chain.subset_keys (h : r.Chain i passed k) : passed ⊆ r.keys := by
  induction h with
  | refl => exact List.nil_subset _
  | step hj _ ih => exact List.cons_subset.mpr ⟨Table.mem_keys_iff.mpr ⟨_, hj⟩, ih⟩

/-- A chain that passes no handle twice is no longer than the table: the handles it passes are
different keys. -/
theorem Chain.length_le_of_nodup (h : r.Chain i passed k) (hn : passed.Nodup) :
    passed.length ≤ r.size := by
  have hl := hn.length_le_of_subset h.subset_keys
  rw [Table.keys, List.length_map] at hl
  exact hl

/-! ## Cycles -/

/-- The redirects lead from a handle back to it. -/
def OnCycle (r : Redirects) (i : PeerId) : Prop :=
  Relation.TransGen (fun i j => r.get? i = some j) i i

/-- Every handle that a chain passes is reached from its first by redirects. -/
theorem Chain.reaches (h : r.Chain i passed k) (hj : j ∈ passed) :
    Relation.ReflTransGen (fun i j => r.get? i = some j) i j := by
  induction h with
  | refl => contradiction
  | step hi _ ih =>
      rcases List.mem_cons.mp hj with rfl | hj
      · exact .refl
      · exact .head hi (ih hj)

/-- There is one way on from every handle, so a chain does not leave a cycle: what it ends in is on
the cycle as well. -/
theorem OnCycle.chain (hi : r.OnCycle i) (h : r.Chain i passed k) : r.OnCycle k := by
  induction h with
  | refl => exact hi
  | step hj _ ih =>
      obtain ⟨j', hj', hback⟩ := Relation.TransGen.head'_iff.mp hi
      cases hj.symm.trans hj'
      exact ih (.tail' hback hj)

/-- No cycle goes through a handle whose chain ends. -/
theorem not_transGen_self (h : r.EndsAt i k) :
    ¬Relation.TransGen (fun i j => r.get? i = some j) i i := by
  intro hi
  obtain ⟨⟨passed, hc⟩, hk⟩ := h
  obtain ⟨j, hj, -⟩ := Relation.TransGen.head'_iff.mp (OnCycle.chain hi hc)
  exact absurd (hk.symm.trans hj) nofun

/-- A chain that passes a handle twice is on a cycle from there on, so its last handle is, too. -/
theorem Chain.onCycle_of_not_nodup (h : r.Chain i passed k) (hn : ¬passed.Nodup) :
    r.OnCycle k := by
  induction h with
  | refl => exact absurd List.nodup_nil hn
  | @step i j k passed hj hc ih =>
      by_cases hi : i ∈ passed
      · have hcycle : r.OnCycle i := .head' hj (hc.reaches hi)
        exact hcycle.chain (.step hj hc)
      · exact ih fun hnodup => hn (List.nodup_cons.mpr ⟨hi, hnodup⟩)

/-- A chain that ends passes no handle twice. -/
theorem Chain.nodup (h : r.Chain i passed k) (hk : r.get? k = none) : passed.Nodup :=
  Classical.byContradiction fun hn =>
    not_transGen_self (endsAt_self hk) (h.onCycle_of_not_nodup hn)

/-- A chain that ends is no longer than the table, so the steps of `follow` are enough. -/
theorem Chain.length_le (h : r.Chain i passed k) (hk : r.get? k = none) :
    passed.length ≤ r.size := h.length_le_of_nodup (h.nodup hk)

/-! ## Following -/

/-- With more steps than a chain that ends has redirects, following comes to its end. One step more
is needed, to see that the end has no redirect. -/
theorem followFor_of_chain (h : r.Chain i passed k) (hk : r.get? k = none) {n : Nat}
    (hn : passed.length < n) : r.followFor n i = k := by
  induction h generalizing n with
  | refl =>
      cases n with
      | zero => rfl
      | succ n => rw [followFor, hk]
  | step hj _ ih =>
      cases n with
      | zero => contradiction
      | succ n =>
          rw [followFor, hj]
          exact ih hk (Nat.lt_of_succ_lt_succ hn)

/-- Following walks a chain, and stops early only at its end; otherwise it takes all its steps. So a
walk that came to no end has passed as many handles as it had steps. -/
theorem exists_chain_followFor (r : Redirects) (n : Nat) (i : PeerId) :
    ∃ passed, r.Chain i passed (r.followFor n i) ∧ passed.length ≤ n ∧
      (passed.length < n → r.get? (r.followFor n i) = none) := by
  induction n generalizing i with
  | zero => exact ⟨[], .refl i, Nat.le_refl 0, nofun⟩
  | succ n ih =>
      rw [followFor]
      cases hi : r.get? i with
      | none => exact ⟨[], .refl i, Nat.zero_le _, fun _ => hi⟩
      | some j =>
          obtain ⟨passed, hc, hle, hend⟩ := ih j
          exact ⟨i :: passed, .step hi hc, Nat.succ_le_succ hle,
            fun hlt => hend (Nat.lt_of_succ_lt_succ hlt)⟩

/-- **A handle stands for the end of its chain**, however long the chain is. -/
theorem follow_of_endsAt (h : r.EndsAt i k) : r.follow i = k := by
  obtain ⟨⟨passed, hc⟩, hk⟩ := h
  exact followFor_of_chain hc hk (Nat.lt_succ_of_le (hc.length_le hk))

/-- A redirected handle stands for what the next one does. -/
theorem follow_of_get?_eq_some (hj : r.get? i = some j) (h : r.EndsAt j k) :
    r.follow i = r.follow j := by
  obtain ⟨⟨passed, hc⟩, hk⟩ := h
  rw [follow_of_endsAt ⟨⟨passed, hc⟩, hk⟩, follow_of_endsAt ⟨⟨i :: passed, .step hj hc⟩, hk⟩]

/-- **Following ends at an end or on a cycle**: a walk that came to no end in one step more than
the table has entries has passed a handle twice. -/
theorem endsAt_or_onCycle (r : Redirects) (i : PeerId) :
    r.EndsAt i (r.follow i) ∨ r.OnCycle (r.follow i) := by
  obtain ⟨passed, hc, -, hend⟩ := r.exists_chain_followFor (r.size + 1) i
  by_cases hlt : passed.length < r.size + 1
  · exact .inl ⟨⟨passed, hc⟩, hend hlt⟩
  · exact .inr (hc.onCycle_of_not_nodup fun hnodup =>
      hlt (Nat.lt_succ_of_le (hc.length_le_of_nodup hnodup)))

/-! ## No cycles -/

/-- No handle is redirected to itself, directly or through others. -/
def Acyclic (r : Redirects) : Prop :=
  ∀ i, ¬Relation.TransGen (fun i j => r.get? i = some j) i i

/-- Redirects that all lead to higher handles make no cycle, since no handle is higher than
itself. -/
theorem acyclic_of_ascending (h : ∀ i j, r.get? i = some j → i.value < j.value) : r.Acyclic := by
  intro i hi
  have hlt (j : PeerId) (hj : Relation.TransGen (fun i j => r.get? i = some j) i j) :
      i.value < j.value := by
    induction hj with
    | single hj => exact h _ _ hj
    | tail _ hj ih => exact UInt64.lt_trans ih (h _ _ hj)
  exact UInt64.lt_irrefl _ (hlt i hi)

/-- **Without a cycle every chain ends**, at what its handle stands for. -/
theorem Acyclic.endsAt_follow (ha : r.Acyclic) (i : PeerId) : r.EndsAt i (r.follow i) :=
  (r.endsAt_or_onCycle i).resolve_right (ha _)

/-- Without a cycle no answer has a redirect. -/
theorem Acyclic.get?_follow (ha : r.Acyclic) (i : PeerId) : r.get? (r.follow i) = none :=
  (ha.endsAt_follow i).2

/-- Without a cycle an absorbed handle stands for what its surviving one stands for. -/
theorem Acyclic.follow_of_get?_eq_some (ha : r.Acyclic) (hj : r.get? i = some j) :
    r.follow i = r.follow j := Redirects.follow_of_get?_eq_some hj (ha.endsAt_follow j)

/-- Following is the one way to answer for handles that gives an absorbed handle the answer of its
surviving one and leaves all others as they are. -/
theorem Acyclic.eq_follow (ha : r.Acyclic) {answer : PeerId → PeerId}
    (hstep : ∀ i j, r.get? i = some j → answer i = answer j)
    (hend : ∀ i, r.get? i = none → answer i = i) (i : PeerId) : answer i = r.follow i := by
  have hchain {i k : PeerId} {passed : List PeerId} (hc : r.Chain i passed k) :
      answer i = answer k := by
    induction hc with
    | refl => rfl
    | step hj _ ih => rw [hstep _ _ hj, ih]
  obtain ⟨⟨passed, hc⟩, hk⟩ := ha.endsAt_follow i
  rw [hchain hc, hend _ hk]

/-! ## Adding redirects -/

theorem Chain.mono (hr : ∀ i j, r.get? i = some j → r'.get? i = some j)
    (h : r.Chain i passed k) : r'.Chain i passed k := by
  induction h with
  | refl i => exact .refl i
  | step hj _ ih => exact .step (hr _ _ hj) ih

/-- With more redirects a chain goes on from where it ended, and ends where that handle's chain
does. -/
theorem EndsAt.trans_of_mono (hr : ∀ i j, r.get? i = some j → r'.get? i = some j)
    (h : r.EndsAt i j) (h' : r'.EndsAt j k) : r'.EndsAt i k := by
  obtain ⟨⟨passed, hc⟩, -⟩ := h
  obtain ⟨⟨passed', hc'⟩, hk⟩ := h'
  exact ⟨⟨_, (hc.mono hr).append hc'⟩, hk⟩

/-- Fewer redirects make no cycle. -/
theorem Acyclic.anti (hr : ∀ i j, r.get? i = some j → r'.get? i = some j) (ha : r'.Acyclic) :
    r.Acyclic := fun i hi => ha i (Relation.TransGen.mono hr i i hi)

/-- In a larger table a handle stands for what its old end stands for, so answers that were followed
before can be followed again. -/
theorem Acyclic.follow_follow (hr : ∀ i j, r.get? i = some j → r'.get? i = some j)
    (ha : r'.Acyclic) (i : PeerId) : r'.follow (r.follow i) = r'.follow i :=
  (follow_of_endsAt
    (((ha.anti hr).endsAt_follow i).trans_of_mono hr (ha.endsAt_follow _))).symm

/-- Redirects of some handles to one: a handle among them leads there, and every other one where it
led before. -/
theorem get?_insertAll (r : Redirects) (absorbed : List PeerId) (peer i : PeerId) :
    (r.insertAll (absorbed.map (·, peer))).get? i =
      if i ∈ absorbed then some peer else r.get? i := by
  have hp : ∀ e ∈ absorbed.map (·, peer), e.1 = i → some e.2 = some peer := by simp
  have hm : (absorbed.map (·, peer)).map Prod.fst = absorbed := by
    rw [List.map_map]
    exact List.map_id absorbed
  rw [Table.get?_insertAll r _ hp, hm]

/-- After ends of chains were redirected to another end, a chain ends where it did, or at that
other end if it ended at one of these. -/
theorem EndsAt.insertAll {absorbed : List PeerId} {peer : PeerId} (h : r.EndsAt i k)
    (ha : ∀ a ∈ absorbed, r.get? a = none) (hp : r.get? peer = none) (hpa : peer ∉ absorbed) :
    EndsAt (Table.insertAll r (absorbed.map (·, peer))) i (if k ∈ absorbed then peer else k) := by
  obtain ⟨⟨passed, hc⟩, hk⟩ := h
  have hmono : ∀ i j, r.get? i = some j →
      (r.insertAll (absorbed.map (·, peer))).get? i = some j := by
    intro i j hj
    have hi : i ∉ absorbed := by
      intro hi
      rw [ha i hi] at hj
      contradiction
    rw [get?_insertAll, if_neg hi, hj]
  have hend : (r.insertAll (absorbed.map (·, peer))).get? peer = none := by
    rw [get?_insertAll, if_neg hpa, hp]
  split
  · rename_i hka
    have hnext : (r.insertAll (absorbed.map (·, peer))).get? k = some peer := by
      rw [get?_insertAll, if_pos hka]
    exact ⟨⟨_, (hc.mono hmono).append (.step hnext (.refl peer))⟩, hend⟩
  · rename_i hka
    exact ⟨⟨passed, hc.mono hmono⟩, by rw [get?_insertAll, if_neg hka, hk]⟩

end PeerBook.Redirects
