import PeerBook.Proofs.Redirects.Chains

/-!
# PeerBook.Proofs.Redirects.Destination

Where following redirects leads, in a table of any size with cycles anywhere. A
handle whose chain does not run into a cycle stands for the one end of the chain
(`endsAt_follow_iff`), and a handle whose chain does is left standing somewhere on
the cycle (`onCycle_follow_iff`). The first kind stands for what it stood for when
it is followed again; the second may go round for ever.

The result, `following_ends_where_the_chain_does`, asks nothing of the table: a
stored table may have been written by other hands, and following it has to end
all the same. The directory itself never makes a cycle, which is proved with
the transactions that write redirects.
-/

namespace PeerBook.Redirects

variable {r : Redirects} {i j k : PeerId} {passed : List PeerId}

/-- The chain from a handle runs into a cycle. -/
def RunsIntoCycle (r : Redirects) (i : PeerId) : Prop :=
  ∃ passed j, r.Chain i passed j ∧ r.OnCycle j

/-- A chain that ends does so from wherever it comes through: there is one way on. -/
theorem EndsAt.of_chain (h : r.EndsAt i k) (hc : r.Chain i passed j) : r.EndsAt j k := by
  induction hc with
  | refl => exact h
  | step hj _ ih =>
      obtain ⟨⟨_, hc⟩, hk⟩ := h
      cases hc with
      | refl => exact absurd (hk.symm.trans hj) nofun
      | step hj' hc =>
          cases hj.symm.trans hj'
          exact ih ⟨⟨_, hc⟩, hk⟩

/-- A chain that ends does not run into a cycle. -/
theorem EndsAt.not_runsIntoCycle (h : r.EndsAt i k) : ¬r.RunsIntoCycle i :=
  fun ⟨_, _, hc, hcycle⟩ => not_transGen_self (h.of_chain hc) hcycle

/-- Following walks the chain, so if its answer lies on a cycle the chain runs into that. -/
theorem runsIntoCycle_of_onCycle_follow (h : r.OnCycle (r.follow i)) : r.RunsIntoCycle i := by
  obtain ⟨passed, hc, -⟩ := r.exists_chain_followFor (r.size + 1) i
  exact ⟨passed, _, hc, h⟩

/-- **The answer is an end just if the chain does not run into a cycle.** -/
theorem endsAt_follow_iff : r.EndsAt i (r.follow i) ↔ ¬r.RunsIntoCycle i := by
  refine ⟨EndsAt.not_runsIntoCycle, fun hn => ?_⟩
  exact (r.endsAt_or_onCycle i).resolve_right fun h => hn (runsIntoCycle_of_onCycle_follow h)

/-- **The answer lies on a cycle just if the chain runs into it.** -/
theorem onCycle_follow_iff : r.OnCycle (r.follow i) ↔ r.RunsIntoCycle i := by
  refine ⟨runsIntoCycle_of_onCycle_follow, fun h => ?_⟩
  exact (r.endsAt_or_onCycle i).resolve_left fun hend => hend.not_runsIntoCycle h

/-- **Following redirects ends at the right place.** Whatever the table, a handle is followed for at
most one step more than there are entries, along the redirects. If its chain runs into no cycle, the
answer has no redirect and is the one end of the chain, so that following it again changes nothing;
if it does, the answer lies on the cycle. -/
theorem following_ends_where_the_chain_does (r : Redirects) (i : PeerId) :
    (∃ passed, r.Chain i passed (r.follow i) ∧ passed.length ≤ r.size + 1) ∧
      (¬r.RunsIntoCycle i → r.get? (r.follow i) = none ∧
        (∀ k, r.EndsAt i k ↔ k = r.follow i) ∧ r.follow (r.follow i) = r.follow i) ∧
      (r.RunsIntoCycle i → r.OnCycle (r.follow i)) := by
  refine ⟨?_, fun hn => ?_, onCycle_follow_iff.mpr⟩
  · obtain ⟨passed, hc, hle, -⟩ := r.exists_chain_followFor (r.size + 1) i
    exact ⟨passed, hc, hle⟩
  · have hend := endsAt_follow_iff.mpr hn
    refine ⟨hend.2, fun k => ⟨fun hk => (follow_of_endsAt hk).symm, ?_⟩,
      follow_of_get?_eq_none hend.2⟩
    rintro rfl
    exact hend

/-- A chain from 1 to 3, a cycle of 4, 5 and 6, and a way into it from 7. -/
def tangled : Redirects :=
  ⟨[(⟨1⟩, ⟨2⟩), (⟨2⟩, ⟨3⟩), (⟨4⟩, ⟨5⟩), (⟨5⟩, ⟨6⟩), (⟨6⟩, ⟨4⟩), (⟨7⟩, ⟨5⟩)], by decide⟩

/-- The chain is followed to its end beside the cycle; on the cycle the answer goes on when it is
followed again. -/
theorem chain_beside_cycle_is_followed :
    (¬tangled.RunsIntoCycle ⟨1⟩ ∧ tangled.follow ⟨1⟩ = ⟨3⟩ ∧ tangled.get? ⟨3⟩ = none ∧
      (∀ k, tangled.EndsAt ⟨1⟩ k ↔ k = ⟨3⟩) ∧ tangled.follow ⟨3⟩ = ⟨3⟩) ∧
    tangled.RunsIntoCycle ⟨7⟩ ∧ tangled.OnCycle (tangled.follow ⟨7⟩) ∧
      tangled.follow (tangled.follow ⟨7⟩) ≠ tangled.follow ⟨7⟩ := by
  have hone : ¬tangled.RunsIntoCycle ⟨1⟩ :=
    EndsAt.not_runsIntoCycle (k := ⟨3⟩) ⟨⟨_, .step rfl (.step rfl (.refl _))⟩, rfl⟩
  have hthree : tangled.follow ⟨1⟩ = ⟨3⟩ := by decide
  have hseven : tangled.RunsIntoCycle ⟨7⟩ :=
    ⟨_, ⟨5⟩, .step rfl (.refl _), .tail (.tail (.single rfl) rfl) rfl⟩
  obtain ⟨hend, huniq, hagain⟩ := (following_ends_where_the_chain_does tangled ⟨1⟩).2.1 hone
  rw [hthree] at hend huniq hagain
  exact ⟨⟨hone, hthree, hend, huniq, hagain⟩, hseven,
    (following_ends_where_the_chain_does tangled ⟨7⟩).2.2 hseven, by decide⟩

end PeerBook.Redirects
