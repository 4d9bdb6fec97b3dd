import PeerBook.Proofs.Stores.Clearing

/-!
# PeerBook.Proofs.Stores.Following

The stores of an account side by side. Each has keys of its own, so what one
admits leaves the others well written (`Store.AllWritten.applyAll`). On a
storage that never fails they follow a merge one after another without a
failure, and then none of them has anything of the absorbed peer
(`mergeAll_brings`).

Each store has a set of peers of its own here, those of which it may have
anything. For most purposes these are the peers with a row; where a store was
asked for a merge by itself it may have something of others as well.
-/

namespace PeerBook

namespace Store

/-- All stores of an account are well written; of each the peers are of a kind of its own. -/
def AllWritten (live : Store → PeerId → Prop) (c : Contents) : Prop :=
  ∀ st ∈ all {}, st.Written (live st) c

variable {live : Store → PeerId → Prop} {c : Contents} {ws : List Write} {st : Store}
  {surviving absorbed : PeerId}

namespace AllWritten

theorem mono {live' : Store → PeerId → Prop} (h : AllWritten live c)
    (hl : ∀ st peer, live st peer → live' st peer) : AllWritten live' c :=
  fun st hst => (h st hst).mono fun _ _ peer _ _ => hl st peer

/-- **What one store admits leaves all of them well written**, since the others keep other keys. -/
theorem applyAll (h : AllWritten live c) (hst : st ∈ all {})
    (hw : ∀ w ∈ ws, st.Admits (live st) w) : AllWritten live (c.applyAll ws) := by
  intro st' hst'
  by_cases he : st = st'
  · subst he
    exact (h st hst).applyAll hw
  · exact (h st' hst').of_not_keeps fun w hm => not_keeps_of_ne hst hst' he (hw w hm).keeps

/-- So do writes of the directory, whose keys no store keeps. -/
theorem of_owns (h : AllWritten live c) (hw : ∀ w ∈ ws, Directory.Owns w.key) :
    AllWritten live (c.applyAll ws) :=
  fun st hst => (h st hst).of_not_keeps fun w hm hk => not_owns_of_keeps hst hk (hw w hm)

end AllWritten

/-! ## One store follows a merge -/

variable {σ : Type} [Storage σ] {contents : σ → Contents}

/-- **A well-written store follows a merge** on a storage that never fails: it puts records of the
survivor, and nothing of the absorbed peer is left. -/
theorem Written.merge_brings {P : PeerId → Prop} (hs : Storage.Faithful contents)
    (h : st.Written P c) (surviving absorbed : PeerId) :
    (st.merge surviving absorbed : Op σ Unit).Brings contents c fun _ c' =>
      (∃ ws, c' = c.applyAll ws ∧ ∀ w ∈ ws, st.Admits (· = surviving) w) ∧
        (surviving ≠ absorbed → ∀ key, st.Holds absorbed key → c'.get? key = none) := by
  refine (Op.Brings.of_submits hs (merge_submits hs.legible st surviving absorbed) ?_).mono ?_
  · rintro e ⟨keys, hk, he⟩
    obtain ⟨ws, hb⟩ := h.batch_ok hk surviving
    rw [hb] at he
    contradiction
  · rintro _ _ ⟨ws, ⟨keys, hk, hb⟩, rfl⟩
    refine ⟨⟨ws, rfl, h.batch_admits hk hb.symm⟩, fun hne key hh => ?_⟩
    refine Classical.byContradiction fun hv => ?_
    obtain ⟨hv, ho⟩ := (get?_batch_ne_none_iff hne hk hb.symm hh).mp hv
    exact h.not_overlooks hh hv ho

end Store

/-! ## All stores follow it -/

variable {σ : Type}

/-- A merger that succeeds answers no failure. -/
theorem Merger.follow_of_returns {surviving absorbed : PeerId} {m : Merger σ} {s s' : σ}
    (h : (m.merge surviving absorbed).Returns s () s') :
    (m.follow surviving absorbed).Returns s none s' := by
  have ha : (m.merge surviving absorbed).attempt.Returns s (.ok ()) s' :=
    ⟨congrArg Except.ok h.1, h.2⟩
  exact ha.bind (Op.returns_pure _ _)

variable [Storage σ] {contents : σ → Contents} {c : Contents} {surviving absorbed : PeerId}

/-- **The stores follow a merge without a failure**, and leave nothing of the absorbed peer, by
induction on their list: the first one is cleared, and the others write elsewhere. -/
theorem mergeAll_brings (hs : Storage.Faithful contents) (hne : surviving ≠ absorbed)
    {sts : List Store} (hsts : ∀ st ∈ sts, st ∈ Store.all {}) {live : Store → PeerId → Prop}
    (hlive : ∀ st, live st surviving) (h : Store.AllWritten live c) :
    (mergeAll (sts.map Store.merger) surviving absorbed : Op σ _).Brings contents c
      fun failures c' => failures = [] ∧
        Store.AllWritten (fun st p => live st p ∧ (st ∈ sts → p ≠ absorbed)) c' := by
  unfold mergeAll
  induction sts generalizing live c with
  | nil => exact .pure ⟨rfl, h.mono fun st p hp => ⟨hp, nofun⟩⟩
  | cons st sts ih =>
      rw [List.forall_mem_cons] at hsts
      intro s hc
      obtain ⟨⟨⟩, s₁, hr, ⟨ws, hws, hadmits⟩, hclear⟩ :=
        (h st hsts.1).merge_brings hs surviving absorbed s hc
      -- the first store has nothing of the absorbed peer any more, the others are as they were
      have h₁ : Store.AllWritten (fun st' p => live st' p ∧ (st' = st → p ≠ absorbed))
          (contents s₁) := by
        intro st' hst'
        have hw : st'.Written (live st') (contents s₁) := by
          rw [hws]
          refine h.applyAll hsts.1 (fun w hm => ?_) st' hst'
          exact (hadmits w hm).mono fun _ hp => hp ▸ hlive st
        refine hw.mono fun key value p hv hh hp => ⟨hp, ?_⟩
        rintro rfl rfl
        rw [hclear hne key hh] at hv
        contradiction
      obtain ⟨failures, s₂, hr₂, rfl, h₂⟩ :=
        ih hsts.2 (fun st' => ⟨hlive st', fun _ => hne⟩) h₁ s₁ rfl
      refine ⟨_, s₂, (Merger.follow_of_returns hr).bind (hr₂.bind (Op.returns_pure _ _)), rfl,
        h₂.mono ?_⟩
      rintro st' p ⟨⟨hp, hfirst⟩, hrest⟩
      exact ⟨hp, fun hm => (List.mem_cons.mp hm).elim hfirst hrest⟩

end PeerBook
