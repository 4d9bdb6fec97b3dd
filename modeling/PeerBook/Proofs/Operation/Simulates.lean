import PeerBook.Operation

/-!
# PeerBook.Proofs.Operation.Simulates

Operations that go the same way on states of different kinds. One operation
simulates another when from related states it answers the same, logs the same
and leaves related states (`Op.Simulates`). There is one rule for each way in
which operations are composed, so that a program is followed rule by rule.

This is how a resolution on a transaction is compared with one on a plain table,
where the states are not of one type. Since what was logged is part of an
outcome, operations that simulate each other cannot be told apart from outside.
-/

namespace PeerBook

variable {σ τ α β : Type} {R : σ → τ → Prop}

/-- Two outcomes have one answer and one log, and states that are related. -/
structure Outcome.Matches (R : σ → τ → Prop) (o : Outcome σ α) (o' : Outcome τ α) : Prop where
  result : o.result = o'.result
  state : R o.state o'.state
  log : o.log = o'.log

/-- From related states one operation goes as the other. -/
def Op.Simulates (op : Op σ α) (op' : Op τ α) (R : σ → τ → Prop) : Prop :=
  ∀ s t, R s t → (op.run s).Matches R (op'.run t)

/-- Outcomes that match go on so if what follows them does: after an answer that is the same on both
sides, and not at all after a failure. -/
theorem Outcome.Matches.andThen {o : Outcome σ α} {o' : Outcome τ α} {next : α → Op σ β}
    {next' : α → Op τ β} (h : o.Matches R o') (hn : ∀ a, (next a).Simulates (next' a) R) :
    (o.andThen next).Matches R (o'.andThen next') := by
  obtain ⟨r, s, log⟩ := o
  obtain ⟨r', t, log'⟩ := o'
  obtain ⟨rfl, hst, rfl⟩ := h
  cases r with
  | ok a =>
      obtain ⟨hr, hs, hl⟩ := hn a s t hst
      exact ⟨hr, hs, congrArg (log ++ ·) hl⟩
  | error e => exact ⟨rfl, hst, rfl⟩

/-- An outcome that matches, with a state that is a function of the other's. -/
theorem Outcome.Matches.eq {g : σ → τ} {o : Outcome σ α} {o' : Outcome τ α}
    (h : o.Matches (fun s t => t = g s) o') : o' = ⟨o.result, g o.state, o.log⟩ := by
  obtain ⟨r', t, log'⟩ := o'
  obtain ⟨rfl, rfl, rfl⟩ := h
  rfl

namespace Op.Simulates

theorem pure (a : α) : (Pure.pure a : Op σ α).Simulates (Pure.pure a) R :=
  fun _ _ h => ⟨rfl, h, rfl⟩

theorem note (level : Level) (text : String) :
    (Op.note level text).Simulates (Op.note level text) R :=
  fun _ _ h => ⟨rfl, h, rfl⟩

theorem within {υ : Type} (op : Op υ α) (u : υ) :
    (op.within u : Op σ _).Simulates (op.within u) R :=
  fun _ _ h => ⟨rfl, h, rfl⟩

/-- What depends on the states goes the same way if it does so for each two that are related. -/
theorem state_bind {next : σ → Op σ β} {next' : τ → Op τ β}
    (h : ∀ s t, R s t → ((next s).run s).Matches R ((next' t).run t)) :
    (Op.state >>= next).Simulates (Op.state >>= next') R :=
  fun s t hst => ⟨(h s t hst).result, (h s t hst).state, (h s t hst).log⟩

/-- Sequences go the same way if their parts do, the second for every answer of the first. -/
theorem bind {op : Op σ α} {op' : Op τ α} {next : α → Op σ β} {next' : α → Op τ β}
    (h : op.Simulates op' R) (hn : ∀ a, (next a).Simulates (next' a) R) :
    (op >>= next).Simulates (op' >>= next') R :=
  fun s t hst => (h s t hst).andThen hn

end Op.Simulates

end PeerBook
