import PeerBook.Operation

/-!
# PeerBook.Proofs.Operation

How an operation ends, whatever it logs: it answers a value and leaves a state
(`Op.Returns`), or it fails with an error and leaves a state (`Op.Fails`). Every
run ends in one of the two ways (`Op.returns_or_fails`), and both go through
composed operations step by step.

- `Op.Returns.bind`, `Op.Returns.bind_fails` and `Op.Fails.bind` build the end of
  a sequence from the ends of its parts; `Op.Returns.of_bind` takes the end of a
  sequence apart again.
- `Op.Moves` is for what holds of the state however the operation ends: one
  relation between the state found and the state left, built part by part.

Proofs about programs of the library go through these rules and do not open the
outcome of a run. The first section has the same two facts for values of
`Except`, which look-ups and decoders answer.
-/

namespace PeerBook

/-! ## Values that came through -/

section

variable {ε α β : Type} {r : Except ε α} {b : β}

/-- A value that was worked on came from one that there was. -/
theorem map_eq_ok_iff {f : α → β} : r.map f = .ok b ↔ ∃ a, r = .ok a ∧ f a = b := by
  cases r <;> simp [Except.map]

/-- So did one that was worked on by a step that may fail itself. -/
theorem bind_eq_ok_iff {f : α → Except ε β} : r >>= f = .ok b ↔ ∃ a, r = .ok a ∧ f a = .ok b := by
  cases r <;> simp [bind, Except.bind]

end

/-! ## How operations end -/

namespace Op

variable {σ τ α β : Type}

/-- An operation answers a value and leaves a state. -/
def Returns (op : Op σ α) (s : σ) (a : α) (s' : σ) : Prop :=
  (op.run s).result = .ok a ∧ (op.run s).state = s'

/-- An operation fails with an error and leaves a state. -/
def Fails (op : Op σ α) (s : σ) (e : Error) (s' : σ) : Prop :=
  (op.run s).result = .error e ∧ (op.run s).state = s'

/-- An operation answers or fails; in both cases there is the state that it leaves. -/
theorem returns_or_fails (op : Op σ α) (s : σ) :
    (∃ a s', op.Returns s a s') ∨ ∃ e s', op.Fails s e s' := by
  cases h : (op.run s).result with
  | ok a => exact .inl ⟨a, _, h, rfl⟩
  | error e => exact .inr ⟨e, _, h, rfl⟩

/-- An operation answers one value and leaves one state: a run is a function of the state it
finds. -/
theorem Returns.unique {op : Op σ α} {s s₁ s₂ : σ} {a b : α} (h : op.Returns s a s₁)
    (h' : op.Returns s b s₂) : a = b ∧ s₁ = s₂ := by
  have hab := h.1.symm.trans h'.1
  exact ⟨Except.ok.inj hab, h.2.symm.trans h'.2⟩

/-- An operation fails with one error and leaves one state. -/
theorem Fails.unique {op : Op σ α} {s s₁ s₂ : σ} {e e' : Error} (h : op.Fails s e s₁)
    (h' : op.Fails s e' s₂) : e = e' ∧ s₁ = s₂ := by
  have he := h.1.symm.trans h'.1
  exact ⟨Except.error.inj he, h.2.symm.trans h'.2⟩

/-- An operation that fails answers nothing. -/
theorem Fails.not_ok {op : Op σ α} {s s' : σ} {e : Error} (h : op.Fails s e s') (a : α) :
    (op.run s).result ≠ .ok a := by
  rw [h.1]
  exact nofun

/-! ## Single operations -/

theorem returns_pure (a : α) (s : σ) : (pure a : Op σ α).Returns s a s := ⟨rfl, rfl⟩

theorem returns_note (level : Level) (text : String) (s : σ) :
    (note level text).Returns s () s := ⟨rfl, rfl⟩

theorem returns_state (s : σ) : (state : Op σ σ).Returns s s s := ⟨rfl, rfl⟩

theorem returns_update (f : σ → σ) (s : σ) : (update f).Returns s () (f s) := ⟨rfl, rfl⟩

/-- An attempt answers how the operation ended, and leaves the state that the operation left. -/
theorem returns_attempt (op : Op σ α) (s : σ) :
    op.attempt.Returns s (op.run s).result (op.run s).state := ⟨rfl, rfl⟩

/-! ## Composed operations -/

/-- Two operations that answer do so one after the other; the second one starts from the state that
the first one left. -/
theorem Returns.bind {op : Op σ α} {next : α → Op σ β} {s s₁ s₂ : σ} {a : α} {b : β}
    (h : op.Returns s a s₁) (h' : (next a).Returns s₁ b s₂) : (op >>= next).Returns s b s₂ := by
  obtain ⟨hr, hs⟩ := h
  unfold Returns
  rw [run_bind]
  cases ho : op.run s with
  | mk r t log =>
      rw [ho] at hr hs
      subst hr hs
      exact h'

/-- A sequence fails as its second part does, and leaves what that left. -/
theorem Returns.bind_fails {op : Op σ α} {next : α → Op σ β} {s s₁ s₂ : σ} {a : α} {e : Error}
    (h : op.Returns s a s₁) (h' : (next a).Fails s₁ e s₂) : (op >>= next).Fails s e s₂ := by
  obtain ⟨hr, hs⟩ := h
  unfold Fails
  rw [run_bind]
  cases ho : op.run s with
  | mk r t log =>
      rw [ho] at hr hs
      subst hr hs
      exact h'

/-- A sequence fails as its first part does, and the second one is not run. -/
theorem Fails.bind {op : Op σ α} {s s₁ : σ} {e : Error} (h : op.Fails s e s₁)
    (next : α → Op σ β) : (op >>= next).Fails s e s₁ := by
  obtain ⟨hr, hs⟩ := h
  unfold Fails
  rw [run_bind]
  cases ho : op.run s with
  | mk r t log =>
      rw [ho] at hr hs
      subst hr hs
      exact ⟨rfl, rfl⟩

/-- Operations one after another that answer do so in turn: there is an answer of the first and a
state in between. -/
theorem Returns.of_bind {op : Op σ α} {next : α → Op σ β} {s s₂ : σ} {b : β}
    (h : (op >>= next).Returns s b s₂) :
    ∃ a s₁, op.Returns s a s₁ ∧ (next a).Returns s₁ b s₂ := by
  obtain ⟨a, s₁, hr⟩ | ⟨e, s₁, hf⟩ := returns_or_fails op s
  · obtain ⟨b', t, hr'⟩ | ⟨e, t, hf⟩ := returns_or_fails (next a) s₁
    · obtain ⟨rfl, rfl⟩ := h.unique (hr.bind hr')
      exact ⟨a, s₁, hr, hr'⟩
    · exact absurd h.1 ((hr.bind_fails hf).not_ok b)
  · exact absurd h.1 ((hf.bind next).not_ok b)

/-- An operation that answers runs on a part of a larger state as on the part. -/
theorem Returns.zoom {op : Op σ α} {get : τ → σ} {set : σ → τ → τ} {t : τ} {s : σ} {a : α}
    (h : op.Returns (get t) a s) : (op.zoom get set).Returns t a (set s t) := by
  obtain ⟨hr, hs⟩ := h
  exact ⟨hr, congrArg (set · t) hs⟩

/-- An operation that fails does so on a part of a larger state as on the part, and leaves the rest
of the larger state. -/
theorem Fails.zoom {op : Op σ α} {get : τ → σ} {set : σ → τ → τ} {t : τ} {s : σ} {e : Error}
    (h : op.Fails (get t) e s) : (op.zoom get set : Op τ α).Fails t e (set s t) := by
  obtain ⟨hr, hs⟩ := h
  exact ⟨hr, congrArg (set · t) hs⟩

theorem Returns.within {op : Op τ α} {t t' : τ} {a : α} (h : op.Returns t a t') (s : σ) :
    (op.within t : Op σ (α × τ)).Returns s (a, t') s := by
  obtain ⟨hr, hs⟩ := h
  refine ⟨?_, rfl⟩
  rw [run_within, hr, hs]
  rfl

/-- An operation that fails on a state of its own does so within any other; what it did to its own
is lost. -/
theorem Fails.within {op : Op τ α} {t t' : τ} {e : Error} (h : op.Fails t e t') (s : σ) :
    (op.within t : Op σ (α × τ)).Fails s e s := by
  refine ⟨?_, rfl⟩
  rw [run_within, h.1]
  rfl

/-! ## What every run does -/

/-- Whatever an operation answers, the state it leaves is related to the one it found. -/
def Moves (op : Op σ α) (R : σ → σ → Prop) : Prop := ∀ s, R s (op.run s).state

/-- A relation that is transitive goes through a sequence: the first part may fail, then the second
is not run and the relation holds already. -/
theorem Moves.bind {op : Op σ α} {next : α → Op σ β} {R : σ → σ → Prop}
    (trans : ∀ {s t u}, R s t → R t u → R s u) (h : op.Moves R)
    (h' : ∀ a, (next a).Moves R) : (op >>= next).Moves R := by
  intro s
  have hs := h s
  rw [run_bind]
  cases ho : op.run s with
  | mk r t log =>
      rw [ho] at hs
      cases r with
      | ok a => exact trans hs (h' a t)
      | error e => exact hs

/-- What is done after an operation only takes the state that it left to a related one, whether the
operation answered or failed. -/
theorem Moves.after {op : Op σ α} {next : α → Op σ β} {R : σ → σ → Prop} (refl : ∀ s, R s s)
    (h : ∀ a, (next a).Moves R) (s : σ) : R (op.run s).state ((op >>= next).run s).state := by
  rw [run_bind]
  cases op.run s with
  | mk r t log =>
      cases r with
      | ok a => exact h a t
      | error e => exact refl t

/-! ## What follows an answer -/

/-- After an answer the rest runs on the state that was left. -/
theorem Returns.state_bind {op : Op σ α} {s s₁ : σ} {a : α} (h : op.Returns s a s₁)
    (next : α → Op σ β) : ((op >>= next).run s).state = ((next a).run s₁).state := by
  obtain ⟨b, t, hb⟩ | ⟨e, t, hb⟩ := returns_or_fails (next a) s₁
  · exact (h.bind hb).2.trans hb.2.symm
  · exact (h.bind_fails hb).2.trans hb.2.symm

/-- After an answer the sequence ends as its second part does. -/
theorem Returns.result_bind {op : Op σ α} {s s₁ : σ} {a : α} (h : op.Returns s a s₁)
    (next : α → Op σ β) : ((op >>= next).run s).result = ((next a).run s₁).result := by
  obtain ⟨b, t, hb⟩ | ⟨e, t, hb⟩ := returns_or_fails (next a) s₁
  · exact (h.bind hb).1.trans hb.1.symm
  · exact (h.bind_fails hb).1.trans hb.1.symm

/-- Working on the answer leaves the state. -/
theorem state_map (f : α → β) (op : Op σ α) (s : σ) :
    ((op >>= fun a => pure (f a)).run s).state = (op.run s).state := by
  rw [bind_pure_comp, run_map]

/-- Working on the answer changes the answer and nothing else. -/
theorem result_map (f : α → β) (op : Op σ α) (s : σ) :
    ((op >>= fun a => pure (f a)).run s).result = (op.run s).result.map f := by
  rw [bind_pure_comp, run_map]

end Op

end PeerBook
