import PeerBook.Error

/-!
# PeerBook.Operation

Operations on a state: each answers a value or fails with an error, leaves a
state behind in either case, and logs lines. A failure does not take back what
was done before it, so what a failed operation leaves behind is part of what it
does; this is why `Op` keeps the state outside of the result.

- `Op.attempt` turns a failure into an answer, so that a caller may go on.
- `Op.zoom` runs an operation on a part of a larger state.
- `Op.within` runs an operation on a state of its own and hands that state out.

Every operation has a `run_` lemma that says its outcome; these are simp lemmas,
and with them a composed operation is evaluated without opening a definition.
-/

namespace PeerBook

/-- How much a log line matters. -/
inductive Level where
  | debug
  | info
  | warn
  deriving DecidableEq, Repr

/-- The name of a level. -/
def Level.name : Level → String
  | debug => "DEBUG"
  | info => "INFO"
  | warn => "WARN"

/-- A line of the log. -/
structure LogLine where
  level : Level
  text : String
  deriving DecidableEq, Repr

/-- What an operation answers, the state it leaves, and what it logs. -/
structure Outcome (σ α : Type) where
  result : Except Error α
  state : σ
  log : List LogLine

/-- An operation on a state of type `σ` with an answer of type `α`. -/
def Op (σ α : Type) : Type := σ → Outcome σ α

/-- Runs an operation on a state. -/
def Op.run {σ α : Type} (op : Op σ α) (s : σ) : Outcome σ α := op s

/-- Goes on from an outcome with what follows it, unless it is a failure. -/
def Outcome.andThen {σ α β : Type} (o : Outcome σ α) (next : α → Op σ β) : Outcome σ β :=
  match o with
  | ⟨.ok a, s, log⟩ =>
    let after := (next a).run s
    ⟨after.result, after.state, log ++ after.log⟩
  | ⟨.error e, s, log⟩ => ⟨.error e, s, log⟩

namespace Op

variable {σ τ α β : Type}

instance : Monad (Op σ) where
  pure a := fun s => ⟨.ok a, s, []⟩
  bind op next := fun s => (op.run s).andThen next

/-- Fails and changes nothing. -/
def fail (e : Error) : Op σ α := fun s => ⟨.error e, s, []⟩

/-- Answers the state. -/
def state : Op σ σ := fun s => ⟨.ok s, s, []⟩

/-- Changes the state. -/
def update (f : σ → σ) : Op σ Unit := fun s => ⟨.ok (), f s, []⟩

/-- Answers what a computation without effects answers. -/
def ofExcept : Except Error α → Op σ α
  | .ok a => pure a
  | .error e => fail e

/-- Logs a line. -/
def note (level : Level) (text : String) : Op σ Unit := fun s => ⟨.ok (), s, [⟨level, text⟩]⟩

/-- Runs an operation and answers how it ended. -/
def attempt (op : Op σ α) : Op σ (Except Error α) := fun s =>
  ⟨.ok (op s).result, (op s).state, (op s).log⟩

/-- Runs an operation on a part of a larger state. -/
def zoom (get : τ → σ) (set : σ → τ → τ) (op : Op σ α) : Op τ α := fun t =>
  ⟨(op (get t)).result, set (op (get t)).state t, (op (get t)).log⟩

/-- Runs an operation on a state of its own, and answers with the state it left. -/
def within (op : Op τ α) (t : τ) : Op σ (α × τ) := fun s =>
  ⟨(op t).result.map (·, (op t).state), s, (op t).log⟩

/-! ## Running composed operations -/

@[simp] theorem run_pure (a : α) (s : σ) : (pure a : Op σ α).run s = ⟨.ok a, s, []⟩ := rfl

@[simp] theorem run_fail (e : Error) (s : σ) : (fail e : Op σ α).run s = ⟨.error e, s, []⟩ := rfl

@[simp] theorem run_state (s : σ) : (state : Op σ σ).run s = ⟨.ok s, s, []⟩ := rfl

@[simp] theorem run_update (f : σ → σ) (s : σ) : (update f).run s = ⟨.ok (), f s, []⟩ := rfl

@[simp] theorem run_note (level : Level) (text : String) (s : σ) :
    (note level text).run s = ⟨.ok (), s, [⟨level, text⟩]⟩ := rfl

/-- A sequence runs its first part and goes on from the outcome of that, whatever it is. -/
@[simp] theorem run_bind (op : Op σ α) (next : α → Op σ β) (s : σ) :
    (op >>= next).run s = (op.run s).andThen next := rfl

/-- After an operation that answered, the next one runs on the state it left, and its lines come
after those already logged. -/
@[simp] theorem andThen_ok (a : α) (s : σ) (log : List LogLine) (next : α → Op σ β) :
    (Outcome.mk (.ok a) s log).andThen next =
      ⟨((next a).run s).result, ((next a).run s).state, log ++ ((next a).run s).log⟩ := rfl

/-- After an operation that failed nothing more runs: the state and the lines stay as the failure
left them. -/
@[simp] theorem andThen_error (e : Error) (s : σ) (log : List LogLine) (next : α → Op σ β) :
    (Outcome.mk (.error e) s log).andThen next = ⟨.error e, s, log⟩ := rfl

/-- An attempt never fails; it keeps the state and the lines of what it attempted. -/
@[simp] theorem run_attempt (op : Op σ α) (s : σ) :
    op.attempt.run s = ⟨.ok (op.run s).result, (op.run s).state, (op.run s).log⟩ := rfl

/-- On a part of a larger state only that part changes, also where the operation fails. -/
@[simp] theorem run_zoom (get : τ → σ) (set : σ → τ → τ) (op : Op σ α) (t : τ) :
    (op.zoom get set).run t =
      ⟨(op.run (get t)).result, set (op.run (get t)).state t, (op.run (get t)).log⟩ := rfl

/-- On a state of its own an operation leaves the surrounding state alone; the inner state is
answered, and lost where the operation fails. -/
@[simp] theorem run_within (t : τ) (op : Op τ α) (s : σ) :
    (op.within t).run s = ⟨(op.run t).result.map (·, (op.run t).state), s, (op.run t).log⟩ := rfl

/-- A computation without effects answers or fails, and does nothing else. -/
@[simp] theorem run_ofExcept (r : Except Error α) (s : σ) :
    (ofExcept r : Op σ α).run s = ⟨r, s, []⟩ := by
  cases r <;> rfl

/-- Operations that run alike from every state are equal. -/
theorem ext_run {f g : Op σ α} (h : ∀ s, f.run s = g.run s) : f = g := funext h

/-- Mapping the answer changes neither the state that is left nor what is logged. -/
theorem run_map (f : α → β) (op : Op σ α) (s : σ) :
    (f <$> op).run s = ⟨(op.run s).result.map f, (op.run s).state, (op.run s).log⟩ := by
  show (op.run s).andThen (fun a => pure (f a)) = _
  rcases op.run s with ⟨_ | a, s', log⟩ <;> simp [Except.map]

instance : LawfulMonad (Op σ) := LawfulMonad.mk' _
  (fun op => ext_run fun s => by
    rw [run_map]
    rcases op.run s with ⟨_ | a, s', log⟩ <;> rfl)
  (fun a f => ext_run fun s => by simp)
  (fun op f g => ext_run fun s => by
    simp only [run_bind]
    rcases op.run s with ⟨_ | a, s', log⟩
    · rfl
    · simp only [andThen_ok, run_bind]
      rcases (f a).run s' with ⟨_ | b, s'', log'⟩ <;> simp)

end Op

end PeerBook
