import PeerBook.Proofs.Storage.Contents
import PeerBook.Storage.Guarded
import PeerBook.Storage.Sequential

/-!
# PeerBook.Proofs.Storage.Healthy

Storages that break down and recover. While one is broken, a batch may stop
after any of its first writes (`Storage.Orderly`); while it is healthy, every
batch is made (`Storage.Healthy`). A batch that was made in part leaves nothing
that making it again would not overwrite (`Contents.applyAll_of_prefix`), so two
healthy states that lead to one content are as good as each other for what
answers from the content alone (`Op.Respects`).

- `Outcome.Alike` compares two runs, `Op.Respects` two runs of one operation
  from related states; there is one rule for each way of composing.
- `Op.Makes` is for operations that make writes of the content in healthy
  states; what makes the same writes leaves twins (`Op.Makes.alike`).
- The last section puts rules in front of a storage in memory and lets a batch
  reach it as single writes (`Stepper`). This storage can be torn at any write,
  and mended, so it is where the witnesses of this library run.
-/

namespace PeerBook

/-! ## Making a batch again -/

namespace Contents

/-- After a batch the keys of its writes have nothing of what was there before: what they have
depends on the batch alone. -/
theorem get?_applyAll_congr (ws : List Write) {c c' : Contents} {k : String}
    (h : c.get? k = c'.get? k ∨ k ∈ ws.map Write.key) :
    (c.applyAll ws).get? k = (c'.applyAll ws).get? k := by
  induction ws generalizing c c' with
  | nil => exact h.resolve_right List.not_mem_nil
  | cons w ws ih =>
      show ((c.apply w).applyAll ws).get? k = ((c'.apply w).applyAll ws).get? k
      apply ih
      rw [get?_apply, get?_apply]
      by_cases hk : k = w.key
      · exact .inl (by rw [if_pos hk, if_pos hk])
      · rw [if_neg hk, if_neg hk]
        exact h.imp_right fun hm => (List.mem_cons.mp hm).resolve_left hk

/-- **Over any of its first writes a batch leads to where it leads without them**, since it writes
their keys again. -/
theorem applyAll_of_prefix (c : Contents) {made ws : List Write} (h : made <+: ws) :
    (c.applyAll made).applyAll ws = c.applyAll ws := by
  refine Table.ext_get? fun k => get?_applyAll_congr ws ?_
  by_cases hk : k ∈ made.map Write.key
  · exact .inr (List.map_subset _ h.subset hk)
  · exact .inl (get?_applyAll_of_ne c fun w hw hwk => hk (List.mem_map.mpr ⟨w, hw, hwk⟩))

end Contents

/-! ## Runs that are alike -/

section

variable {σ α β : Type} {R : σ → σ → Prop}

/-- Two outcomes have one answer, and states that are related. -/
structure Outcome.Alike (R : σ → σ → Prop) (o o' : Outcome σ α) : Prop where
  result : o.result = o'.result
  state : R o.state o'.state

/-- Outcomes that are alike go on alike if what follows them does. -/
theorem Outcome.Alike.andThen {o o' : Outcome σ α} {next next' : α → Op σ β} (h : o.Alike R o')
    (hn : ∀ a s s', R s s' → ((next a).run s).Alike R ((next' a).run s')) :
    (o.andThen next).Alike R (o'.andThen next') := by
  obtain ⟨r, s, log⟩ := o
  obtain ⟨r', s', log'⟩ := o'
  obtain ⟨rfl, hs⟩ := h
  cases r with
  | ok a =>
      obtain ⟨hr, hs'⟩ := hn a s s' hs
      exact ⟨hr, hs'⟩
  | error e => exact ⟨rfl, hs⟩

/-- Two runs that answer the same and leave related states are alike. -/
theorem Outcome.Alike.of_returns {op op' : Op σ α} {s s' t t' : σ} {a : α}
    (h : op.Returns s a t) (h' : op'.Returns s' a t') (hR : R t t') :
    (op.run s).Alike R (op'.run s') := by
  refine ⟨h.1.trans h'.1.symm, ?_⟩
  rw [h.2, h'.2]
  exact hR

/-- Two runs that fail with the same error and leave related states are alike. -/
theorem Outcome.Alike.of_fails {op op' : Op σ α} {s s' t t' : σ} {e : Error}
    (h : op.Fails s e t) (h' : op'.Fails s' e t') (hR : R t t') :
    (op.run s).Alike R (op'.run s') := by
  refine ⟨h.1.trans h'.1.symm, ?_⟩
  rw [h.2, h'.2]
  exact hR

theorem Outcome.Alike.returns {op op' : Op σ α} {s s' t : σ} {a : α}
    (h : (op.run s).Alike R (op'.run s')) (hr : op.Returns s a t) :
    ∃ t', op'.Returns s' a t' ∧ R t t' := by
  refine ⟨_, ⟨h.result.symm.trans hr.1, rfl⟩, ?_⟩
  rw [← hr.2]
  exact h.state

theorem Outcome.Alike.fails {op op' : Op σ α} {s s' t : σ} {e : Error}
    (h : (op.run s).Alike R (op'.run s')) (hf : op.Fails s e t) :
    ∃ t', op'.Fails s' e t' ∧ R t t' := by
  refine ⟨_, ⟨h.result.symm.trans hf.1, rfl⟩, ?_⟩
  rw [← hf.2]
  exact h.state

/-- From states that are related an operation answers alike, and leaves related states. -/
def Op.Respects (op : Op σ α) (R : σ → σ → Prop) : Prop :=
  ∀ s s', R s s' → (op.run s).Alike R (op.run s')

theorem Op.Respects.pure (a : α) : (Pure.pure a : Op σ α).Respects R :=
  fun _ _ h => ⟨rfl, h⟩

theorem Op.Respects.note (level : Level) (text : String) : (Op.note level text).Respects R :=
  fun _ _ h => ⟨rfl, h⟩

theorem Op.Respects.ofExcept (r : Except Error α) : (Op.ofExcept r : Op σ α).Respects R := by
  intro s s' h
  rw [Op.run_ofExcept, Op.run_ofExcept]
  exact ⟨rfl, h⟩

theorem Op.Respects.within {τ : Type} (op : Op τ α) (t : τ) :
    (op.within t : Op σ _).Respects R :=
  fun _ _ h => ⟨rfl, h⟩

/-- From one state every operation goes one way. -/
theorem Op.Respects.eq (op : Op σ α) : op.Respects Eq := by
  rintro s _ rfl
  exact ⟨rfl, rfl⟩

/-- What depends on the state goes alike if it does so for each two that are related. -/
theorem Op.Respects.state_bind {next : σ → Op σ β}
    (h : ∀ s s', R s s' → ((next s).run s).Alike R ((next s').run s')) :
    (Op.state >>= next).Respects R :=
  fun s s' hs => ⟨(h s s' hs).result, (h s s' hs).state⟩

/-- Operations go alike one after the other, the second from related states and with the same answer
of the first. -/
theorem Op.Respects.bind {op : Op σ α} {next : α → Op σ β} (h : op.Respects R)
    (hn : ∀ a, (next a).Respects R) : (op >>= next).Respects R :=
  fun s s' hs => (h s s' hs).andThen fun a t t' ht => hn a t t' ht

theorem Op.Respects.attempt {op : Op σ α} (h : op.Respects R) : op.attempt.Respects R :=
  fun s s' hs => ⟨congrArg Except.ok (h s s' hs).result, (h s s' hs).state⟩

theorem Op.Respects.collect {f : α → Op σ (Option β)} {as : List α}
    (h : ∀ a ∈ as, (f a).Respects R) : (Storage.collect f as).Respects R := by
  induction as with
  | nil => exact .pure []
  | cons a as ih =>
      exact .bind (h a List.mem_cons_self) fun _ =>
        .bind (ih fun b hb => h b (List.mem_cons_of_mem a hb)) fun _ => .pure _

end

/-! ## Storages that break down -/

section

variable {σ : Type} {contents : σ → Contents} {healthy : σ → Prop}

/-- From healthy states an operation makes writes of the content and leaves such a state. -/
def Op.Makes (op : Op σ Unit) (contents : σ → Contents) (healthy : σ → Prop)
    (ws : List Write) : Prop :=
  ∀ s, healthy s → ∃ s', op.Returns s () s' ∧ healthy s' ∧ contents s' = (contents s).applyAll ws

/-- Writes after writes are made in order. -/
theorem Op.Makes.bind {op next : Op σ Unit} {ws ws' : List Write}
    (h : op.Makes contents healthy ws) (h' : next.Makes contents healthy ws') :
    (op >>= fun _ => next).Makes contents healthy (ws ++ ws') := by
  intro s hs
  obtain ⟨t, hr, ht, hc⟩ := h s hs
  obtain ⟨u, hr', hu, hc'⟩ := h' t ht
  refine ⟨u, hr.bind hr', hu, ?_⟩
  rw [hc', hc, Contents.applyAll_append]

/-- Writes one after another are made if each single one is. -/
theorem Write.applyEach_makes {put : String → String → Op σ Unit} {del : String → Op σ Unit}
    (hp : ∀ key value, (put key value).Makes contents healthy [.put key value])
    (hd : ∀ key, (del key).Makes contents healthy [.del key]) (ws : List Write) :
    (Write.applyEach put del ws).Makes contents healthy ws := by
  induction ws with
  | nil => exact fun s hs => ⟨s, Op.returns_pure () s, hs, rfl⟩
  | cons w ws ih =>
      cases w with
      | put key value => exact (hp key value).bind ih
      | del key => exact (hd key).bind ih

/-- Two healthy states with one content. -/
structure Storage.Twins (contents : σ → Contents) (healthy : σ → Prop) (s t : σ) : Prop where
  left : healthy s
  right : healthy t
  contents_eq : contents s = contents t

/-- What makes the same writes leaves twins from states that the writes lead to one content. -/
theorem Op.Makes.alike {op : Op σ Unit} {ws : List Write} (h : op.Makes contents healthy ws)
    {s t : σ} (hs : healthy s) (ht : healthy t)
    (hc : (contents s).applyAll ws = (contents t).applyAll ws) :
    (op.run s).Alike (Storage.Twins contents healthy) (op.run t) := by
  obtain ⟨s', hr, hs', hcs⟩ := h s hs
  obtain ⟨t', hr', ht', hct⟩ := h t ht
  exact .of_returns hr hr' ⟨hs', ht', by rw [hcs, hct, hc]⟩

/-- What makes writes that do not depend on the state goes alike from twins. -/
theorem Op.Makes.respects {op : Op σ Unit} {ws : List Write} (h : op.Makes contents healthy ws) :
    op.Respects (Storage.Twins contents healthy) :=
  fun _ _ ht => h.alike ht.left ht.right (congrArg (·.applyAll ws) ht.contents_eq)

/-- Where every state is healthy, the writes are always made. -/
theorem Op.Makes.writes {op : Op σ Unit} {ws : List Write}
    (h : op.Makes contents (fun _ => True) ws) : op.Writes contents ws := by
  intro s
  obtain ⟨s', hr, -, hc⟩ := h s trivial
  exact .inl ⟨s', hr, hc⟩

variable [Storage σ]

/-- A storage whose batches are made, or stop after some of their first writes, in order. -/
def Storage.Orderly (contents : σ → Contents) : Prop :=
  ∀ ws, (Storage.writeBatch ws : Op σ Unit).Writes contents ws

/-- States of a storage in which every batch is made. -/
def Storage.Healthy (contents : σ → Contents) (healthy : σ → Prop) : Prop :=
  ∀ ws, (Storage.writeBatch ws : Op σ Unit).Makes contents healthy ws

/-- An atomic storage is orderly: a batch that fails stops before its first write. -/
theorem Storage.Atomic.orderly (h : Storage.Atomic contents) : Storage.Orderly contents := by
  intro ws s
  obtain ⟨s', hr, hc⟩ | ⟨e, s', hf, hc⟩ := h.writeBatch ws s
  · exact .inl ⟨s', hr, hc⟩
  · exact .inr ⟨e, s', [], hf, List.nil_prefix, hc⟩

/-- A stepwise storage is orderly: a batch that fails stops where a write does. -/
theorem Storage.Stepwise.orderly (h : Storage.Stepwise contents) : Storage.Orderly contents :=
  h.writes

end

/-! ## Storages behind rules, and batches as single writes -/

section

variable {σ : Type} {contents : σ → Contents} {healthy : σ → Prop} {op : Op σ Unit}
  {ws : List Write}

/-- A refused access does nothing but fail, and any other is one to the storage inside. -/
theorem Guarded.run_guarded (access : Access) (keys : List String) (g : Guarded σ) :
    (guarded access keys op).run g =
      if keys.any (g.refuses access) then ⟨.error (.storage (.refused "disk full")), g, []⟩
      else (op.zoom inner fun s g => { g with inner := s }).run g := by
  show ((if keys.any (g.refuses access) then Storage.fault (.refused "disk full")
    else op.zoom inner fun s g => { g with inner := s }) : Op (Guarded σ) Unit).run g = _
  split
  · rfl
  · rfl

/-- Behind rules an operation makes its writes, or none of them, or what it made before it
failed. -/
theorem Op.Writes.guarded (h : op.Writes contents ws) (access : Access) (keys : List String) :
    (Guarded.guarded access keys op).Writes (fun g => contents g.inner) ws := by
  intro g
  unfold Op.Returns Op.Fails
  rw [Guarded.run_guarded]
  split
  · exact .inr ⟨_, g, [], ⟨rfl, rfl⟩, List.nil_prefix, rfl⟩
  · obtain ⟨s, hr, hs⟩ | ⟨e, s, made, hf, hm, hs⟩ := h g.inner
    · exact .inl ⟨_, hr.zoom, hs⟩
    · exact .inr ⟨e, _, made, hf.zoom, hm, hs⟩

/-- Without rules nothing is refused, so the writes of the operation inside are made. -/
theorem Op.Makes.guarded (h : op.Makes contents (fun _ => True) ws) (access : Access)
    (keys : List String) :
    (Guarded.guarded access keys op).Makes (fun g => contents g.inner) (·.rules = []) ws := by
  intro g hrules
  have hopen : keys.any (g.refuses access) = false := by simp [Guarded.refuses, hrules]
  obtain ⟨s, hr, -, hc⟩ := h g.inner trivial
  have hz : (Guarded.guarded access keys op).Returns g () { g with inner := s } := by
    unfold Op.Returns
    rw [Guarded.run_guarded, hopen]
    exact hr.zoom
  exact ⟨_, hz, hrules, hc⟩

/-- On a storage that applies batches as single writes, an operation of the storage inside makes the
writes that it makes there. -/
theorem Op.Writes.sequential (h : op.Writes contents ws) :
    (Sequential.lift op).Writes (fun s => contents s.inner) ws := by
  intro s
  obtain ⟨t, hr, ht⟩ | ⟨e, t, made, hf, hm, ht⟩ := h s.inner
  · exact .inl ⟨_, hr.zoom, ht⟩
  · exact .inr ⟨e, _, made, hf.zoom, hm, ht⟩

/-- So in healthy states all of its writes are made. -/
theorem Op.Makes.sequential (h : op.Makes contents healthy ws) :
    (Sequential.lift op).Makes (fun s => contents s.inner) (fun s => healthy s.inner) ws := by
  intro s hs
  obtain ⟨t, hr, ht, hc⟩ := h s.inner hs
  exact ⟨_, hr.zoom, ht, hc⟩

end

namespace Memory

theorem put_makes (key value : String) :
    (Storage.put key value : Op Memory Unit).Makes contents (fun _ => True) [.put key value] :=
  fun _ _ => ⟨_, ⟨rfl, rfl⟩, trivial, rfl⟩

theorem del_makes (key : String) :
    (Storage.del key : Op Memory Unit).Makes contents (fun _ => True) [.del key] :=
  fun _ _ => ⟨_, ⟨rfl, rfl⟩, trivial, rfl⟩

end Memory

/-- A storage in memory behind rules that reach into batches. -/
abbrev Stepper : Type := Sequential (Guarded Memory)

namespace Stepper

/-- The content of the storage inside. -/
def contents (s : Stepper) : Contents := s.inner.inner.contents

/-- Nothing is refused. -/
def Open (s : Stepper) : Prop := s.inner.rules = []

theorem put_makes (key value : String) :
    (Storage.put key value : Op Stepper Unit).Makes contents Open [.put key value] :=
  ((Memory.put_makes key value).guarded _ _).sequential

/-- Without rules every batch is made, write after write, so such states are healthy. -/
theorem healthy : Storage.Healthy contents Open := by
  intro ws
  rw [Sequential.writeBatch_eq]
  exact Write.applyEach_makes put_makes
    (fun key => ((Memory.del_makes key).guarded _ _).sequential) ws

/-- Whatever the rules, a batch is made up to the first write that is refused. -/
theorem orderly : Storage.Orderly contents := by
  intro ws
  rw [Sequential.writeBatch_eq]
  refine Write.applyEach_writes (fun key value => ?_) (fun key => ?_) ws
  · exact ((Op.Makes.writes (Memory.put_makes key value)).guarded _ _).sequential
  · exact ((Op.Makes.writes (Memory.del_makes key)).guarded _ _).sequential

end Stepper

end PeerBook
