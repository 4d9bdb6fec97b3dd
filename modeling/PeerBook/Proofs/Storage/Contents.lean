import PeerBook.Proofs.Operation
import PeerBook.Storage.Memory

/-!
# PeerBook.Proofs.Storage.Contents

What batches do to the content of a storage, and storages that are nothing but
a content, from which reads answer and which they leave (`Storage.Legible`). A
batch is made as a whole or, where it fails, not at all (`Storage.Atomic`), or
it is made one write after another, up to the first that fails
(`Storage.Stepwise`). Of such a storage it is enough to know what the writes of
a batch leave under each key (`Contents.get?_applyAll`).

- `Op.Reads` is for operations that leave the content and always answer, and
  `Op.Writes` for those that make a list of writes, or some first ones of it;
  both are closed under composition.
- A storage in memory is atomic (`Memory.atomic`). `Faltering`, which stops
  taking writes, is stepwise, and `Intermittent`, which refuses batches by a
  list of answers, is atomic; so neither kind is empty of storages that fail.
-/

namespace PeerBook

/-- The value that a write leaves under its key. -/
def Write.value : Write → Option String
  | .put _ value => some value
  | .del _ => none

namespace Contents

/-- After a write its key has what the write leaves under it, every other key what it had. -/
theorem get?_apply (c : Contents) (w : Write) (k : String) :
    (c.apply w).get? k = if k = w.key then w.value else c.get? k := by
  cases w with
  | put key value => exact Table.get?_insert c key value k
  | del key => exact Table.get?_erase c key k

/-- Two lists of writes are made one after the other. -/
theorem applyAll_append (c : Contents) (ws vs : List Write) :
    c.applyAll (ws ++ vs) = (c.applyAll ws).applyAll vs := List.foldl_append

/-- After writes that agree on a key, the key has what they leave under it if it is among theirs,
and else what it had. -/
theorem get?_applyAll (c : Contents) (ws : List Write) {k : String} {v : Option String}
    (h : ∀ w ∈ ws, w.key = k → w.value = v) :
    (c.applyAll ws).get? k = if k ∈ ws.map Write.key then v else c.get? k := by
  induction ws generalizing c with
  | nil => rfl
  | cons w ws ih =>
      have hi : c.applyAll (w :: ws) = (c.apply w).applyAll ws := rfl
      have ht : ∀ w' ∈ ws, w'.key = k → w'.value = v :=
        fun w' hw' => h w' (List.mem_cons_of_mem w hw')
      rw [hi, ih _ ht, get?_apply]
      by_cases hk : k = w.key
      · have hv : w.value = v := h w List.mem_cons_self hk.symm
        simp [hk, hv]
      · simp only [List.map_cons, List.mem_cons, hk, false_or, if_false]

/-- A key that no write is about keeps its value. -/
theorem get?_applyAll_of_ne (c : Contents) {ws : List Write} {k : String}
    (h : ∀ w ∈ ws, w.key ≠ k) : (c.applyAll ws).get? k = c.get? k := by
  have hn : k ∉ ws.map Write.key := by
    intro hm
    obtain ⟨w, hw, hk⟩ := List.mem_map.mp hm
    exact h w hw hk
  rw [get?_applyAll (v := none) c ws fun w hw hk => absurd hk (h w hw), if_neg hn]

/-- A key of a batch has what one of its writes leaves, namely the last one about it. Which one that
is does not matter where the writes about a key agree. -/
theorem get?_applyAll_of_mem (c : Contents) {ws : List Write} {k : String}
    (h : k ∈ ws.map Write.key) : ∃ w ∈ ws, w.key = k ∧ (c.applyAll ws).get? k = w.value := by
  induction ws generalizing c with
  | nil => contradiction
  | cons w ws ih =>
      show ∃ w' ∈ w :: ws, w'.key = k ∧ ((c.apply w).applyAll ws).get? k = w'.value
      by_cases hm : k ∈ ws.map Write.key
      · obtain ⟨w', hw', hk, hv⟩ := ih (c.apply w) hm
        exact ⟨w', List.mem_cons_of_mem w hw', hk, hv⟩
      · obtain rfl : k = w.key := (List.mem_cons.mp h).resolve_right hm
        refine ⟨w, List.mem_cons_self, rfl, ?_⟩
        rw [get?_applyAll_of_ne _ fun w' hw' hk => hm (List.mem_map.mpr ⟨w', hw', hk⟩), get?_apply,
          if_pos rfl]

/-- A key has what it had, or what a write about it leaves; no agreement of the writes is needed for
this much. -/
theorem get?_applyAll_or (c : Contents) (ws : List Write) (k : String) :
    (c.applyAll ws).get? k = c.get? k ∨
      ∃ w ∈ ws, w.key = k ∧ (c.applyAll ws).get? k = w.value := by
  by_cases hm : k ∈ ws.map Write.key
  · exact .inr (get?_applyAll_of_mem c hm)
  · exact .inl (get?_applyAll_of_ne c fun w hw hk => hm (List.mem_map.mpr ⟨w, hw, hk⟩))

/-- The keys under a prefix are those with a value that begin with it. -/
theorem mem_keysUnder {c : Contents} {keyPrefix k : String} :
    k ∈ c.keysUnder keyPrefix ↔ (∃ v, c.get? k = some v) ∧ Text.hasPrefix keyPrefix k = true := by
  rw [keysUnder, List.mem_filter, Table.mem_keys_iff]

end Contents

/-! ## Storages that are a content -/

section

variable {σ α β : Type} {contents : σ → Contents} {c : Contents}

/-- On every state with a content the operation answers a value of some kind and leaves the
content. -/
def Op.Reads (op : Op σ α) (contents : σ → Contents) (c : Contents) (P : α → Prop) : Prop :=
  ∀ s, contents s = c → ∃ a s', op.Returns s a s' ∧ contents s' = c ∧ P a

theorem Op.Reads.pure {a : α} {P : α → Prop} (h : P a) :
    (Pure.pure a : Op σ α).Reads contents c P :=
  fun s hs => ⟨a, s, Op.returns_pure a s, hs, h⟩

theorem Op.Reads.note (level : Level) (text : String) :
    (Op.note level text : Op σ Unit).Reads contents c fun _ => True :=
  fun s hs => ⟨(), s, Op.returns_note level text s, hs, trivial⟩

/-- What is done after reading starts from the same content. -/
theorem Op.Reads.bind {op : Op σ α} {next : α → Op σ β} {P : α → Prop} {Q : β → Prop}
    (h : op.Reads contents c P) (h' : ∀ a, P a → (next a).Reads contents c Q) :
    (op >>= next).Reads contents c Q := by
  intro s hs
  obtain ⟨a, s₁, hr, hs₁, ha⟩ := h s hs
  obtain ⟨b, s₂, hr', hs₂, hb⟩ := h' a ha s₁ hs₁
  exact ⟨b, s₂, hr.bind hr', hs₂, hb⟩

theorem Op.Reads.mono {op : Op σ α} {P Q : α → Prop} (h : op.Reads contents c P)
    (hPQ : ∀ a, P a → Q a) : op.Reads contents c Q := by
  intro s hs
  obtain ⟨a, s', hr, hs', ha⟩ := h s hs
  exact ⟨a, s', hr, hs', hPQ a ha⟩

/-- A storage with a content that reads answer from and leave. The order in which keys are listed
is open. -/
structure Storage.Legible [Storage σ] (contents : σ → Contents) : Prop where
  get (c : Contents) (key : String) :
    (Storage.get key : Op σ _).Reads contents c (· = c.get? key)
  list (c : Contents) (keyPrefix : String) :
    (Storage.list keyPrefix : Op σ _).Reads contents c fun keys =>
      ∀ k, k ∈ keys ↔ k ∈ c.keysUnder keyPrefix

/-- A storage with a content that reads answer from and leave; a batch is made as a whole or, where
it fails, not at all. Which batches fail is open, and so is the order in which keys are listed. -/
structure Storage.Atomic [Storage σ] (contents : σ → Contents) : Prop
    extends Storage.Legible contents where
  writeBatch (ws : List Write) (s : σ) :
    (∃ s', (Storage.writeBatch ws).Returns s () s' ∧ contents s' = (contents s).applyAll ws) ∨
      ∃ e s', (Storage.writeBatch ws).Fails s e s' ∧ contents s' = contents s

/-- Reading for each of several keys keeps what is found, in order. -/
theorem Storage.collect_reads {f : String → Op σ (Option β)} {g : String → Option β}
    (h : ∀ k, (f k).Reads contents c (· = g k)) (keys : List String) :
    (Storage.collect f keys).Reads contents c (· = keys.filterMap g) := by
  induction keys with
  | nil => exact .pure rfl
  | cons k ks ih =>
      refine .bind (h k) fun b hb => .bind ih fun bs hbs => .pure ?_
      rw [hb, hbs]
      cases hg : g k <;> simp [hg]

end

/-- A storage in memory is atomic, as it never fails. -/
theorem Memory.atomic : Storage.Atomic Memory.contents where
  get c key s hs := ⟨_, s, ⟨rfl, rfl⟩, hs, by rw [hs]⟩
  list c keyPrefix s hs := ⟨_, s, ⟨rfl, rfl⟩, hs, by rw [hs]; exact fun k => Iff.rfl⟩
  writeBatch ws s := .inl ⟨_, ⟨rfl, rfl⟩, rfl⟩

/-! ## Batches one write after another -/

section

variable {σ : Type} [Storage σ] {contents : σ → Contents}

/-- An operation makes writes of the content, or it fails after some of them, in order. -/
def Op.Writes (op : Op σ Unit) (contents : σ → Contents) (ws : List Write) : Prop :=
  ∀ s, (∃ s', op.Returns s () s' ∧ contents s' = (contents s).applyAll ws) ∨
    ∃ e s' made, op.Fails s e s' ∧ made <+: ws ∧ contents s' = (contents s).applyAll made

omit [Storage σ] in
/-- Writes after writes: a failure in the first part leaves some first ones of them all. -/
theorem Op.Writes.bind {op next : Op σ Unit} {ws ws' : List Write} (h : op.Writes contents ws)
    (h' : next.Writes contents ws') : (op >>= fun _ => next).Writes contents (ws ++ ws') := by
  intro s
  have happ := (contents s).applyAll_append ws
  obtain ⟨t, hr, ht⟩ | ⟨e, t, made, hf, hm, ht⟩ := h s
  · obtain ⟨u, hr', hu⟩ | ⟨e, u, made, hf, hm, hu⟩ := h' t
    · exact .inl ⟨u, hr.bind hr', by rw [happ, hu, ht]⟩
    · exact .inr ⟨e, u, ws ++ made, hr.bind_fails hf, (List.prefix_append_right_inj ws).mpr hm,
        by rw [happ, hu, ht]⟩
  · exact .inr ⟨e, t, made, hf.bind _, hm.trans (List.prefix_append ws ws'), ht⟩

omit [Storage σ] in
/-- Writes one after another stop at the first that fails. -/
theorem Write.applyEach_writes {put : String → String → Op σ Unit} {del : String → Op σ Unit}
    (hp : ∀ key value, (put key value).Writes contents [.put key value])
    (hd : ∀ key, (del key).Writes contents [.del key]) (ws : List Write) :
    (Write.applyEach put del ws).Writes contents ws := by
  induction ws with
  | nil => exact fun s => .inl ⟨s, Op.returns_pure () s, rfl⟩
  | cons w ws ih =>
      cases w with
      | put key value => exact (hp key value).bind ih
      | del key => exact (hd key).bind ih

/-- A storage with a content that reads answer from and leave; a batch is its writes one after
another, each of which is made or fails without effect. -/
structure Storage.Stepwise (contents : σ → Contents) : Prop extends Storage.Legible contents where
  put (key value : String) : (Storage.put key value : Op σ Unit).Writes contents [.put key value]
  del (key : String) : (Storage.del key : Op σ Unit).Writes contents [.del key]
  writeBatch (ws : List Write) :
    (Storage.writeBatch ws : Op σ Unit) = Write.applyEach Storage.put Storage.del ws

/-- **A batch that fails leaves the writes before the failure.** -/
theorem Storage.Stepwise.writes (hs : Storage.Stepwise contents) (ws : List Write) :
    (Storage.writeBatch ws : Op σ Unit).Writes contents ws := by
  rw [hs.writeBatch]
  exact Write.applyEach_writes hs.put hs.del ws

end

/-- A storage in memory that takes a number of single writes and no more after these. -/
structure Faltering where
  inner : Memory
  remaining : Nat

namespace Faltering

variable {α : Type}

/-- Runs an operation on the storage inside. -/
def lift (op : Op Memory α) : Op Faltering α := op.zoom inner fun m s => { s with inner := m }

/-- Runs a write on the storage inside, if it takes one more. -/
def spend (op : Op Memory Unit) : Op Faltering Unit := do
  match (← Op.state).remaining with
  | 0 => Storage.fault (.refused "disk full")
  | n + 1 =>
    Op.update fun s => { s with remaining := n }
    lift op

instance : Storage Faltering where
  get key := lift (Storage.get key)
  put key value := spend (Storage.put key value)
  del key := spend (Storage.del key)
  list keyPrefix := lift (Storage.list keyPrefix)

/-- The content of the storage inside. -/
def contents (s : Faltering) : Contents := s.inner.contents

/-- A write that is taken is made, and one that is not taken fails and leaves the content. -/
theorem spend_writes {op : Op Memory Unit} {w : Write}
    (h : ∀ m, op.Returns m () ⟨m.contents.apply w⟩) : (spend op).Writes contents [w] := by
  rintro ⟨m, n⟩
  cases n with
  | zero => exact .inr ⟨_, _, [], ⟨rfl, rfl⟩, List.nil_prefix, rfl⟩
  | succ n =>
      have hl : (lift op).Returns ⟨m, n⟩ () ⟨⟨m.contents.apply w⟩, n⟩ := (h m).zoom
      exact .inl ⟨_, hl, rfl⟩

/-- A storage that takes a number of writes and no more makes its batches one write after
another. -/
theorem stepwise : Storage.Stepwise contents where
  get c key s hs := ⟨_, s, ⟨rfl, rfl⟩, hs, by rw [← hs]; rfl⟩
  list c keyPrefix s hs := ⟨_, s, ⟨rfl, rfl⟩, hs, by rw [← hs]; exact fun k => Iff.rfl⟩
  put key value := spend_writes fun _ => ⟨rfl, rfl⟩
  del key := spend_writes fun _ => ⟨rfl, rfl⟩
  writeBatch _ := rfl

end Faltering

/-! ## A storage that fails now and then -/

/-- A storage in memory that refuses some of the batches to come: the first answer is about the
next batch, and after the last one all are taken. -/
structure Intermittent where
  inner : Memory
  refusals : List Bool

namespace Intermittent

variable {α : Type}

/-- Runs an operation on the storage inside. -/
def lift (op : Op Memory α) : Op Intermittent α := op.zoom inner fun m s => { s with inner := m }

instance : Storage Intermittent where
  get key := lift (Storage.get key)
  put key value := lift (Storage.put key value)
  del key := lift (Storage.del key)
  list keyPrefix := lift (Storage.list keyPrefix)
  writeBatch ws := do
    let refused := (← Op.state).refusals.headD false
    Op.update fun s => { s with refusals := s.refusals.tail }
    if refused then
      Storage.fault (.refused "disk full")
    else
      lift (Storage.writeBatch ws)

/-- The content of the storage inside. -/
def contents (s : Intermittent) : Contents := s.inner.contents

/-- A storage that refuses some batches is atomic: what it refuses it leaves undone, and single
writes and reads are those of the storage inside. -/
theorem atomic : Storage.Atomic contents where
  get c key s hs := ⟨_, s, ⟨rfl, rfl⟩, hs, by rw [← hs]; rfl⟩
  list c keyPrefix s hs := ⟨_, s, ⟨rfl, rfl⟩, hs, by rw [← hs]; exact fun k => Iff.rfl⟩
  writeBatch ws s := by
    obtain ⟨m, refusals⟩ := s
    cases refusals with
    | nil => exact .inl ⟨_, ⟨rfl, rfl⟩, rfl⟩
    | cons refused rest =>
        cases refused with
        | false => exact .inl ⟨_, ⟨rfl, rfl⟩, rfl⟩
        | true => exact .inr ⟨_, _, ⟨rfl, rfl⟩, rfl⟩

end Intermittent

end PeerBook
