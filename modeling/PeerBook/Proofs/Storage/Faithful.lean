import PeerBook.Proofs.Storage.Submission

/-!
# PeerBook.Proofs.Storage.Faithful

Storages on which stores live. On an ordered one a single write is made or
fails, and a batch is made up to the first write that fails, so whatever becomes
of an operation the content has changed by writes of a known kind (`Op.Edits`).
A faithful storage does all it is asked and lists each key once: there an
operation is what it answers and what it leaves (`Op.Brings`).

`Op.Edits` is what isolation and trust are proved with, since it holds of
operations that fail half-way; `Op.Brings` is for what a store answers. Each has
its rules for reading, for handing over a batch and for composing, and
`Storage.Faithful.ordered` lets a faithful storage have both.
-/

namespace PeerBook

section

variable {σ : Type} [Storage σ]

/-- A storage with a content that reads answer from and leave, whose single writes are made or fail,
and whose batches are made up to the first write that fails. -/
structure Storage.Ordered (contents : σ → Contents) : Prop extends Storage.Legible contents where
  put (key value : String) : (Storage.put key value : Op σ Unit).Writes contents [.put key value]
  del (key : String) : (Storage.del key : Op σ Unit).Writes contents [.del key]
  writeBatch : Storage.Orderly contents

/-- A stepwise storage is an ordered one: it makes single writes or fails them, and batches of
them. -/
theorem Storage.Stepwise.ordered {contents : σ → Contents} (hs : Storage.Stepwise contents) :
    Storage.Ordered contents := ⟨hs.toLegible, hs.put, hs.del, hs.orderly⟩

/-- A storage that never fails. It lists every key once, in some order. -/
structure Storage.Faithful (contents : σ → Contents) : Prop where
  get (c : Contents) (key : String) :
    (Storage.get key : Op σ _).Reads contents c (· = c.get? key)
  list (c : Contents) (keyPrefix : String) :
    (Storage.list keyPrefix : Op σ _).Reads contents c (·.Perm (c.keysUnder keyPrefix))
  put (key value : String) :
    (Storage.put key value : Op σ Unit).Makes contents (fun _ => True) [.put key value]
  del (key : String) : (Storage.del key : Op σ Unit).Makes contents (fun _ => True) [.del key]
  writeBatch (ws : List Write) :
    (Storage.writeBatch ws : Op σ Unit).Makes contents (fun _ => True) ws

namespace Storage.Faithful

variable {contents : σ → Contents}

theorem legible (hs : Storage.Faithful contents) : Storage.Legible contents where
  get := hs.get
  list c keyPrefix := (hs.list c keyPrefix).mono fun _ h _ => h.mem_iff

/-- A faithful storage is atomic, as no batch of it fails. -/
theorem atomic (hs : Storage.Faithful contents) : Storage.Atomic contents where
  toLegible := hs.legible
  writeBatch ws s := by
    obtain ⟨s', hr, -, hs'⟩ := hs.writeBatch ws s trivial
    exact .inl ⟨s', hr, hs'⟩

/-- On a faithful storage no batch stops half-way. -/
theorem orderly (hs : Storage.Faithful contents) : Storage.Orderly contents :=
  fun ws => (hs.writeBatch ws).writes

theorem ordered (hs : Storage.Faithful contents) : Storage.Ordered contents :=
  ⟨hs.legible, fun key value => (hs.put key value).writes, fun key => (hs.del key).writes,
    hs.orderly⟩

end Storage.Faithful

/-- A storage in memory does all it is asked and lists each key once. -/
theorem Memory.faithful : Storage.Faithful Memory.contents where
  get := Memory.atomic.get
  list c keyPrefix s hs := ⟨_, s, ⟨rfl, rfl⟩, hs, by rw [hs]⟩
  put := Memory.put_makes
  del := Memory.del_makes
  writeBatch ws s _ := ⟨_, ⟨rfl, rfl⟩, trivial, rfl⟩

end

section

variable {σ α β : Type} {contents : σ → Contents} {c : Contents}

/-! ## Changes of a kind -/

/-- Whether it answers or fails, an operation changes the content by writes of a kind. -/
def Op.Edits (op : Op σ α) (contents : σ → Contents) (c : Contents) (W : Write → Prop) : Prop :=
  ∀ s, contents s = c → ∃ ws, (∀ w ∈ ws, W w) ∧ contents (op.run s).state = c.applyAll ws

namespace Op.Edits

variable {W : Write → Prop}

/-- What only reads changes nothing, so it changes by writes of any kind. -/
theorem of_views {op : Op σ α} {P : Except Error α → Prop} (h : op.Views contents c P) :
    op.Edits contents c W := fun s hs => ⟨[], nofun, (h s hs).1⟩

/-- What makes writes of a kind, or some first ones of them, changes the content by these. -/
theorem of_writes {op : Op σ Unit} {ws : List Write} (h : op.Writes contents ws)
    (hW : ∀ w ∈ ws, W w) : op.Edits contents c W := by
  intro s hs
  obtain ⟨t, hr, ht⟩ | ⟨e, t, made, hf, hm, ht⟩ := h s
  · exact ⟨ws, hW, by rw [hr.2, ht, hs]⟩
  · exact ⟨made, fun w hw => hW w (hm.subset hw), by rw [hf.2, ht, hs]⟩

/-- What hands over batches of a kind changes the content by their writes, also where a batch stops
half-way. -/
theorem of_submits [Storage σ] (hs : Storage.Orderly contents) {op : Op σ Unit}
    {P : Except Error (List Write) → Prop} (h : op.Submits contents c P)
    (hW : ∀ ws, P (.ok ws) → ∀ w ∈ ws, W w) : op.Edits contents c W := by
  intro s hc
  obtain ⟨e, s', -, hf, hs'⟩ | ⟨ws, hP, ⟨s', hr, hs'⟩ | ⟨e, s', made, hf, hm, hs'⟩⟩ :=
    h.returns_or_stops hs hc
  · exact ⟨[], nofun, by rw [hf.2, hs']; rfl⟩
  · exact ⟨ws, hW ws hP, by rw [hr.2, hs']⟩
  · exact ⟨made, fun w hw => hW ws hP w (hm.subset hw), by rw [hf.2, hs']⟩

/-- Changes one after the other. -/
theorem bind {op : Op σ α} {next : α → Op σ β} (h : op.Edits contents c W)
    (h' : ∀ a ws, (∀ w ∈ ws, W w) → (next a).Edits contents (c.applyAll ws) W) :
    (op >>= next).Edits contents c W := by
  intro s hs
  obtain ⟨ws, hW, hc⟩ := h s hs
  obtain ⟨a, t, hr⟩ | ⟨e, t, hf⟩ := returns_or_fails op s
  · rw [hr.2] at hc
    obtain ⟨ws', hW', hc'⟩ := h' a ws hW t hc
    refine ⟨ws ++ ws', by simpa [or_imp, forall_and] using ⟨hW, hW'⟩, ?_⟩
    rw [hr.state_bind, hc', Contents.applyAll_append]
  · rw [hf.2] at hc
    exact ⟨ws, hW, by rw [(hf.bind next).2, hc]⟩

/-- Changes after reading. -/
theorem views_bind {op : Op σ α} {next : α → Op σ β} {P : Except Error α → Prop}
    (h : op.Views contents c P) (h' : ∀ a, P (.ok a) → (next a).Edits contents c W) :
    (op >>= next).Edits contents c W := by
  intro s hs
  obtain ⟨hkeep, hP⟩ := h s hs
  obtain ⟨a, t, hr⟩ | ⟨e, t, hf⟩ := returns_or_fails op s
  · rw [hr.2] at hkeep
    rw [hr.1] at hP
    rw [hr.state_bind]
    exact h' a hP t hkeep
  · rw [hf.2] at hkeep
    exact ⟨[], nofun, by rw [(hf.bind next).2, hkeep]; rfl⟩

/-- The answer does not matter. -/
theorem map {op : Op σ α} (h : op.Edits contents c W) (f : α → β) :
    (op >>= fun a => Pure.pure (f a)).Edits contents c W := by
  intro s hs
  rw [Op.state_map]
  exact h s hs

/-- What no write of the kind is about stays, whatever becomes of the operation. -/
theorem get?_of_ne {op : Op σ α} {s : σ} (h : op.Edits contents (contents s) W) {k : String}
    (hW : ∀ w, W w → w.key ≠ k) :
    (contents (op.run s).state).get? k = (contents s).get? k := by
  obtain ⟨ws, hws, hc⟩ := h s rfl
  rw [hc]
  exact Contents.get?_applyAll_of_ne _ fun w hw => hW w (hws w hw)

end Op.Edits

/-! ## Answers and what they leave -/

/-- From every state with a content an operation answers, and the answer and the content it leaves
are related. -/
def Op.Brings (op : Op σ α) (contents : σ → Contents) (c : Contents)
    (Q : α → Contents → Prop) : Prop :=
  ∀ s, contents s = c → ∃ a s', op.Returns s a s' ∧ Q a (contents s')

namespace Op.Brings

variable {Q : α → Contents → Prop}

/-- What only reads and answers leaves the content. -/
theorem of_reads {op : Op σ α} (h : op.Reads contents c (Q · c)) : op.Brings contents c Q := by
  intro s hs
  obtain ⟨a, s', hr, hs', ha⟩ := h s hs
  exact ⟨a, s', hr, by rw [hs']; exact ha⟩

theorem pure {a : α} (h : Q a c) : (Pure.pure a : Op σ α).Brings contents c Q := of_reads (.pure h)

theorem mono {op : Op σ α} {Q' : α → Contents → Prop} (h : op.Brings contents c Q)
    (hQ : ∀ a c', Q a c' → Q' a c') : op.Brings contents c Q' := by
  intro s hs
  obtain ⟨a, s', hr, ha⟩ := h s hs
  exact ⟨a, s', hr, hQ _ _ ha⟩

/-- One operation after another: the second starts from the content that the first left. -/
theorem bind {op : Op σ α} {next : α → Op σ β} {R : β → Contents → Prop}
    (h : op.Brings contents c Q) (h' : ∀ a c', Q a c' → (next a).Brings contents c' R) :
    (op >>= next).Brings contents c R := by
  intro s hs
  obtain ⟨a, s₁, hr, ha⟩ := h s hs
  obtain ⟨b, s₂, hr', hb⟩ := h' a _ ha s₁ rfl
  exact ⟨b, s₂, hr.bind hr', hb⟩

/-- What is done after reading. -/
theorem reads_bind {op : Op σ α} {next : α → Op σ β} {P : α → Prop} {R : β → Contents → Prop}
    (h : op.Reads contents c P) (h' : ∀ a, P a → (next a).Brings contents c R) :
    (op >>= next).Brings contents c R := by
  intro s hs
  obtain ⟨a, s₁, hr, hs₁, ha⟩ := h s hs
  obtain ⟨b, s₂, hr', hb⟩ := h' a ha s₁ hs₁
  exact ⟨b, s₂, hr.bind hr', hb⟩

/-- What makes its writes leaves the content with them made. -/
theorem of_makes {op : Op σ Unit} {ws : List Write} {R : Unit → Contents → Prop}
    (h : op.Makes contents (fun _ => True) ws) (hR : R () (c.applyAll ws)) :
    op.Brings contents c R := by
  intro s hs
  obtain ⟨s', hr, -, hs'⟩ := h s trivial
  exact ⟨(), s', hr, by rw [hs', hs]; exact hR⟩

/-- Without errors in what is read, the batch is made, since a faithful storage refuses none. What
was handed over is then all that there is to know of what it left. -/
theorem of_submits [Storage σ] (hs : Storage.Faithful contents) {op : Op σ Unit}
    {P : Except Error (List Write) → Prop} (h : op.Submits contents c P) (hP : ∀ e, ¬P (.error e)) :
    op.Brings contents c fun _ c' => ∃ ws, P (.ok ws) ∧ c' = c.applyAll ws := by
  intro s hc
  obtain ⟨r, s₁, hr, hs₁, hend⟩ := h s hc
  cases r with
  | error e => exact absurd hr (hP e)
  | ok ws =>
      rcases hend with ⟨rfl, hret⟩ | halike
      · exact ⟨(), s₁, hret, [], hr, hs₁⟩
      · obtain ⟨t, hret, -, ht⟩ := hs.writeBatch ws s₁ trivial
        exact ⟨(), t, ⟨halike.result.trans hret.1, halike.state.trans hret.2⟩, ws, hr,
          by rw [ht, hs₁]⟩

end Op.Brings

/-- What only reads, and can read what is there, answers. -/
theorem Op.Views.reads {op : Op σ α} {P : Except Error α → Prop} {Q : α → Prop}
    (h : op.Views contents c P) (hPQ : ∀ r, P r → ∃ a, r = .ok a ∧ Q a) :
    op.Reads contents c Q := by
  intro s hs
  obtain ⟨hkeep, hP⟩ := h s hs
  obtain ⟨a, hr, ha⟩ := hPQ _ hP
  exact ⟨a, _, ⟨hr, rfl⟩, hkeep, ha⟩

end

end PeerBook
