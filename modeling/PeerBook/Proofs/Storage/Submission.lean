import PeerBook.Proofs.Storage.Healthy

/-!
# PeerBook.Proofs.Storage.Submission

Operations that read from a storage and then hand it one batch. What they read
is a function of the content (`Op.Views`), what they hand over is a list of
writes that the content determines up to the order of listings (`Op.Submits`),
and whatever becomes of the batch becomes of them
(`Op.Submits.returns_or_stops`). None of this depends on how a storage makes a
batch.

The part that a store takes in a merge has this shape, and so have most
operations of stores. One lemma for each says what it submits, and what becomes
of it on a storage that is atomic, stepwise or broken follows from the kind of
the storage. Reading may fail, since what is stored may not be what a store has
written; `Contents.json?` and `Contents.gather` are the content's side of
reading one value and several.
-/

namespace PeerBook

/-! ## Reading a content -/

namespace Contents

variable {α β κ : Type}

/-- The value that the JSON text under a key stands for. -/
def json? (c : Contents) (decoder : Json.Decoder α) (key : String) : Except Error (Option α) :=
  match c.get? key with
  | none => .ok none
  | some raw => ((Json.decode decoder raw).map some).mapError .json

/-- What is read depends on the text under the key alone. -/
theorem json?_congr {c c' : Contents} {decoder : Json.Decoder α} {key key' : String}
    (h : c'.get? key' = c.get? key) : c'.json? decoder key' = c.json? decoder key := by
  simp only [json?, h]

/-- Where there is no text there is no value, and no error. -/
theorem json?_of_none {c : Contents} {key : String} (h : c.get? key = none)
    (decoder : Json.Decoder α) : c.json? decoder key = .ok none := by
  simp [json?, h]

/-- A text that stands for a value is read as that. -/
theorem json?_of_decode {c : Contents} {decoder : Json.Decoder α} {key raw : String} {a : α}
    (h : c.get? key = some raw) (hd : Json.decode decoder raw = .ok a) :
    c.json? decoder key = .ok (some a) := by
  simp [json?, h, hd, Except.map]

/-- A value was read where a text stands for it. -/
theorem json?_eq_ok {c : Contents} {decoder : Json.Decoder α} {key : String} {a : α} :
    c.json? decoder key = .ok (some a) ↔
      ∃ raw, c.get? key = some raw ∧ Json.decode decoder raw = .ok a := by
  cases hraw : c.get? key with
  | none => simp [json?, hraw]
  | some raw => cases hd : Json.decode decoder raw <;> simp [json?, hraw, hd, Except.map]

/-- Where nothing was read, without an error, there is no text. -/
theorem get?_of_json?_none {c : Contents} {decoder : Json.Decoder α} {key : String}
    (h : c.json? decoder key = .ok none) : c.get? key = none := by
  cases hv : c.get? key with
  | none => rfl
  | some raw => cases hd : Json.decode decoder raw <;> simp [json?, hv, hd, Except.map] at h

/-- Values found for each of several keys, unless one cannot be read. -/
def gather (f : κ → Except Error (Option β)) : List κ → Except Error (List β)
  | [] => .ok []
  | k :: ks => do
    let b ← f k
    let bs ← gather f ks
    return b.toList ++ bs

/-- Where every key can be read, what is gathered are the values found, in order. -/
theorem gather_of_ok {f : κ → Except Error (Option β)} {g : κ → Option β} {keys : List κ}
    (h : ∀ k ∈ keys, f k = .ok (g k)) : gather f keys = .ok (keys.filterMap g) := by
  induction keys with
  | nil => rfl
  | cons k ks ih =>
      rw [List.forall_mem_cons] at h
      cases hg : g k <;> simp [gather, h.1, ih h.2, hg, bind, Except.bind, pure, Except.pure]

/-- Where every key can be read, something is gathered. -/
theorem exists_gather {f : κ → Except Error (Option β)} {keys : List κ}
    (h : ∀ k ∈ keys, ∃ b, f k = .ok b) : ∃ bs, gather f keys = .ok bs := by
  refine ⟨_, gather_of_ok (g := fun k => (f k).toOption.join) fun k hk => ?_⟩
  obtain ⟨b, hb⟩ := h k hk
  simp [hb, Except.toOption]

/-- Every key was read where something was gathered, and what was gathered are the values that were
found, in no particular order here. -/
theorem gather_eq_ok {f : κ → Except Error (Option β)} {keys : List κ} {bs : List β}
    (h : gather f keys = .ok bs) :
    (∀ k ∈ keys, ∃ b, f k = .ok b) ∧ ∀ b, b ∈ bs ↔ ∃ k ∈ keys, f k = .ok (some b) := by
  induction keys generalizing bs with
  | nil =>
      obtain rfl : [] = bs := Except.ok.inj h
      simp
  | cons k ks ih =>
      cases hk : f k with
      | error e => simp [gather, hk, bind, Except.bind] at h
      | ok b =>
          cases hks : gather f ks with
          | error e => simp [gather, hk, hks, bind, Except.bind] at h
          | ok bs' =>
              obtain rfl : b.toList ++ bs' = bs := by
                simpa [gather, hk, hks, bind, Except.bind, pure, Except.pure] using h
              obtain ⟨hall, hmem⟩ := ih hks
              refine ⟨by simpa [hk] using hall, fun b' => ?_⟩
              simp [hmem, hk, Option.mem_toList]

end Contents

section

variable {σ α β κ : Type} {contents : σ → Contents} {c : Contents}

/-- On every state with a content the operation leaves the content, and its result, which may be an
error, is of some kind. -/
def Op.Views (op : Op σ α) (contents : σ → Contents) (c : Contents)
    (P : Except Error α → Prop) : Prop :=
  ∀ s, contents s = c → contents (op.run s).state = c ∧ P (op.run s).result

namespace Op.Views

theorem pure (a : α) : (Pure.pure a : Op σ α).Views contents c (· = .ok a) :=
  fun _ hs => ⟨hs, rfl⟩

theorem note (level : Level) (text : String) :
    (Op.note level text).Views contents c (· = .ok ()) := fun _ hs => ⟨hs, rfl⟩

theorem ofExcept (r : Except Error α) : (Op.ofExcept r).Views contents c (· = r) := by
  intro s hs
  simp [hs]

theorem mono {op : Op σ α} {P Q : Except Error α → Prop} (h : op.Views contents c P)
    (hPQ : ∀ r, P r → Q r) : op.Views contents c Q :=
  fun s hs => ⟨(h s hs).1, hPQ _ (h s hs).2⟩

/-- What only reads and always answers. -/
theorem of_reads {op : Op σ α} {P : α → Prop} (h : op.Reads contents c P) :
    op.Views contents c fun r => ∃ a, r = .ok a ∧ P a := by
  intro s hs
  obtain ⟨a, s', hr, hs', ha⟩ := h s hs
  rw [hr.1, hr.2]
  exact ⟨hs', a, rfl, ha⟩

/-- What is read after an answer. An error of the first reading ends the sequence, so of the second
one something has to be known for answers only. -/
theorem bind {op : Op σ α} {next : α → Op σ β} {P : Except Error α → Prop}
    {Q : Except Error β → Prop} (h : op.Views contents c P)
    (hok : ∀ a, P (.ok a) → (next a).Views contents c Q) (herr : ∀ e, P (.error e) → Q (.error e)) :
    (op >>= next).Views contents c Q := by
  intro s hs
  obtain ⟨hkeep, hP⟩ := h s hs
  obtain ⟨a, s₁, hr⟩ | ⟨e, s₁, hf⟩ := returns_or_fails op s
  · rw [hr.1] at hP
    rw [hr.2] at hkeep
    rw [hr.state_bind, hr.result_bind]
    exact hok a hP s₁ hkeep
  · rw [hf.1] at hP
    rw [hf.2] at hkeep
    rw [(hf.bind next).1, (hf.bind next).2]
    exact ⟨hkeep, herr e hP⟩

/-- Readers whose results the content determines, one after the other. -/
theorem eq_bind {op : Op σ α} {next : α → Op σ β} {r : Except Error α}
    {f : α → Except Error β} (h : op.Views contents c (· = r))
    (hn : ∀ a, r = .ok a → (next a).Views contents c (· = f a)) :
    (op >>= next).Views contents c (· = r >>= f) := by
  refine h.bind (fun a ha => ?_) fun e he => ?_
  · rw [← ha]
    exact hn a ha.symm
  · rw [← he]
    rfl

/-- A batch made of what was read. -/
theorem eq_map {op : Op σ α} {r : Except Error α} (h : op.Views contents c (· = r)) (f : α → β) :
    (op >>= fun a => Pure.pure (f a)).Views contents c (· = r.map f) :=
  (h.eq_bind fun a _ => pure (f a)).mono fun r' hr => by
    rw [hr]
    cases r <;> rfl

variable [Storage σ]

theorem get (hs : Storage.Legible contents) (key : String) :
    (Storage.get key : Op σ _).Views contents c (· = .ok (c.get? key)) :=
  (of_reads (hs.get c key)).mono fun _ ⟨_, hr, ha⟩ => ha ▸ hr

theorem getJson (hs : Storage.Legible contents) (decoder : Json.Decoder α) (key : String) :
    (Storage.getJson decoder key : Op σ _).Views contents c (· = c.json? decoder key) := by
  refine (get hs key).bind (fun raw hraw => ?_) nofun
  obtain rfl := Except.ok.inj hraw
  unfold Contents.json?
  cases c.get? key with
  | none => exact pure none
  | some raw => exact ofExcept _

omit [Storage σ] in
/-- Reading for each of several keys gathers from the content what they have, up to the first
error. -/
theorem collect {f : κ → Op σ (Option β)} {g : κ → Except Error (Option β)}
    (h : ∀ k, (f k).Views contents c (· = g k)) (keys : List κ) :
    (Storage.collect f keys).Views contents c (· = Contents.gather g keys) := by
  induction keys with
  | nil => exact pure []
  | cons k ks ih => exact (h k).eq_bind fun b _ => ih.eq_bind fun bs _ => pure _

end Op.Views

/-- The keys with a prefix, in any order. -/
def Contents.Lists (c : Contents) (keyPrefix : String) (keys : List String) : Prop :=
  ∀ k, k ∈ keys ↔ k ∈ c.keysUnder keyPrefix

/-- The keys that are listed are those with a value that begin with the prefix. -/
theorem Contents.Lists.mem_iff {keyPrefix : String} {keys : List String}
    (h : c.Lists keyPrefix keys) {k : String} :
    k ∈ keys ↔ (∃ v, c.get? k = some v) ∧ Text.hasPrefix keyPrefix k = true := by
  rw [h k, mem_keysUnder]

/-! ## Handing over a batch -/

variable [Storage σ]

/-- From every state with a content an operation reads, and then fails with an error, or has
nothing to write, or does what its batch does. Error or batch are of some kind. -/
def Op.Submits (op : Op σ Unit) (contents : σ → Contents) (c : Contents)
    (P : Except Error (List Write) → Prop) : Prop :=
  ∀ s, contents s = c → ∃ r s₁, P r ∧ contents s₁ = c ∧
    match r with
    | .error e => op.Fails s e s₁
    | .ok ws => ws = [] ∧ op.Returns s () s₁ ∨
        (op.run s).Alike Eq ((Storage.writeBatch ws).run s₁)

namespace Op.Submits

variable {op : Op σ Unit} {P Q : Except Error (List Write) → Prop}

theorem nothing : (Pure.pure () : Op σ Unit).Submits contents c (· = .ok []) :=
  fun s hs => ⟨.ok [], s, rfl, hs, .inl ⟨rfl, returns_pure () s⟩⟩

/-- A batch hands over its writes. -/
theorem writeBatch (ws : List Write) :
    (Storage.writeBatch ws : Op σ Unit).Submits contents c (· = .ok ws) :=
  fun s hs => ⟨.ok ws, s, rfl, hs, .inr ⟨rfl, rfl⟩⟩

theorem mono (h : op.Submits contents c P) (hPQ : ∀ r, P r → Q r) : op.Submits contents c Q := by
  intro s hs
  obtain ⟨r, s₁, hr, h⟩ := h s hs
  exact ⟨r, s₁, hPQ r hr, h⟩

/-- A batch that is handed over after reading. An error of the reading ends the operation before
anything is written. -/
theorem bind {op : Op σ α} {next : α → Op σ Unit} {R : Except Error α → Prop}
    (h : op.Views contents c R) (hok : ∀ a, R (.ok a) → (next a).Submits contents c P)
    (herr : ∀ e, R (.error e) → P (.error e)) : (op >>= next).Submits contents c P := by
  intro s hs
  obtain ⟨hkeep, hR⟩ := h s hs
  obtain ⟨a, s₁, hr⟩ | ⟨e, s₁, hf⟩ := returns_or_fails op s
  · rw [hr.1] at hR
    rw [hr.2] at hkeep
    obtain ⟨r, s₂, hP, hs₂, hend⟩ := hok a hR s₁ hkeep
    refine ⟨r, s₂, hP, hs₂, ?_⟩
    cases r with
    | error e => exact hr.bind_fails hend
    | ok ws =>
        refine hend.imp (fun hend => ⟨hend.1, hr.bind hend.2⟩) fun hend => ⟨?_, ?_⟩
        · rw [hr.result_bind, hend.result]
        · rw [hr.state_bind, hend.state]
  · rw [hf.1] at hR
    rw [hf.2] at hkeep
    exact ⟨.error e, s₁, herr e hR, hkeep, hf.bind next⟩

/-- A batch that the content determines. -/
theorem eq_bind {op : Op σ α} {next : α → Op σ Unit} {r : Except Error α}
    {f : α → Except Error (List Write)} (h : op.Views contents c (· = r))
    (hn : ∀ a, r = .ok a → (next a).Submits contents c (· = f a)) :
    (op >>= next).Submits contents c (· = r >>= f) := by
  refine bind h (fun a ha => ?_) fun e he => ?_
  · rw [← ha]
    exact hn a ha.symm
  · rw [← he]
    rfl

theorem eq_map {op : Op σ α} {r : Except Error α} (h : op.Views contents c (· = r))
    (f : α → List Write) :
    (op >>= fun a => Storage.writeBatch (f a)).Submits contents c (· = r.map f) :=
  (eq_bind h fun a _ => writeBatch (f a)).mono fun r' hr => by
    rw [hr]
    cases r <;> rfl

/-- **What becomes of the batch becomes of the operation**: it returns with all writes made, or it
stops after the first of them. -/
theorem returns_or_stops (hs : Storage.Orderly contents) (h : op.Submits contents c P) {s : σ}
    (hc : contents s = c) :
    (∃ e s', P (.error e) ∧ op.Fails s e s' ∧ contents s' = c) ∨
      ∃ ws, P (.ok ws) ∧ ((∃ s', op.Returns s () s' ∧ contents s' = c.applyAll ws) ∨
        ∃ e s' made, op.Fails s e s' ∧ made <+: ws ∧ contents s' = c.applyAll made) := by
  obtain ⟨r, s₁, hP, hs₁, hend⟩ := h s hc
  cases r with
  | error e => exact .inl ⟨e, s₁, hP, hend, hs₁⟩
  | ok ws =>
      refine .inr ⟨ws, hP, ?_⟩
      rcases hend with ⟨rfl, hr⟩ | halike
      · exact .inl ⟨s₁, hr, hs₁⟩
      · have hend := hs ws s₁
        rw [hs₁] at hend
        obtain ⟨s', hr, hs'⟩ | ⟨e, s', made, hf, hm, hs'⟩ := hend
        · exact .inl ⟨s', ⟨halike.result.trans hr.1, halike.state.trans hr.2⟩, hs'⟩
        · exact .inr ⟨e, s', made, ⟨halike.result.trans hf.1, halike.state.trans hf.2⟩, hm, hs'⟩

/-- Where the operation returned the writes of its batch were made, all of them. -/
theorem of_returns (hs : Storage.Orderly contents) (h : op.Submits contents c P) {s s' : σ}
    (hc : contents s = c) (hr : op.Returns s () s') :
    ∃ ws, P (.ok ws) ∧ contents s' = c.applyAll ws := by
  obtain ⟨e, t, -, hf, -⟩ | ⟨ws, hP, ⟨t, hr', ht⟩ | ⟨e, t, made, hf, -⟩⟩ := h.returns_or_stops hs hc
  · exact absurd hr.1 (hf.not_ok ())
  · exact ⟨ws, hP, (hr.unique hr').2 ▸ ht⟩
  · exact absurd hr.1 (hf.not_ok ())

/-- On an atomic storage what fails leaves everything, whether reading failed or the batch. -/
theorem of_fails (hs : Storage.Atomic contents) (h : op.Submits contents c P) {s s' : σ}
    {e : Error} (hc : contents s = c) (hf : op.Fails s e s') : contents s' = c := by
  obtain ⟨r, s₁, -, hs₁, hend⟩ := h s hc
  cases r with
  | error e' => exact (hf.unique hend).2 ▸ hs₁
  | ok ws =>
      rcases hend with ⟨-, hr⟩ | halike
      · exact absurd hr.1 (hf.not_ok ())
      · obtain ⟨t, hr, -⟩ | ⟨e', t, hf', ht⟩ := hs.writeBatch ws s₁
        · exact absurd (halike.result.trans hr.1) (hf.not_ok ())
        · rw [← hf.2, halike.state, hf'.2, ht, hs₁]

end Op.Submits

end

end PeerBook
