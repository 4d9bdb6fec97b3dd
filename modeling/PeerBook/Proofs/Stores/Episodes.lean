import PeerBook.Proofs.Stores.Deeds

/-!
# PeerBook.Proofs.Stores.Episodes

A store in use by itself. In one episode after another a deed is done for a
handle, under the redirects of that moment, or a merge is followed, or keys of
others are written to the same storage. Whatever becomes of each episode, and
wherever it is cut short, the store stays well written (`Store.Written.after`).

Redirects and handles are arbitrary in every episode, so nothing is assumed about
the directory; an account is one way to use a store among others. What is to be
said about a run, and cannot be read off the storage, is written down beside it
(`Episode.chronicle`): each episode adds to it what depends on the state that it
finds.
-/

namespace PeerBook

/-- What is written under keys of one peer leaves those of every other. -/
theorem Op.Edits.get?_of_holds {σ α : Type} [Storage σ] {contents : σ → Contents} {op : Op σ α}
    {st : Store} {s : σ} {writer peer : PeerId} {key : String}
    (h : op.Edits contents (contents s) fun w => st.Holds writer w.key) (hne : peer ≠ writer)
    (hk : st.Holds peer key) : (contents (op.run s).state).get? key = (contents s).get? key :=
  h.get?_of_ne fun _ hw he => hne (hk.unique (he ▸ hw))

/-- An episode of a store: a deed for a handle, or a merge, or writes of others. -/
inductive Episode (st : Store) where
  | deed (redirects : Redirects) (i : PeerId) (deed : Deed st)
  | merge (surviving absorbed : PeerId)
  | others (ws : List Write) (apart : ∀ w ∈ ws, ¬st.Keeps w.key)

namespace Episode

variable {σ : Type} [Storage σ] {st : Store}

/-- What is done in an episode. -/
def perform : Episode st → Op σ Unit
  | deed redirects i d => d.perform redirects i
  | merge surviving absorbed => st.merge surviving absorbed
  | others ws _ => Storage.writeBatch ws

/-- The state of a storage after episodes in order, whatever becomes of each. -/
def after (episodes : List (Episode st)) (s : σ) : σ :=
  episodes.foldl (fun s episode => (episode.perform.run s).state) s

theorem after_append (made : List (Episode st)) (t : Episode st) (s : σ) :
    after (made ++ [t]) s = (t.perform.run (after made s)).state := by
  rw [after, List.foldl_append]
  rfl

/-- What is written down beside the storage along episodes in order, where each adds to it what
depends on the state that it finds. -/
def chronicle {γ : Type} (note : σ → γ → Episode st → γ) (s : σ) (g : γ)
    (episodes : List (Episode st)) : γ :=
  (episodes.foldl (fun (s, g) t => ((t.perform.run s).state, note s g t)) (s, g)).2

/-- What the last episode writes down depends on the state that it finds. -/
theorem chronicle_append {γ : Type} (note : σ → γ → Episode st → γ) (s : σ) (g : γ)
    (made : List (Episode st)) (t : Episode st) :
    chronicle note s g (made ++ [t]) = note (after made s) (chronicle note s g made) t := by
  have hstate : (made.foldl (fun (s, g) t => ((t.perform.run s).state, note s g t)) (s, g)).1 =
      after made s := by
    induction made generalizing s g with
    | nil => rfl
    | cons t made ih => exact ih _ _
  rw [chronicle, List.foldl_append, ← hstate]
  rfl

variable {contents : σ → Contents} {c : Contents}

/-- Writes of others leave the keys of the store. -/
theorem get?_others (hs : Storage.Ordered contents) {s : σ} {ws : List Write}
    (hapart : ∀ w ∈ ws, ¬st.Keeps w.key) {key : String} (hk : st.Keeps key) :
    (contents ((Storage.writeBatch ws : Op σ Unit).run s).state).get? key =
      (contents s).get? key := by
  have hedits : (Storage.writeBatch ws : Op σ Unit).Edits contents (contents s)
      fun w => ¬st.Keeps w.key := .of_writes (hs.writeBatch ws) hapart
  exact hedits.get?_of_ne fun w hw he => hw (he ▸ hk)

/-- **A store stays well written in an episode**, also in one that fails half-way: each single write
of it is admitted. -/
theorem perform_written (hs : Storage.Ordered contents) {s : σ}
    (h : st.Written (fun _ => True) (contents s)) (episode : Episode st) :
    st.Written (fun _ => True) (contents (episode.perform.run s).state) := by
  have hedits {op : Op σ Unit} {P : PeerId → Prop}
      (ho : op.Edits contents (contents s) (st.Admits P)) :
      st.Written (fun _ => True) (contents (op.run s).state) := by
    obtain ⟨ws, hws, hc⟩ := ho s rfl
    rw [hc]
    exact h.applyAll fun w hw => (hws w hw).mono fun _ _ => trivial
  cases episode with
  | deed redirects i d => exact hedits (d.perform_edits hs redirects i h)
  | merge surviving absorbed =>
      refine hedits (P := (· = surviving))
        (.of_submits hs.writeBatch (st.merge_submits hs.toLegible surviving absorbed) ?_)
      rintro ws ⟨keys, hk, hb⟩
      exact h.batch_admits hk hb.symm
  | others ws hapart =>
      have ho : (Storage.writeBatch ws : Op σ Unit).Edits contents (contents s)
          fun w => ¬st.Keeps w.key := .of_writes (hs.writeBatch ws) hapart
      obtain ⟨ws', hws, hc⟩ := ho s rfl
      rw [perform, hc]
      exact h.of_not_keeps hws

end Episode

namespace Store

variable {σ : Type} [Storage σ] {contents : σ → Contents} {st : Store} {s : σ}

/-- A store without keys is well written. -/
theorem written_of_vacant {live : PeerId → Prop} {c : Contents}
    (h : ∀ key, st.Keeps key → c.get? key = none) : st.Written live c := by
  intro key value hk hv
  rw [h key hk] at hv
  contradiction

/-- **A store stays well written from episode to episode.** -/
theorem Written.after (hs : Storage.Ordered contents) (episodes : List (Episode st))
    (h : st.Written (fun _ => True) (contents s)) :
    st.Written (fun _ => True) (contents (Episode.after episodes s)) := by
  induction episodes generalizing s with
  | nil => exact h
  | cons episode episodes ih => exact ih (episode.perform_written hs h)

end Store

end PeerBook
