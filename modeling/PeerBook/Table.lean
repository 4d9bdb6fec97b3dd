/-!
# PeerBook.Table

Finite tables with ascending keys. A table is its list of entries, so two
tables with the same look-ups are equal (`Table.ext_get?`), and reading the
entries in order is reading them by ascending key.

- Every operation is pinned down by what `Table.get?` answers after it:
  `get?_insert`, `get?_filter`, `get?_erase`, `get?_overlay`, `get?_insertAll`.
- `Table.insert` keeps the entries ascending (`sorted_insertEntry`), and so does
  every filter (`sorted_filter`); the invariant is a field of the structure.
- `Table.ofList_eq` recovers a table from its entries in any order, which is
  what reading it back from an unordered listing needs.
-/

namespace PeerBook

/-- A finite map from keys to values, as its entries in strictly ascending order of the keys. -/
structure Table (κ ν : Type) [Ord κ] where
  entries : List (κ × ν)
  sorted : entries.Pairwise fun a b => compare a.1 b.1 = .lt

namespace Table

variable {κ ν : Type} [Ord κ]

instance [DecidableEq κ] [DecidableEq ν] : DecidableEq (Table κ ν) := fun s t =>
  if h : s.entries = t.entries then
    isTrue (by cases s; cases t; simp_all)
  else
    isFalse fun hst => h (hst ▸ rfl)

/-- A table is the list of its entries: the proof that they ascend adds nothing. -/
theorem eq_of_entries {s t : Table κ ν} (h : s.entries = t.entries) : s = t := by
  cases s; cases t; simp_all

/-! ## Operations -/

/-- The table without entries. -/
def empty : Table κ ν := ⟨[], .nil⟩

instance : EmptyCollection (Table κ ν) := ⟨empty⟩

instance : Inhabited (Table κ ν) := ⟨empty⟩

/-- The value stored under a key. -/
def get? (t : Table κ ν) (k : κ) : Option ν :=
  (t.entries.find? fun e => compare e.1 k == .eq).map (·.2)

/-- Whether a key is present. -/
def contains (t : Table κ ν) (k : κ) : Bool := (t.get? k).isSome

/-- The keys, ascending. -/
def keys (t : Table κ ν) : List κ := t.entries.map (·.1)

/-- The values, by ascending key. -/
def values (t : Table κ ν) : List ν := t.entries.map (·.2)

/-- The number of entries. -/
def size (t : Table κ ν) : Nat := t.entries.length

/-- Puts an entry at its place in a list with ascending keys. -/
def insertEntry (k : κ) (v : ν) : List (κ × ν) → List (κ × ν)
  | [] => [(k, v)]
  | e :: es =>
    match compare k e.1 with
    | .lt => (k, v) :: e :: es
    | .eq => (k, v) :: es
    | .gt => e :: insertEntry k v es

/-- What stands in the list after an insertion is the new entry or stood there before. The other
direction fails for the entry that is replaced, which is why `get?_insert` goes by keys. -/
theorem mem_insertEntry {k : κ} {v : ν} {es : List (κ × ν)} {e : κ × ν}
    (h : e ∈ insertEntry k v es) : e = (k, v) ∨ e ∈ es := by
  induction es with
  | nil => simpa [insertEntry] using h
  | cons f fs ih =>
    unfold insertEntry at h
    split at h
    · simpa using h
    · rcases List.mem_cons.mp h with h | h <;> simp [h]
    · rcases List.mem_cons.mp h with h | h
      · simp [h]
      · rcases ih h with h | h <;> simp [h]

variable [Std.TransOrd κ]

/-- Putting an entry at its place keeps the keys strictly ascending: an entry with the same key is
replaced, never repeated. -/
theorem sorted_insertEntry {k : κ} {v : ν} {es : List (κ × ν)}
    (h : es.Pairwise fun a b => compare a.1 b.1 = .lt) :
    (insertEntry k v es).Pairwise fun a b => compare a.1 b.1 = .lt := by
  induction es with
  | nil => simp [insertEntry]
  | cons e es ih =>
    obtain ⟨he, hes⟩ := List.pairwise_cons.mp h
    unfold insertEntry
    split
    · rename_i hlt
      refine List.pairwise_cons.mpr ⟨fun f hf => ?_, h⟩
      rcases List.mem_cons.mp hf with rfl | hf
      · exact hlt
      · exact Std.TransCmp.lt_trans hlt (he f hf)
    · rename_i heq
      exact List.pairwise_cons.mpr
        ⟨fun f hf => Std.TransCmp.lt_of_eq_of_lt heq (he f hf), hes⟩
    · rename_i hgt
      refine List.pairwise_cons.mpr ⟨fun f hf => ?_, ih hes⟩
      rcases mem_insertEntry hf with rfl | hf
      · exact Std.OrientedCmp.lt_of_gt hgt
      · exact he f hf

/-- The table with a value stored under a key, in place of the one before. -/
def insert (t : Table κ ν) (k : κ) (v : ν) : Table κ ν :=
  ⟨insertEntry k v t.entries, sorted_insertEntry t.sorted⟩

omit [Std.TransOrd κ] in
/-- Leaving entries out keeps the keys ascending. -/
theorem sorted_filter {es : List (κ × ν)} (h : es.Pairwise fun a b => compare a.1 b.1 = .lt)
    (p : κ × ν → Bool) : (es.filter p).Pairwise fun a b => compare a.1 b.1 = .lt :=
  h.sublist List.filter_sublist

/-- The entries that pass a test. -/
def filter (t : Table κ ν) (p : κ → ν → Bool) : Table κ ν :=
  ⟨t.entries.filter fun e => p e.1 e.2, sorted_filter t.sorted _⟩

/-- The table without a key. -/
def erase (t : Table κ ν) (k : κ) : Table κ ν :=
  t.filter fun k' _ => compare k' k != .eq

/-- Stores the pairs of a list one after another. -/
def insertAll (t : Table κ ν) (es : List (κ × ν)) : Table κ ν :=
  es.foldl (fun t e => t.insert e.1 e.2) t

/-- The table of a list of pairs; of two pairs with one key the later counts. -/
def ofList (es : List (κ × ν)) : Table κ ν := empty.insertAll es

/-- Makes the changes that another table lists: a new value, or none to remove the key. -/
def overlay (t : Table κ ν) (changes : Table κ (Option ν)) : Table κ ν :=
  changes.entries.foldl
    (fun t e =>
      match e.2 with
      | some v => t.insert e.1 v
      | none => t.erase e.1)
    t

/-! ## Look-ups after each operation -/

variable [Std.LawfulEqOrd κ]

omit [Std.TransOrd κ] [Std.LawfulEqOrd κ] in
@[simp] theorem get?_empty (k : κ) : (∅ : Table κ ν).get? k = none := rfl

omit [Std.TransOrd κ] [Std.LawfulEqOrd κ] in
/-- The empty table has no entries. -/
@[simp] theorem entries_empty : (∅ : Table κ ν).entries = [] := rfl

omit [Std.LawfulEqOrd κ] in
/-- A search ends with nothing once every key left is greater than the one sought. -/
theorem find?_eq_none_of_lt {k : κ} {es : List (κ × ν)}
    (h : ∀ e ∈ es, compare k e.1 = .lt) : es.find? (fun e => compare e.1 k == .eq) = none := by
  simp only [List.find?_eq_none, beq_iff_eq]
  intro e he heq
  have := h e he
  rw [Std.OrientedCmp.eq_symm heq] at this
  contradiction

omit [Std.TransOrd κ] in
/-- A key is looked up among the entries: keys are distinct, so the first hit is the only one. From
here on a look-up can be read as membership. -/
theorem get?_eq_some_iff {t : Table κ ν} {k : κ} {v : ν} :
    t.get? k = some v ↔ (k, v) ∈ t.entries := by
  obtain ⟨es, hs⟩ := t
  simp only [get?]
  induction es with
  | nil => simp
  | cons e es ih =>
    obtain ⟨he, hes⟩ := List.pairwise_cons.mp hs
    have ih := ih hes
    by_cases hk : compare e.1 k = .eq
    · have hke := Std.LawfulEqCmp.eq_of_compare hk
      subst hke
      have hn : (e.1, v) ∉ es := fun hm => by
        have := he _ hm
        simp at this
      constructor
      · intro h
        simp only [List.find?_cons, hk, beq_self_eq_true, Option.map_some, Option.some.injEq] at h
        simp [← h]
      · intro h
        rcases List.mem_cons.mp h with h | h
        · obtain rfl : v = e.2 := congrArg Prod.snd h
          simp
        · exact absurd h hn
    · have hne : (k, v) ≠ e := fun h => hk (by simp [← h])
      simp [hk, ih, hne]

/-- After an insertion its key has the new value, and every other key what it had. This and
`get?_filter` are proved of the list of entries; all other operations come down to the two. -/
theorem get?_insert (t : Table κ ν) (k : κ) (v : ν) (k' : κ) [DecidableEq κ] :
    (t.insert k v).get? k' = if k' = k then some v else t.get? k' := by
  obtain ⟨es, hs⟩ := t
  simp only [get?, insert]
  induction es with
  | nil =>
    by_cases h : k' = k
    · subst h; simp [insertEntry]
    · have : compare k k' ≠ .eq := fun hc => h (Std.LawfulEqCmp.eq_of_compare hc).symm
      simp [insertEntry, h, this]
  | cons e es ih =>
    obtain ⟨he, hes⟩ := List.pairwise_cons.mp hs
    have ih := ih hes
    unfold insertEntry
    by_cases h : k' = k
    · subst h
      simp only [if_true] at ih ⊢
      split
      · simp
      · simp
      · rename_i hgt
        have : compare e.1 k' ≠ .eq := fun hc => by
          rw [Std.OrientedCmp.eq_symm hc] at hgt
          contradiction
        simpa [List.find?_cons, this] using ih
    · have hne : compare k k' ≠ .eq := fun hc => h (Std.LawfulEqCmp.eq_of_compare hc).symm
      simp only [if_neg h] at ih ⊢
      split
      · simp [List.find?_cons, hne]
      · rename_i heq
        have hke := Std.LawfulEqCmp.eq_of_compare heq
        have : compare e.1 k' ≠ .eq := by rw [← hke]; exact hne
        simp [hne, this]
      · by_cases hek : compare e.1 k' = .eq
        · simp [hek]
        · simpa [List.find?_cons, hek] using ih

@[simp] theorem get?_insert_self (t : Table κ ν) (k : κ) (v : ν) :
    (t.insert k v).get? k = some v := by
  classical
  simp [get?_insert]

theorem get?_insert_of_ne (t : Table κ ν) {k k' : κ} (v : ν) (h : k' ≠ k) :
    (t.insert k v).get? k' = t.get? k' := by
  classical
  simp [get?_insert, h]

omit [Std.TransOrd κ] in
/-- A filter keeps the value of a key when the two pass the test. -/
theorem get?_filter (t : Table κ ν) (p : κ → ν → Bool) (k : κ) :
    (t.filter p).get? k = (t.get? k).filter (p k) := by
  apply Option.ext
  intro v
  simp [get?_eq_some_iff, filter, Option.filter_eq_some_iff]

omit [Std.TransOrd κ] in
/-- After an erasure its key has no value, and every other key what it had. -/
theorem get?_erase (t : Table κ ν) (k k' : κ) [DecidableEq κ] :
    (t.erase k).get? k' = if k' = k then none else t.get? k' := by
  rw [erase, get?_filter]
  by_cases h : k' = k
  · subst h; simp
  · have : compare k' k ≠ .eq := fun hc => h (Std.LawfulEqCmp.eq_of_compare hc)
    cases t.get? k' <;> simp [h, this]

omit [Std.TransOrd κ] in
@[simp] theorem get?_erase_self (t : Table κ ν) (k : κ) : (t.erase k).get? k = none := by
  classical
  simp [get?_erase]

omit [Std.TransOrd κ] in
theorem get?_erase_of_ne (t : Table κ ν) {k k' : κ} (h : k' ≠ k) :
    (t.erase k).get? k' = t.get? k' := by
  classical
  simp [get?_erase, h]

omit [Std.TransOrd κ] in
/-- A key is among the keys when a value is stored under it. -/
theorem mem_keys_iff {t : Table κ ν} {k : κ} : k ∈ t.keys ↔ ∃ v, t.get? k = some v := by
  simp [keys, get?_eq_some_iff]

/-- Under an overlay a key has the value of its change, if it has one: the new value, or none where
the change removes the key. -/
theorem get?_overlay (t : Table κ ν) (changes : Table κ (Option ν)) (k : κ) :
    (t.overlay changes).get? k =
      match changes.get? k with
      | some change => change
      | none => t.get? k := by
  classical
  obtain ⟨es, hs⟩ := changes
  simp only [overlay]
  induction es generalizing t with
  | nil => rfl
  | cons e es ih =>
    obtain ⟨he, hes⟩ := List.pairwise_cons.mp hs
    have ih := fun t => ih t hes
    simp only [List.foldl_cons]
    rw [ih]
    by_cases hk : e.1 = k
    · subst hk
      have hn : (⟨es, hes⟩ : Table κ (Option ν)).get? e.1 = none := by
        simp only [get?, Option.map_eq_none_iff]
        exact find?_eq_none_of_lt he
      have hh : (⟨e :: es, hs⟩ : Table κ (Option ν)).get? e.1 = some e.2 := by simp [get?]
      rw [hn, hh]
      obtain ⟨k, _ | v⟩ := e <;> simp
    · have hc : (compare e.1 k == .eq) = false := by
        simpa using fun h : compare e.1 k = .eq => hk (Std.LawfulEqCmp.eq_of_compare h)
      have hg : (⟨e :: es, hs⟩ : Table κ (Option ν)).get? k =
          (⟨es, hes⟩ : Table κ (Option ν)).get? k := by
        simp [get?, hc]
      rw [hg]
      cases (⟨es, hes⟩ : Table κ (Option ν)).get? k with
      | some change => rfl
      | none =>
        obtain ⟨k', _ | v⟩ := e
        · exact get?_erase_of_ne t (fun h => hk h.symm)
        · exact get?_insert_of_ne t v (fun h => hk h.symm)

/-- After pairs that agree on a key were stored, the key has their value if it is among them, and
what it had before if not. Nothing is asked of the pairs about other keys. -/
theorem get?_insertAll (t : Table κ ν) (es : List (κ × ν)) {k : κ} {v : Option ν} [DecidableEq κ]
    (h : ∀ e ∈ es, e.1 = k → some e.2 = v) :
    (t.insertAll es).get? k = if k ∈ es.map Prod.fst then v else t.get? k := by
  induction es generalizing t with
  | nil => rfl
  | cons e es ih =>
    have hi : t.insertAll (e :: es) = (t.insert e.1 e.2).insertAll es := rfl
    have ht : ∀ e' ∈ es, e'.1 = k → some e'.2 = v :=
      fun e' he' => h e' (List.mem_cons_of_mem e he')
    rw [hi, ih _ ht, get?_insert]
    by_cases hk : k = e.1
    · have hv : some e.2 = v := h e List.mem_cons_self hk.symm
      simp [hk, hv]
    · simp only [List.map_cons, List.mem_cons, hk, false_or, if_false]

/-- After pairs were stored one after another there are their keys beside the old ones; no key goes,
whatever values were replaced. -/
theorem mem_keys_insertAll (t : Table κ ν) (es : List (κ × ν)) {k : κ} :
    k ∈ (t.insertAll es).keys ↔ k ∈ t.keys ∨ k ∈ es.map Prod.fst := by
  classical
  induction es generalizing t with
  | nil => exact ⟨.inl, fun h => h.resolve_right List.not_mem_nil⟩
  | cons e es ih =>
    have hi : t.insertAll (e :: es) = (t.insert e.1 e.2).insertAll es := rfl
    have hk : k ∈ (t.insert e.1 e.2).keys ↔ k = e.1 ∨ k ∈ t.keys := by
      rw [mem_keys_iff, mem_keys_iff, get?_insert]
      by_cases h : k = e.1 <;> simp [h]
    rw [hi, ih, hk, List.map_cons, List.mem_cons]
    exact ⟨by grind, by grind⟩

/-- The table of a list of pairs has the keys of the list and no others. -/
theorem mem_keys_ofList {es : List (κ × ν)} {k : κ} :
    k ∈ (ofList es).keys ↔ k ∈ es.map Prod.fst := by
  rw [ofList, mem_keys_insertAll]
  exact ⟨fun h => h.resolve_left List.not_mem_nil, .inr⟩

/-! ## Tables are determined by their look-ups -/

omit [Std.LawfulEqOrd κ] in
/-- An entry whose key is less than all those of a list is not in the list. -/
theorem not_mem_of_lt {e : κ × ν} {es : List (κ × ν)}
    (h : ∀ f ∈ es, compare e.1 f.1 = .lt) : e ∉ es := fun hm => by
  have := h e hm
  simp at this

omit [Std.LawfulEqOrd κ] in
/-- Two ascending lists with the same members are equal, by induction on both: the heads are the
least members. -/
theorem eq_of_sorted_of_mem_iff {es fs : List (κ × ν)}
    (hes : es.Pairwise fun a b => compare a.1 b.1 = .lt)
    (hfs : fs.Pairwise fun a b => compare a.1 b.1 = .lt)
    (h : ∀ e, e ∈ es ↔ e ∈ fs) : es = fs := by
  induction es generalizing fs with
  | nil =>
    cases fs with
    | nil => rfl
    | cons f fs => exact absurd ((h f).mpr (by simp)) (by simp)
  | cons e es ih =>
    cases fs with
    | nil => exact absurd ((h e).mp (by simp)) (by simp)
    | cons f fs =>
      obtain ⟨he, hes'⟩ := List.pairwise_cons.mp hes
      obtain ⟨hf, hfs'⟩ := List.pairwise_cons.mp hfs
      have hef : e = f := by
        rcases List.mem_cons.mp ((h e).mp (by simp)) with h₁ | h₁
        · exact h₁
        · rcases List.mem_cons.mp ((h f).mpr (by simp)) with h₂ | h₂
          · exact h₂.symm
          · have h₃ := Std.OrientedCmp.gt_of_lt (hf e h₁)
            rw [he f h₂] at h₃
            contradiction
      subst hef
      refine congrArg (e :: ·) (ih hes' hfs' fun g => ?_)
      constructor
      · intro hg
        rcases List.mem_cons.mp ((h g).mp (by simp [hg])) with rfl | hg'
        · exact absurd hg (not_mem_of_lt he)
        · exact hg'
      · intro hg
        rcases List.mem_cons.mp ((h g).mpr (by simp [hg])) with rfl | hg'
        · exact absurd hg (not_mem_of_lt hf)
        · exact hg'

/-- Tables that answer every look-up alike are equal: there is one ascending list for each
function. -/
theorem ext_get? {s t : Table κ ν} (h : ∀ k, s.get? k = t.get? k) : s = t := by
  refine eq_of_entries (eq_of_sorted_of_mem_iff s.sorted t.sorted fun ⟨k, v⟩ => ?_)
  rw [← get?_eq_some_iff, ← get?_eq_some_iff, h]

/-- A table is that of every list that has its entries and no others, in whatever order and however
often. This is how a table is recovered from a listing of a storage. -/
theorem ofList_eq {t : Table κ ν} {es : List (κ × ν)}
    (h : ∀ k v, (k, v) ∈ es ↔ t.get? k = some v) : ofList es = t := by
  classical
  refine ext_get? fun k => ?_
  have hv : ∀ e ∈ es, e.1 = k → some e.2 = t.get? k := by
    rintro ⟨k', v⟩ he rfl
    exact ((h k' v).mp he).symm
  have hi : (ofList es).get? k = if k ∈ es.map Prod.fst then t.get? k else none :=
    get?_insertAll empty es hv
  rw [hi]
  split
  · rfl
  · rename_i hk
    cases ht : t.get? k with
    | none => rfl
    | some v => exact absurd (List.mem_map.mpr ⟨(k, v), (h k v).mpr ht, rfl⟩) hk

omit [Std.TransOrd κ] in
/-- No key occurs twice, as the keys ascend strictly. -/
theorem nodup_keys (t : Table κ ν) : t.keys.Nodup := by
  refine List.pairwise_map.mpr (t.sorted.imp ?_)
  intro a b h hab
  simp [hab] at h

end Table

end PeerBook
