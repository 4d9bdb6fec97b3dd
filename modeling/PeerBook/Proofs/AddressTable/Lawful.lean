import PeerBook.AddressTable
import PeerBook.Proofs.Peer.Lookup

/-!
# PeerBook.Proofs.AddressTable.Lawful

What it takes for a table of addresses to do what its operations say. A lawful
table is seen through `row`, the address under each handle; every operation is
one equation about that view, and an operation on a handle that has a row does
not fail. What is proved of a resolution on lawful tables holds of the plain
list of rows (`Rows`) and of a transaction alike.

- What a sound table finds is what its rows say (`finds_of_sound`): the peers
  that meet the request, each of them once.
- `changeAll` makes a list of changes one after another. Since the handles of
  the list are distinct, the order does not matter to the rows
  (`row_changeAll_of_mem`, `row_changeAll_of_not_mem`).
- Changes that are made in two goes are admitted part by part
  (`Admits.append_left`, `Admits.append_right`).

The last section shows that the plain table is lawful: it is sound as long as no
handle occurs twice and the next one not at all.
-/

namespace PeerBook

/-- The laws of a table of addresses. `change` sets or removes the address of a handle, `insert`
stores one under the handle `nextId`, and `Sound` says that `row` speaks for the table. -/
class LawfulAddressTable (τ : Type) extends AddressTable τ where
  row : τ → PeerId → Option Address
  nextId : τ → PeerId
  found : τ → Address → List Peer
  change : τ → PeerId → Option Address → τ
  insert : τ → Address → τ
  Sound : τ → Prop
  run_find (t : τ) (request : Address) :
    (AddressTable.find request).run t = ⟨.ok (found t request), t, []⟩
  run_add (t : τ) (a : Address) :
    (AddressTable.add a).run t = ⟨.ok (nextId t), insert t a, []⟩
  run_update {t : τ} {id : PeerId} (a : Address) :
    row t id ≠ none → (AddressTable.update id a).run t = ⟨.ok (), change t id (some a), []⟩
  run_remove {t : τ} {id : PeerId} :
    row t id ≠ none → (AddressTable.remove id).run t = ⟨.ok (), change t id none, []⟩
  row_nextId {t : τ} : Sound t → row t (nextId t) = none
  mem_found {t : τ} : Sound t → ∀ {request p},
    p ∈ found t request ↔ row t p.id = some p.address ∧ p.address.sharesWith request
  nodup_found {t : τ} : Sound t → ∀ request, ((found t request).map Peer.id).Nodup
  sound_change {t : τ} {id : PeerId} (x : Option Address) :
    Sound t → row t id ≠ none → Sound (change t id x)
  nextId_change (t : τ) (id : PeerId) (x : Option Address) : nextId (change t id x) = nextId t
  row_change {t : τ} {id : PeerId} (x : Option Address) :
    Sound t → row t id ≠ none → ∀ i, row (change t id x) i = if i = id then x else row t i
  row_insert {t : τ} (a : Address) :
    Sound t → ∀ i, row (insert t a) i = if i = nextId t then some a else row t i

namespace LawfulAddressTable

variable {τ : Type} [LawfulAddressTable τ]

/-! ## What is found -/

/-- Whether a table finds what its rows say: those that meet a request, each of them once. -/
structure Finds (t : τ) : Prop where
  mem_iff {request : Address} {p : Peer} :
    p ∈ found t request ↔ row t p.id = some p.address ∧ p.address.sharesWith request = true
  nodup (request : Address) : ((found t request).map Peer.id).Nodup

/-- A sound table finds what its rows say: this is one of the laws. -/
theorem finds_of_sound {t : τ} (ht : Sound t) : Finds t := ⟨mem_found ht, nodup_found ht⟩

/-- Where one row alone meets the request, it is what is found. What is found has no handle twice,
so a list with one member is all that is left. -/
theorem Finds.eq_singleton {t : τ} {request a : Address} {i : PeerId} (h : Finds t)
    (ha : row t i = some a) (hsh : a.sharesWith request = true)
    (honly : ∀ j b, row t j = some b → b.sharesWith request = true → j = i) :
    found t request = [⟨i, a⟩] := by
  have hn : (found t request).Nodup :=
    List.Pairwise.of_map Peer.id (fun p q hne he => hne (congrArg Peer.id he)) (h.nodup request)
  rw [← List.perm_singleton, List.perm_ext_iff_of_nodup hn (by simp)]
  rintro ⟨j, b⟩
  rw [h.mem_iff, List.mem_singleton]
  constructor
  · rintro ⟨hb, hs⟩
    obtain rfl := honly j b hb hs
    cases ha.symm.trans hb
    rfl
  · intro he
    cases he
    exact ⟨ha, hsh⟩

/-! ## Several changes -/

/-- Makes changes one after another. -/
def changeAll (t : τ) (cs : List (PeerId × Option Address)) : τ :=
  cs.foldl (fun t c => change t c.1 c.2) t

/-- Whether the handles of a list of changes are distinct and have rows. -/
def Admits (t : τ) (cs : List (PeerId × Option Address)) : Prop :=
  (cs.map Prod.fst).Nodup ∧ ∀ c ∈ cs, row t c.1 ≠ none

/-- After the first change of a list the others are still admitted. -/
theorem Admits.tail {t : τ} {c : PeerId × Option Address} {cs : List (PeerId × Option Address)}
    (ht : Sound t) (h : Admits t (c :: cs)) : Admits (change t c.1 c.2) cs := by
  obtain ⟨hn, hr⟩ := h
  rw [List.map_cons, List.nodup_cons] at hn
  refine ⟨hn.2, fun d hd => ?_⟩
  have hne : d.1 ≠ c.1 := fun he => hn.1 (he ▸ List.mem_map_of_mem hd)
  rw [row_change c.2 ht (hr c List.mem_cons_self), if_neg hne]
  exact hr d (List.mem_cons_of_mem c hd)

/-- Changes that are admitted keep a table sound. -/
theorem sound_changeAll {t : τ} {cs : List (PeerId × Option Address)} (ht : Sound t)
    (h : Admits t cs) : Sound (changeAll t cs) := by
  induction cs generalizing t with
  | nil => exact ht
  | cons c cs ih => exact ih (sound_change c.2 ht (h.2 c List.mem_cons_self)) (h.tail ht)

/-- Changes of rows do not touch the handle for the next one. -/
theorem nextId_changeAll (t : τ) (cs : List (PeerId × Option Address)) :
    nextId (changeAll t cs) = nextId t := by
  induction cs generalizing t with
  | nil => rfl
  | cons c cs ih => exact (ih (change t c.1 c.2)).trans (nextId_change t c.1 c.2)

/-- A handle that no change is about keeps its row. -/
theorem row_changeAll_of_not_mem {t : τ} {cs : List (PeerId × Option Address)} (ht : Sound t)
    (h : Admits t cs) {i : PeerId} (hi : i ∉ cs.map Prod.fst) :
    row (changeAll t cs) i = row t i := by
  induction cs generalizing t with
  | nil => rfl
  | cons c cs ih =>
      rw [List.map_cons, List.mem_cons, not_or] at hi
      have hc := h.2 c List.mem_cons_self
      have := ih (sound_change c.2 ht hc) (h.tail ht) hi.2
      rw [row_change c.2 ht hc, if_neg hi.1] at this
      exact this

/-- A handle has what its change gave it: there is one change about it, and no later one that could
undo it. -/
theorem row_changeAll_of_mem {t : τ} {cs : List (PeerId × Option Address)} (ht : Sound t)
    (h : Admits t cs) {i : PeerId} {x : Option Address} (hi : (i, x) ∈ cs) :
    row (changeAll t cs) i = x := by
  induction cs generalizing t with
  | nil => exact absurd hi List.not_mem_nil
  | cons c cs ih =>
      have hc := h.2 c List.mem_cons_self
      have hs := sound_change c.2 ht hc
      rcases List.mem_cons.mp hi with rfl | hi
      · have hn := (List.nodup_cons.mp h.1).1
        have := row_changeAll_of_not_mem hs (h.tail ht) hn
        rw [row_change _ ht hc, if_pos rfl] at this
        exact this
      · exact ih hs (h.tail ht) hi

/-- Two lists of changes are made one after the other. -/
theorem changeAll_append (t : τ) (cs ds : List (PeerId × Option Address)) :
    changeAll t (cs ++ ds) = changeAll (changeAll t cs) ds := List.foldl_append

/-- The first of two lists of changes is admitted if they are together. -/
theorem Admits.append_left {t : τ} {cs ds : List (PeerId × Option Address)}
    (h : Admits t (cs ++ ds)) : Admits t cs := by
  obtain ⟨hn, hr⟩ := h
  rw [List.map_append] at hn
  exact ⟨(List.nodup_append.mp hn).1, fun c hc => hr c (List.mem_append_left ds hc)⟩

/-- The second of two lists is admitted after the first: its handles still have rows, since no
change of the first list is about them. -/
theorem Admits.append_right {t : τ} {cs ds : List (PeerId × Option Address)} (ht : Sound t)
    (h : Admits t (cs ++ ds)) : Admits (changeAll t cs) ds := by
  induction cs generalizing t with
  | nil => exact h
  | cons c cs ih =>
      exact ih (sound_change c.2 ht (h.2 c List.mem_cons_self)) (h.tail ht)

end LawfulAddressTable

/-! ## The plain table -/

namespace Rows

/-- Sets or removes the address of a handle. -/
def change (rows : Rows) (id : PeerId) : Option Address → Rows
  | some a => rows.update id a
  | none => rows.remove id

/-- No handle occurs twice, and the next one not at all. -/
def Distinct (rows : Rows) : Prop :=
  (rows.peers.map Peer.id).Nodup ∧ rows.nextId ∉ rows.peers.map Peer.id

/-- Replacing the address of a handle keeps the handles. -/
theorem ids_update (rows : Rows) (id : PeerId) (a : Address) :
    (rows.update id a).peers.map Peer.id = rows.peers.map Peer.id := by
  rw [update, List.map_map]
  refine List.map_congr_left fun p _ => ?_
  rw [Function.comp_apply]
  split <;> rfl

/-- Removing a handle leaves the other peers in their order. -/
theorem ids_remove_sublist (rows : Rows) (id : PeerId) :
    ((rows.remove id).peers.map Peer.id).Sublist (rows.peers.map Peer.id) :=
  List.filter_sublist.map Peer.id

/-- Setting or removing an address keeps the handles distinct, and the next one free. -/
theorem distinct_change {rows : Rows} (h : rows.Distinct) (id : PeerId) (x : Option Address) :
    (rows.change id x).Distinct := by
  cases x with
  | some a =>
      show (rows.update id a).Distinct
      unfold Distinct
      rw [ids_update]
      exact h
  | none =>
      have hs := rows.ids_remove_sublist id
      exact ⟨h.1.sublist hs, fun hm => h.2 (hs.subset hm)⟩

/-- Who is in the plain table after an update: the handle has the new address, everybody else is as
before. -/
theorem mem_update {rows : Rows} {id i : PeerId} {a b : Address}
    (h : id ∈ rows.peers.map Peer.id) :
    ⟨i, b⟩ ∈ (rows.update id a).peers ↔ if i = id then b = a else ⟨i, b⟩ ∈ rows.peers := by
  rw [update, List.mem_map]
  split
  · rename_i hi
    constructor
    · rintro ⟨p, -, he⟩
      split at he
      · exact (congrArg Peer.address he).symm
      · rename_i hp
        exact absurd ((congrArg Peer.id he).trans hi) hp
    · rintro rfl
      obtain ⟨p, hp, hid⟩ := List.mem_map.mp h
      refine ⟨p, hp, ?_⟩
      rw [if_pos hid, hi, ← hid]
  · rename_i hi
    constructor
    · rintro ⟨p, hp, he⟩
      split at he
      · rename_i hid
        exact absurd ((congrArg Peer.id he).symm.trans hid) hi
      · exact he ▸ hp
    · intro hp
      exact ⟨_, hp, if_neg hi⟩

/-- Who is in the plain table after a removal: everybody but the handle. -/
theorem mem_remove {rows : Rows} {id i : PeerId} {b : Address} :
    ⟨i, b⟩ ∈ (rows.remove id).peers ↔ i ≠ id ∧ ⟨i, b⟩ ∈ rows.peers := by
  rw [remove, List.mem_filter, and_comm, bne_iff_ne]

/-- A change of a handle that has a row shows at that handle and nowhere else. A change of a handle
without a row does nothing in this table, so the assumption is needed. -/
theorem lookup_change {rows : Rows} (h : rows.Distinct) {id : PeerId} (x : Option Address)
    (hid : Peer.lookup rows.peers id ≠ none) (i : PeerId) :
    Peer.lookup (rows.change id x).peers i =
      if i = id then x else Peer.lookup rows.peers i := by
  have hm : id ∈ rows.peers.map Peer.id := by
    rw [ne_eq, Peer.lookup_eq_none_iff, Decidable.not_not] at hid
    exact hid
  apply Option.ext
  intro b
  rw [Peer.lookup_eq_some_iff (distinct_change h id x).1]
  cases x with
  | some a =>
      rw [change, mem_update hm]
      split
      · simp [eq_comm]
      · rw [Peer.lookup_eq_some_iff h.1]
  | none =>
      rw [change, mem_remove]
      split
      · simp_all
      · rename_i hi
        rw [Peer.lookup_eq_some_iff h.1, and_iff_right hi]

/-- The handle of an added peer occurs once, as it was free. -/
theorem nodup_add {rows : Rows} (h : rows.Distinct) (a : Address) :
    ((rows.add a).peers.map Peer.id).Nodup := by
  rw [add, List.map_append, List.nodup_append]
  refine ⟨h.1, by simp, fun j hj k hk hjk => h.2 ?_⟩
  have hk : k = rows.nextId := List.mem_singleton.mp hk
  rwa [← hk, ← hjk]

/-- An added peer is found under its handle, and the others as before. The handle was free, so the
row that is found there can only be the new one. -/
theorem lookup_add {rows : Rows} (h : rows.Distinct) (a : Address) (i : PeerId) :
    Peer.lookup (rows.add a).peers i =
      if i = rows.nextId then some a else Peer.lookup rows.peers i := by
  have hn := nodup_add h a
  apply Option.ext
  intro b
  rw [Peer.lookup_eq_some_iff hn, add, List.mem_append, List.mem_singleton]
  split
  · rename_i hi
    have hp : (⟨i, b⟩ : Peer) ∉ rows.peers := fun hp => h.2 (List.mem_map.mpr ⟨_, hp, hi⟩)
    rw [or_iff_right hp, hi, Peer.mk.injEq, Option.some.injEq]
    simp [eq_comm]
  · rename_i hi
    have hne : (⟨i, b⟩ : Peer) ≠ ⟨rows.nextId, a⟩ := fun he => hi (congrArg Peer.id he)
    rw [or_iff_left hne, Peer.lookup_eq_some_iff h.1]

/-- The peers that meet a request are those rows that share an identifier with it. -/
theorem mem_meeting {rows : Rows} (h : (rows.peers.map Peer.id).Nodup) {request : Address}
    {p : Peer} : p ∈ Peer.meeting rows.peers request ↔
      Peer.lookup rows.peers p.id = some p.address ∧ p.address.sharesWith request = true := by
  rw [Peer.meeting, List.mem_filter, Peer.lookup_eq_some_iff h]

/-- No peer meets a request twice. -/
theorem nodup_meeting {rows : Rows} (h : (rows.peers.map Peer.id).Nodup) (request : Address) :
    ((Peer.meeting rows.peers request).map Peer.id).Nodup :=
  h.sublist (List.filter_sublist.map Peer.id)

instance : LawfulAddressTable Rows where
  row rows := Peer.lookup rows.peers
  nextId := nextId
  found rows := Peer.meeting rows.peers
  change := change
  insert := add
  Sound := Distinct
  run_find rows request := run_find request rows
  run_add rows a := run_add a rows
  run_update a _ := run_update _ a _
  run_remove _ := run_remove _ _
  row_nextId h := Peer.lookup_eq_none_iff.mpr h.2
  mem_found h := mem_meeting h.1
  nodup_found h := nodup_meeting h.1
  sound_change x h _ := distinct_change h _ x
  nextId_change _ _ x := by cases x <;> rfl
  row_change x h hid := lookup_change h x hid
  row_insert a h := lookup_add h a

end Rows

end PeerBook
