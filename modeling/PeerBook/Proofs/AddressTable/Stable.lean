import PeerBook.Proofs.Directory.Overlay
import PeerBook.Proofs.PeerId.Order

/-!
# PeerBook.Proofs.AddressTable.Stable

Tables in which a change shows only to those who look for it. What a request
finds, and in which order, is not touched by changes to rows that the request
does not meet, before or after the change; and a new row leaves a sound table as
long as the handle after it is free. Both hold of the plain list of rows and of
a transaction.

Resolutions of unrelated requests commute on such tables: neither sees what the
other did. For a transaction, which answers by ascending handle, it is enough
that what is found depends on the rows that meet the request
(`meeting_peersOf_congr`); the plain table is gone through row by row.
-/

namespace PeerBook

/-- The laws of a lawful table whose look-ups are stable. -/
class StableAddressTable (τ : Type) extends LawfulAddressTable τ where
  found_change {t : τ} {id : PeerId} {x : Option Address} {request : Address} :
    Sound t → row t id ≠ none → (∀ a, row t id = some a → ¬a.sharesWith request = true) →
      (∀ a, x = some a → ¬a.sharesWith request = true) →
        found (change t id x) request = found t request
  found_insert {t : τ} {a request : Address} :
    Sound t → ¬a.sharesWith request = true → found (insert t a) request = found t request
  nextId_insert (t : τ) (a : Address) : nextId (insert t a) = (nextId t).next
  sound_insert {t : τ} (a : Address) :
    Sound t → row t (nextId t).next = none → Sound (insert t a)

open LawfulAddressTable StableAddressTable

/-- Changes that a request does not meet leave what it finds, by induction on their list. Each
change is about a handle of its own, so the rows of the later ones are still as they were. -/
theorem LawfulAddressTable.found_changeAll {τ : Type} [StableAddressTable τ] {t : τ}
    {request : Address} {cs : List (PeerId × Option Address)} (ht : Sound t) (h : Admits t cs)
    (hbefore : ∀ c ∈ cs, ∀ a, row t c.1 = some a → ¬a.sharesWith request = true)
    (hafter : ∀ c ∈ cs, ∀ a, c.2 = some a → ¬a.sharesWith request = true) :
    found (changeAll t cs) request = found t request := by
  induction cs generalizing t with
  | nil => rfl
  | cons c cs ih =>
      have hc := h.2 c List.mem_cons_self
      have hhead : found (change t c.1 c.2) request = found t request :=
        found_change ht hc (hbefore c List.mem_cons_self) (hafter c List.mem_cons_self)
      rw [← hhead]
      refine ih (sound_change c.2 ht hc) (h.tail ht) (fun d hd a ha => ?_)
        fun d hd => hafter d (List.mem_cons_of_mem c hd)
      -- the other changes are about other handles
      have hne : d.1 ≠ c.1 := by
        intro he
        have hn := (List.nodup_cons.mp h.1).1
        exact hn (he ▸ List.mem_map_of_mem hd)
      rw [row_change c.2 ht hc, if_neg hne] at ha
      exact hbefore d (List.mem_cons_of_mem c hd) a ha

/-! ## The plain table -/

namespace Rows

variable {rows : Rows} {request : Address} {id : PeerId}

/-- An update between addresses that the request does not meet leaves what it finds, also where the
handle is not in the table at all. -/
theorem meeting_update {a : Address} (ha : ¬a.sharesWith request = true)
    (h : ∀ p ∈ rows.peers, p.id = id → ¬p.address.sharesWith request = true) :
    Peer.meeting (rows.update id a).peers request = Peer.meeting rows.peers request := by
  unfold update Peer.meeting
  dsimp only
  generalize rows.peers = ps at h ⊢
  induction ps with
  | nil => rfl
  | cons p ps ih =>
      have hps := ih fun q hq => h q (List.mem_cons_of_mem p hq)
      rw [List.map_cons, List.filter_cons, List.filter_cons, hps]
      by_cases hp : p.id = id
      · rw [if_pos hp, if_neg ha, if_neg (h p List.mem_cons_self hp)]
      · rw [if_neg hp]

/-- The removal of a row that the request does not meet leaves what it finds. -/
theorem meeting_remove
    (h : ∀ p ∈ rows.peers, p.id = id → ¬p.address.sharesWith request = true) :
    Peer.meeting (rows.remove id).peers request = Peer.meeting rows.peers request := by
  unfold remove Peer.meeting
  rw [List.filter_filter]
  refine List.filter_congr fun p hp => ?_
  rw [Bool.and_eq_left_iff_imp, bne_iff_ne]
  exact fun hsh hid => h p hp hid hsh

/-- A new row that the request does not meet leaves what it finds. -/
theorem meeting_add {a : Address} (ha : ¬a.sharesWith request = true) :
    Peer.meeting (rows.add a).peers request = Peer.meeting rows.peers request := by
  simp [add, Peer.meeting, List.filter_append, ha]

/-- The plain table stays sound after an addition, if the handle after the new one is free. -/
theorem distinct_add {rows : Rows} (h : rows.Distinct) (a : Address)
    (hfree : rows.nextId.next ∉ rows.peers.map Peer.id) : (rows.add a).Distinct := by
  have hne := rows.nextId.next_ne
  refine ⟨nodup_add h a, ?_⟩
  rw [add, List.map_append, List.mem_append, not_or]
  exact ⟨hfree, fun hm => hne (List.mem_singleton.mp hm)⟩

instance : StableAddressTable Rows where
  found_change {rows id x request} h hid hbefore hafter := by
    have hrow : ∀ p ∈ rows.peers, p.id = id → ¬p.address.sharesWith request = true := by
      rintro p hp rfl
      exact hbefore p.address ((Peer.lookup_eq_some_iff h.1).mpr hp)
    cases x with
    | some a => exact meeting_update (hafter a rfl) hrow
    | none => exact meeting_remove hrow
  found_insert _ ha := meeting_add ha
  nextId_insert _ _ := rfl
  sound_insert a h hfree := distinct_add h a (Peer.lookup_eq_none_iff.mp hfree)

end Rows

/-! ## Transactions -/

namespace Directory

/-- The peers that meet a request are the rows that do, by ascending handle. -/
theorem meeting_peersOf (rows : Table PeerId Address) (request : Address) :
    Peer.meeting (peersOf rows) request =
      peersOf (rows.filter fun _ a => a.sharesWith request) := by
  unfold Peer.meeting peersOf
  rw [List.filter_map]
  rfl

/-- What is found depends on the rows that meet the request only. -/
theorem meeting_peersOf_congr {rows rows' : Table PeerId Address} {request : Address}
    (h : ∀ i, (rows'.get? i).filter (·.sharesWith request) =
      (rows.get? i).filter (·.sharesWith request)) :
    Peer.meeting (peersOf rows') request = Peer.meeting (peersOf rows) request := by
  rw [meeting_peersOf, meeting_peersOf]
  refine congrArg peersOf (Table.ext_get? fun i => ?_)
  rw [Table.get?_filter, Table.get?_filter]
  exact h i

end Directory

namespace Transaction

variable {tx : Transaction} {request : Address}

/-- A change that the request does not meet leaves what it finds. -/
theorem meeting_change {tx : Transaction} {id : PeerId} {x : Option Address}
    (hbefore : ∀ a, tx.rows.get? id = some a → ¬a.sharesWith request = true)
    (hafter : ∀ a, x = some a → ¬a.sharesWith request = true) :
    Peer.meeting (Directory.peersOf (tx.change id x).rows) request =
      Peer.meeting (Directory.peersOf tx.rows) request := by
  refine Directory.meeting_peersOf_congr fun i => ?_
  rw [get?_rows_change]
  split
  · rename_i hi
    rw [hi, Option.filter_eq_none_iff.mpr hafter, Option.filter_eq_none_iff.mpr hbefore]
  · rfl

instance : StableAddressTable Transaction where
  found_change _ _ hbefore hafter := meeting_change hbefore hafter
  found_insert {tx a request} h ha := by
    let raised : Transaction := { tx with lastId := tx.lastId.next }
    have hnone : raised.rows.get? tx.lastId.next = none := h
    have hbefore : ∀ b, raised.rows.get? tx.lastId.next = some b →
        ¬b.sharesWith request = true := by
      rw [hnone]
      exact nofun
    have hafter : ∀ b, some a = some b → ¬b.sharesWith request = true := by
      intro b hb
      cases hb
      exact ha
    exact meeting_change hbefore hafter
  nextId_insert _ _ := rfl
  sound_insert {tx} a _ hfree := by
    have hne : tx.lastId.next.next ≠ tx.lastId.next := tx.lastId.next.next_ne
    show (tx.insert a).rows.get? tx.lastId.next.next = none
    rw [insert, get?_rows_change, if_neg hne]
    exact hfree

end Transaction

end PeerBook
