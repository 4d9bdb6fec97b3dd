import PeerBook.Peer

/-!
# PeerBook.Proofs.Peer.Lookup

Looking up the address of a handle in a list of peers. Where no handle occurs
twice the look-up and membership say the same (`lookup_eq_some_iff`), so a peer
of the list is determined by its handle.

Lists of peers are what tables of addresses answer; a look-up turns such a list
into a function of the handle, which is how rows are spoken of in the proofs.
-/

namespace PeerBook.Peer

/-- The address of the first peer with a given handle. -/
def lookup (ps : List Peer) (id : PeerId) : Option Address :=
  (ps.find? (·.id = id)).map (·.address)

/-- Where no handle occurs twice, a look-up finds the peers of the list, each under its handle. In
general it finds the first one of a handle only. -/
theorem lookup_eq_some_iff {ps : List Peer} (h : (ps.map Peer.id).Nodup) {i : PeerId}
    {a : Address} : lookup ps i = some a ↔ ⟨i, a⟩ ∈ ps := by
  induction ps with
  | nil => simp [lookup]
  | cons q qs ih =>
      rw [List.map_cons, List.nodup_cons] at h
      have ih := ih h.2
      by_cases hq : q.id = i
      · have hi : ⟨i, a⟩ ∉ qs := fun hp => h.1 (List.mem_map.mpr ⟨_, hp, hq.symm⟩)
        rw [lookup, List.find?_cons_of_pos (by simpa using hq), Option.map_some,
          Option.some.injEq, List.mem_cons, or_iff_left hi, ← hq]
        constructor
        · rintro rfl
          rfl
        · intro he
          rw [← he]
      · have hne : (⟨i, a⟩ : Peer) ≠ q := fun he => hq (he ▸ rfl)
        rw [List.mem_cons, or_iff_right hne, ← ih, lookup, lookup,
          List.find?_cons_of_neg (by simpa using hq)]

/-- Nothing is found for a handle just if no peer of the list has it. -/
theorem lookup_eq_none_iff {ps : List Peer} {i : PeerId} :
    lookup ps i = none ↔ i ∉ ps.map Peer.id := by
  rw [lookup, Option.map_eq_none_iff, List.find?_eq_none, List.mem_map]
  simp

/-- Peers of a list without repeated handles are equal when their handles are. -/
theorem eq_of_id_eq {ps : List Peer} (h : (ps.map Peer.id).Nodup) {p q : Peer} (hp : p ∈ ps)
    (hq : q ∈ ps) (hid : p.id = q.id) : p = q := by
  have hlp : lookup ps p.id = some p.address := (lookup_eq_some_iff h).mpr hp
  have hlq : lookup ps q.id = some q.address := (lookup_eq_some_iff h).mpr hq
  rw [hid, hlq, Option.some.injEq] at hlp
  cases p; cases q
  simp_all

end PeerBook.Peer
