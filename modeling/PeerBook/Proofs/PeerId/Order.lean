import PeerBook.PeerId

/-!
# PeerBook.Proofs.PeerId.Order

Handles as natural numbers. The order of handles is that of their numbers, and
the next handle has the next number unless the numbers are used up.

Bounds on handles are counted in natural numbers, where there is a next one in
any case; `PeerId.toNat_next` says up to where the handles follow. The greatest
of a list of handles is what a directory that was read starts to count from
(`PeerId.le_foldl_max`, `PeerId.foldl_max_lt`).
-/

namespace PeerBook.PeerId

/-- The number of a handle. -/
def toNat (id : PeerId) : Nat := id.value.toNat

theorem toNat_inj {a b : PeerId} (h : a.toNat = b.toNat) : a = b := by
  cases a; cases b
  exact congrArg PeerId.mk (UInt64.toNat_inj.mp h)

/-- One handle comes before another when its number is less. -/
theorem compare_eq_lt_iff {a b : PeerId} : compare a b = .lt ↔ a.toNat < b.toNat := by
  rw [compare_def]
  show compareOfLessAndEq a.value b.value = .lt ↔ _
  rw [compareOfLessAndEq_eq_lt]
  exact UInt64.lt_iff_toNat_lt

/-- The greater of two handles has the greater number. -/
theorem toNat_max (a b : PeerId) : (max a b).toNat = Nat.max a.toNat b.toNat := by
  unfold max
  split
  · rename_i h
    exact (Nat.max_eq_right (Nat.le_of_lt (compare_eq_lt_iff.mp h))).symm
  · rename_i h
    rw [compare_eq_lt_iff] at h
    exact (Nat.max_eq_left (Nat.le_of_not_lt h)).symm

/-- A handle that is at least as great as others is the greatest of all, so counting from it passes
none of them. -/
theorem foldl_max {m : PeerId} {ids : List PeerId} (h : ∀ i ∈ ids, i.toNat ≤ m.toNat) :
    ids.foldl max m = m := by
  induction ids with
  | nil => rfl
  | cons i is ih =>
      have hm : max m i = m := by
        apply toNat_inj
        rw [toNat_max]
        exact Nat.max_eq_left (h i List.mem_cons_self)
      rw [List.foldl_cons, hm]
      exact ih fun j hj => h j (List.mem_cons_of_mem i hj)

/-- The greatest of handles is at least as great as each, the one it starts from included. A
directory that is read starts from the stored counter and goes on to all handles that it meets. -/
theorem le_foldl_max {m i : PeerId} {ids : List PeerId} (h : i = m ∨ i ∈ ids) :
    i.toNat ≤ (ids.foldl max m).toNat := by
  induction ids generalizing m i with
  | nil => exact Nat.le_of_eq (congrArg toNat (h.resolve_right List.not_mem_nil))
  | cons j js ih =>
      have hstart : (max m j).toNat ≤ (js.foldl max (max m j)).toNat := ih (.inl rfl)
      rw [toNat_max] at hstart
      rcases h with rfl | h
      · exact Nat.le_trans (Nat.le_max_left _ _) hstart
      · rcases List.mem_cons.mp h with rfl | h
        · exact Nat.le_trans (Nat.le_max_right _ _) hstart
        · exact ih (.inr h)

/-- The greatest of handles below a bound is below it. -/
theorem foldl_max_lt {m : PeerId} {ids : List PeerId} {n : Nat} (hm : m.toNat < n)
    (h : ∀ i ∈ ids, i.toNat < n) : (ids.foldl max m).toNat < n := by
  induction ids generalizing m with
  | nil => exact hm
  | cons i is ih =>
      refine ih ?_ fun j hj => h j (List.mem_cons_of_mem i hj)
      rw [toNat_max]
      exact Nat.max_lt.mpr ⟨hm, h i List.mem_cons_self⟩

/-- As long as the numbers are not used up, the next handle has the next number; at the last one it
would stay. -/
theorem toNat_next {id : PeerId} (h : id.toNat + 1 < UInt64.size) :
    id.next.toNat = id.toNat + 1 := by
  have hs : id.next.toNat = (id.toNat + 1) % 2 ^ 64 := UInt64.toNat_add id.value 1
  exact hs.trans (Nat.mod_eq_of_lt h)

/-- The next handle is not the one with number zero, as long as the numbers are not used up. -/
theorem next_ne_zero {id : PeerId} (h : id.toNat + 1 < UInt64.size) : id.next ≠ ⟨0⟩ := by
  intro hz
  have hnext := toNat_next h
  rw [hz] at hnext
  contradiction

/-- A handle is not the one after it. -/
theorem next_ne (id : PeerId) : id.next ≠ id := by
  intro h
  have hs : id.next.toNat = (id.toNat + 1) % 2 ^ 64 := UInt64.toNat_add id.value 1
  have hlt : id.toNat < 2 ^ 64 := id.value.toNat_lt
  rw [h] at hs
  omega

end PeerBook.PeerId
