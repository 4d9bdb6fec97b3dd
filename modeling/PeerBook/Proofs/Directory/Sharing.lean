import PeerBook.Proofs.Directory.Resolution

/-!
# PeerBook.Proofs.Directory.Sharing

Directories in which rows share identifiers, as they may be read from storage. A
commit is refused exactly if a row would get an identifier that another row
carries as well (`Transaction.violation?_eq_none_iff`). A trusted resolution
takes its own identifiers from all other rows, but what its row takes over from
an absorbed one may still be on a third (`Directory.Contested`): then, and only
then, it is refused (`Directory.draft_refused_iff`).

Where nothing is shared no resolution is refused, since then the rows that carry
what an absorbed row had are the absorbed row alone. The last section says what
reading gives: handles above all those mentioned, so that there is one to give out
even if the content was written by other hands.
-/

namespace PeerBook

open LawfulAddressTable

namespace Transaction

variable {tx : Transaction}

/-- A row that carries what it did not before was changed. -/
theorem contains_changes_of_carries {i : PeerId} {x : Identifier}
    (h : Carries tx.rows.get? i x) (hb : ¬Carries tx.base.rows.get? i x) :
    tx.changes.contains i = true := by
  obtain ⟨a, ha, hx⟩ := h
  rw [get?_rows] at ha
  cases hc : tx.changes.get? i with
  | none =>
      rw [hc] at ha
      exact absurd ⟨a, ha, hx⟩ hb
  | some change => rw [Table.contains, hc]; rfl

/-- An identifier gets an owner too many when a row gets it that is not the only one. The program
looks at the first two owners, of which one is another than the row that gets it. -/
theorem overshares_iff {x : Identifier} :
    tx.overshares x = true ↔ ∃ i j, i ≠ j ∧ Carries tx.rows.get? i x ∧ Carries tx.rows.get? j x ∧
      ¬Carries tx.base.rows.get? i x := by
  have hn : (Directory.owners tx.rows x).Nodup := Table.nodup_keys _
  simp only [overshares, Bool.and_eq_true, decide_eq_true_eq, Bool.not_eq_true', List.any_eq_true,
    List.all_eq_false, List.contains_iff_mem, mem_owners]
  constructor
  · rintro ⟨⟨hlt, -⟩, i, hi, hbefore⟩
    rcases ho : Directory.owners tx.rows x with _ | ⟨k, _ | ⟨l, _⟩⟩
    · rw [ho] at hlt
      contradiction
    · rw [ho] at hlt
      contradiction
    · have hk : Carries tx.rows.get? k x := mem_owners.mp (by simp [ho])
      have hl : Carries tx.rows.get? l x := mem_owners.mp (by simp [ho])
      -- of the first two owners one is another than the new one
      by_cases hik : i = k
      · have hkl : k ≠ l := by
          rintro rfl
          simp [ho] at hn
        exact ⟨i, l, hik ▸ hkl, hi, hl, hbefore⟩
      · exact ⟨i, k, hik, hi, hk, hbefore⟩
  · rintro ⟨i, j, hij, hi, hj, hb⟩
    refine ⟨⟨?_, i, hi, contains_changes_of_carries hi hb⟩, i, hi, hb⟩
    rw [← mem_owners] at hi hj
    rcases ho : Directory.owners tx.rows x with _ | ⟨k, _ | ⟨_, _⟩⟩
    · simp [ho] at hi
    · rw [ho, List.mem_singleton] at hi hj
      exact absurd (hi.trans hj.symm) hij
    · simp

/-- **A commit is let through exactly if every identifier that a row gets is on no other row.** What
rows shared before and still share is not looked at. -/
theorem violation?_eq_none_iff :
    tx.violation? = none ↔ ∀ i x, Carries tx.rows.get? i x → ¬Carries tx.base.rows.get? i x →
      ∀ j, Carries tx.rows.get? j x → j = i := by
  rw [violation?, Option.map_eq_none_iff, List.find?_eq_none]
  constructor
  · intro h i x hi hb j hj
    refine Decidable.byContradiction fun hji => ?_
    have hx : x ∈ Directory.identifiersOf tx.rows := by
      obtain ⟨a, ha, hxa⟩ := hi
      rw [Directory.identifiersOf, List.mem_eraseDups, List.mem_flatMap]
      exact ⟨a, List.mem_map.mpr ⟨(i, a), Table.get?_eq_some_iff.mp ha, rfl⟩, hxa⟩
    exact h x hx (overshares_iff.mpr ⟨i, j, Ne.symm hji, hi, hj, hb⟩)
  · intro h x _ hx
    obtain ⟨i, j, hij, hi, hj, hb⟩ := overshares_iff.mp hx
    exact hij (h i x hi hb j hj).symm

/-- A commit that leaves every identifier on one row at most is not refused, whatever was shared
before. -/
theorem violation?_eq_none (h : Unambiguous tx.rows.get?) : tx.violation? = none :=
  violation?_eq_none_iff.mpr fun i x hi _ j hj => h j i x hj hi

/-- A commit is let through exactly if no identifier comes to be shared. -/
theorem violation?_eq_none_iff_noNewSharing :
    tx.violation? = none ↔ NoNewSharing tx.base.rows.get? tx.rows.get? := by
  rw [violation?_eq_none_iff, noNewSharing_iff]
  constructor
  · rintro h ⟨x, i, j, hij, hi, hj, hb⟩
    exact hij (h i x hi hb j hj).symm
  · intro h i x hi hb j hj
    exact Decidable.byContradiction fun hji => h ⟨x, i, j, Ne.symm hji, hi, hj, hb⟩

/-- What a commit is refused for comes to be shared: the refusal names an identifier that a row
would get beside another. -/
theorem newlyShared_of_violation {f : StorageFault} (h : tx.violation? = some f) :
    ∃ x, NewlyShared tx.base.rows.get? tx.rows.get? x ∧ f = tx.ownershipFault x := by
  obtain ⟨x, hx, rfl⟩ := Option.map_eq_some_iff.mp h
  exact ⟨x, overshares_iff.mp (List.find?_some hx), rfl⟩

end Transaction

namespace Directory

variable {d : Directory} {request : Address}

/-- A trusted resolution would make its row take over, from a row that it absorbs, an identifier
that a row outside the resolution carries as well. -/
def Contested (d : Directory) (request : Address) : Prop :=
  ∃ x j, x ∉ request.identifiers ∧
    Carries (settled request d.begin).2.rows.get? (d.outcome request).peer x ∧
    ¬Carries d.rows.get? (d.outcome request).peer x ∧
    j ≠ (d.outcome request).peer ∧ j ∉ (d.outcome request).merged ∧ Carries d.rows.get? j x

/-- What a row outside the request carried and still has a row for, it keeps. -/
theorem carries_settled_of_not_mem (hd : d.HasNext) {j : PeerId} {x : Identifier}
    (hx : x ∉ request.identifiers) (hj : j ≠ (d.outcome request).peer)
    (hm : j ∉ (d.outcome request).merged) (h : Carries d.rows.get? j x) :
    Carries (settled request d.begin).2.rows.get? j x := by
  obtain ⟨a, ha, hxa⟩ := h
  rw [← row_begin] at ha
  have hrow : row (settled request d.begin).2 j ≠ none := by
    intro hnone
    exact hm ((mem_merged_iff (sound_begin hd)).mpr ⟨hj, by rw [ha]; exact nofun, hnone⟩)
  obtain ⟨b, hb⟩ := Option.ne_none_iff_exists'.mp hrow
  obtain ⟨a', ha', hab⟩ := mem_row_settled_of_ne (sound_begin hd) hj hb
  cases ha.symm.trans ha'
  exact ⟨b, hb, (hab x).mpr ⟨hxa, hx⟩⟩

/-- **A trusted resolution is refused exactly when it is contested.** Only the peer's row gets
anything, and what it gets is from the request, which no other row keeps, or from an absorbed
row. -/
theorem draft_refused_iff (hd : d.HasNext) (markSelf : Bool) :
    (d.draft markSelf request).violation? = none ↔ ¬d.Contested request := by
  rw [Transaction.violation?_eq_none_iff, rows_draft, base_draft]
  constructor
  · rintro h ⟨x, j, hx, hafter, hbefore, hj, hm, hjx⟩
    exact hj (h _ x hafter hbefore j (carries_settled_of_not_mem hd hx hj hm hjx))
  · intro h i x hi hbefore j hj
    -- only the peer's row gets anything
    have hip : i = (d.outcome request).peer := by
      refine Decidable.byContradiction fun hne => hbefore ?_
      rw [← row_begin]
      exact (carries_settled_of_ne (sound_begin hd) hne hi).1
    subst hip
    refine Decidable.byContradiction fun hne => ?_
    obtain ⟨hjx, hx⟩ := carries_settled_of_ne (sound_begin hd) hne hj
    rw [row_begin] at hjx
    refine h ⟨x, j, hx, hi, hbefore, hne, fun hm => ?_, hjx⟩
    obtain ⟨b, hb, -⟩ := hj
    have hnone := ((mem_merged_iff (sound_begin hd)).mp hm).2.2
    cases hnone.symm.trans hb

/-- A contested resolution has something to commit. -/
theorem Contested.hasChanges (h : d.Contested request) (markSelf : Bool) :
    (d.draft markSelf request).hasChanges = true := by
  obtain ⟨x, -, -, hafter, hbefore, -⟩ := h
  rw [← Bool.not_eq_false, Transaction.hasChanges_eq_false_iff]
  rintro ⟨hc, -⟩
  rw [← rows_draft d markSelf] at hafter
  have hcontains := Transaction.contains_changes_of_carries hafter
    (by rw [base_draft]; exact hbefore)
  rw [hc] at hcontains
  contradiction

/-- Afterwards the identifiers of the request are on the peer's row and on no other. -/
theorem carries_resolved_iff (hd : d.HasNext) (markSelf : Bool) {x : Identifier}
    (hx : x ∈ request.identifiers) {i : PeerId} :
    Carries (d.resolved markSelf request).rows.get? i x ↔ i = (d.outcome request).peer := by
  rw [get?_rows_resolved]
  constructor
  · intro hi
    refine Decidable.byContradiction fun hne => ?_
    exact (carries_settled_of_ne (sound_begin hd) hne hi).2 hx
  · rintro rfl
    exact carries_settled_of_mem (sound_begin hd) hx

/-! ## Directories that were read -/

variable {σ : Type} [Storage σ]

/-- Whether a handle has a row, is redirected or is redirected to. -/
def Mentions (d : Directory) (i : PeerId) : Prop :=
  d.rows.get? i ≠ none ∨ d.redirects.get? i ≠ none ∨ ∃ j, d.redirects.get? j = some i

/-- No handle that was read is above the last one, be it that of a row, of a redirect or of where a
redirect leads. -/
theorem le_lastId_of_load {s s' : σ} (h : (load : Op σ _).Returns s d s') {i : PeerId}
    (hi : d.Mentions i) : i.toNat ≤ d.lastId.toNat := by
  obtain ⟨peers, s₁, -, h⟩ := h.of_bind
  obtain ⟨merges, s₂, -, h⟩ := h.of_bind
  obtain ⟨stored, s₃, -, h⟩ := h.of_bind
  obtain ⟨self, s₄, -, h⟩ := h.of_bind
  obtain ⟨-, s₅, -, h⟩ := h.of_bind
  obtain ⟨rfl, -⟩ := h.unique (Op.returns_pure _ _)
  refine PeerId.le_foldl_max (.inr ?_)
  rw [List.mem_append, List.mem_append, Table.mem_keys_iff, Table.mem_keys_iff, or_assoc]
  rcases hi with hi | hi | ⟨j, hj⟩
  · exact .inl (Option.ne_none_iff_exists'.mp hi)
  · exact .inr (.inl (Option.ne_none_iff_exists'.mp hi))
  · exact .inr (.inr (List.mem_map.mpr ⟨(j, i), Table.get?_eq_some_iff.mp hj, rfl⟩))

/-- As long as handles are left, a directory that was read has one to give out. -/
theorem hasNext_of_load {s s' : σ} (h : (load : Op σ _).Returns s d s')
    (hn : d.lastId.toNat + 1 < UInt64.size) : d.HasNext :=
  hasNext_of_row_le (fun _ hi => le_lastId_of_load h (.inl hi)) hn

end Directory

end PeerBook
