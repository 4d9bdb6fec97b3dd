import PeerBook.Proofs.Directory.Coherent

/-!
# PeerBook.Proofs.Directory.Standing

What the handles of a directory stand for while it develops. A request leaves
the row that a handle stands for in place, with part of what it had, or the row
met the request and the handle stands for the request's peer from then on
(`StandsFor.step`). What a row has afterwards it had before, or it was in the
request or on a row that met the request (`Step.row_from`).

These two lemmas, one forward along a handle and one backward along an
identifier, are what invariants about identifiers are proved from: each step is
looked at here once, and the modules on kinship and convergence only use what is
said. `StandsFor` names the end of the chain and the address together, as both
change with a merge.
-/

namespace PeerBook.Directory

variable {d d' : Directory} {n : Nat} {f : Finding} {fs : List Finding} {i k : PeerId}
  {a b : Address} {request : Address}

/-- A handle stands for a row: redirects lead from it to the row's handle and no further. -/
def StandsFor (d : Directory) (i k : PeerId) (a : Address) : Prop :=
  d.redirects.EndsAt i k ∧ d.rows.get? k = some a

/-- A handle that stands for a row is followed to the row's handle. -/
theorem StandsFor.follow_eq (h : d.StandsFor i k a) : d.follow i = k :=
  Redirects.follow_of_endsAt h.1

/-- A handle stands for one row. -/
theorem StandsFor.unique (h : d.StandsFor i k a) {j : PeerId} (h' : d.StandsFor i j b) :
    k = j ∧ a = b := by
  obtain rfl : k = j := h.follow_eq.symm.trans h'.follow_eq
  exact ⟨rfl, Option.some.inj (h.2.symm.trans h'.2)⟩

/-- A handle with a row stands for it, since it was never absorbed. -/
theorem Coherent.standsFor_self (h : d.Coherent n) (ha : d.rows.get? i = some a) :
    d.StandsFor i i a :=
  ⟨Redirects.endsAt_self (h.no_redirect (by rw [ha]; exact nofun)), ha⟩

/-! ## One trusted resolution -/

/-- A row stays under its handle with what the request does not carry, or it met the request and
is the peer's or absorbed into it. -/
theorem row_resolved_cases (h : d.HasNext) (markSelf : Bool) (ha : d.rows.get? i = some a) :
    (i ≠ (d.outcome request).peer ∧ ∃ b, (d.resolved markSelf request).rows.get? i = some b ∧
        ∀ x, x ∈ b.identifiers ↔ x ∈ a.identifiers ∧ x ∉ request.identifiers) ∨
      a.sharesWith request = true ∧
        (i = (d.outcome request).peer ∨ i ∈ (d.outcome request).merged) := by
  rw [get?_rows_resolved]
  rw [← row_begin] at ha
  exact row_settled_cases (sound_begin h) ha

/-- What the peer's row has was in the request or on a row that met it: its own row before, or one
that it absorbed. -/
theorem mem_row_resolved_peer (h : d.HasNext) {markSelf : Bool}
    (hb : (d.resolved markSelf request).rows.get? (d.outcome request).peer = some b)
    {x : Identifier} (hx : x ∈ b.identifiers) :
    x ∈ request.identifiers ∨ ∃ i a, d.rows.get? i = some a ∧ a.sharesWith request = true ∧
      x ∈ a.identifiers := by
  have hs := sound_begin h
  obtain ⟨c, hc, -, hfrom⟩ := row_settled_survivor request hs
  rw [get?_rows_resolved] at hb
  obtain rfl : c = b := Option.some.inj (hc.symm.trans hb)
  refine (hfrom x hx).imp_right ?_
  rintro ⟨i, a, hi, ha, hxa⟩
  obtain ⟨hne, b', hb', -⟩ | ⟨hsh, -⟩ := row_settled_cases hs ha
  · rcases hi with hi | hi
    · exact absurd hi hne
    · rw [((mem_merged_iff hs).mp hi).2.2] at hb'
      contradiction
  · rw [row_begin] at ha
    exact ⟨i, a, ha, hsh, hxa⟩

/-- A row that carries the whole request stays as it is where no row shares an identifier with
another, and so does one that carries nothing of it. -/
theorem row_resolved_unchanged (h : d.HasNext) (hu : Unambiguous d.rows.get?) (markSelf : Bool)
    (ha : d.rows.get? i = some a)
    (hr : a.covers request = true ∨ ¬a.sharesWith request = true) :
    (d.resolved markSelf request).rows.get? i = some a := by
  rw [get?_rows_resolved]
  rw [← row_begin] at hu ha
  rcases hr with hc | hn
  · rw [settled_of_covers (sound_begin h) ha hc fun j b hb hsh => ?_]
    · exact ha
    · obtain ⟨x, hxb, hxr⟩ := Address.sharesWith_iff.mp hsh
      exact hu j i x ⟨b, hb, hxb⟩ ⟨a, ha, Address.covers_iff.mp hc x hxr⟩
  · exact row_settled_of_not_sharesWith (sound_begin h) ha hn

/-! ## One request -/

/-- The rows that a look-up found stay as they are when it adds one. -/
theorem row_added_unchanged (h : d.HasNext) (ha : d.rows.get? i = some a) (request : Address) :
    (d.added request).rows.get? i = some a := by
  have hne : i ≠ d.lastId.next := by
    rintro rfl
    rw [h] at ha
    contradiction
  rw [get?_rows_added, if_neg hne, ha]

/-- **What becomes of what a handle stands for**: it stays with part of what it had, or it met a
trusted request and the handle stands for the request's peer. -/
theorem StandsFor.step (h : d.StandsFor i k a) (hc : d.Coherent n) (hs : d.Step f d')
    (hn : n + 1 < UInt64.size) :
    (∃ b, d'.StandsFor i k b ∧ ∀ x ∈ b.identifiers, x ∈ a.identifiers) ∨
      f.trusted = true ∧ a.sharesWith f.request = true ∧
        ∃ b, d'.StandsFor i f.result.peer b ∧ b.covers f.request = true := by
  have hnext := hc.hasNext hn
  cases hs with
  | resolved markSelf request =>
      have hends := hc.endsAt_resolved hn markSelf request h.1
      obtain ⟨-, b, hb, hab⟩ | ⟨hsh, hk⟩ := row_resolved_cases hnext markSelf h.2
      · have hm : k ∉ (d.outcome request).merged := by
          intro hm
          rw [((mem_merged_outcome_iff hnext markSelf).mp hm).2.2] at hb
          contradiction
        rw [if_neg hm] at hends
        exact .inl ⟨b, ⟨hends, hb⟩, fun x hx => ((hab x).mp hx).1⟩
      · have hpeer : (if k ∈ (d.outcome request).merged then (d.outcome request).peer else k) =
            (d.outcome request).peer := by
          rcases hk with rfl | hk
          · exact ite_self _
          · exact if_pos hk
        rw [hpeer] at hends
        obtain ⟨b, hb, hcov⟩ := row_resolved_peer hnext markSelf request
        exact .inr ⟨rfl, hsh, b, ⟨hends, hb⟩, hcov⟩
  | found _ => exact .inl ⟨a, h, fun _ hx => hx⟩
  | added _ => exact .inl ⟨a, ⟨h.1, row_added_unchanged hnext h.2 _⟩, fun _ hx => hx⟩

/-- **Where the identifiers of a row come from**: it had them before, or they were in the request
or on a row that met the request. -/
theorem Step.row_from (hs : d.Step f d') (hc : d.Coherent n) (hn : n + 1 < UInt64.size)
    (hb : d'.rows.get? i = some b) :
    (∃ a, d.rows.get? i = some a ∧ ∀ x ∈ b.identifiers, x ∈ a.identifiers) ∨
      ∀ x ∈ b.identifiers, x ∈ f.request.identifiers ∨
        ∃ j a, d.rows.get? j = some a ∧ a.sharesWith f.request = true ∧ x ∈ a.identifiers := by
  have hnext := hc.hasNext hn
  cases hs with
  | resolved markSelf request =>
      by_cases hi : i = (d.outcome request).peer
      · rw [hi] at hb
        exact .inr fun x hx => mem_row_resolved_peer hnext hb hx
      · obtain ⟨a, ha⟩ := Option.ne_none_iff_exists'.mp
          (row_of_row_resolved hnext hi (by rw [hb]; exact nofun))
        obtain ⟨-, b', hb', hab⟩ | ⟨-, hm⟩ := row_resolved_cases hnext markSelf ha
        · cases hb.symm.trans hb'
          exact .inl ⟨a, ha, fun x hx => ((hab x).mp hx).1⟩
        · have hm := hm.resolve_left hi
          rw [((mem_merged_outcome_iff hnext markSelf).mp hm).2.2] at hb
          contradiction
  | found _ => exact .inl ⟨b, hb, fun _ hx => hx⟩
  | added _ =>
      rw [get?_rows_added] at hb
      split at hb
      · cases hb
        exact .inr fun x hx => .inl (mem_of_mem_recordable hx)
      · exact .inl ⟨b, hb, fun _ hx => hx⟩

/-- A row that carries the whole request or nothing of it stays as it is. -/
theorem Step.row_unchanged (hs : d.Step f d') (hc : d.Coherent n) (hn : n + 1 < UInt64.size)
    (ha : d.rows.get? i = some a)
    (hr : a.covers f.request = true ∨ ¬a.sharesWith f.request = true) :
    d'.rows.get? i = some a := by
  have hnext := hc.hasNext hn
  cases hs with
  | resolved markSelf request =>
      exact row_resolved_unchanged hnext hc.unambiguous markSelf ha hr
  | found _ => exact ha
  | added _ => exact row_added_unchanged hnext ha _

/-- The handles answered stand for a row that meets the request, and has all of it if the request
was trusted. -/
theorem Step.standsFor_answered (hs : d.Step f d') (hc : d.Coherent n) (hn : n + 1 < UInt64.size)
    (hi : i = f.result.peer ∨ i ∈ f.result.merged) :
    ∃ b, d'.StandsFor i f.result.peer b ∧ b.sharesWith f.request = true ∧
      (f.trusted = true → b.covers f.request = true) := by
  have hnext := hc.hasNext hn
  have hc' := hc.step hs hn
  cases hs with
  | resolved markSelf request =>
      obtain ⟨b, hb, hcov⟩ := row_resolved_peer hnext markSelf request
      refine ⟨b, ?_, Address.sharesWith_of_covers hcov, fun _ => hcov⟩
      rcases hi with rfl | hi
      · exact hc'.standsFor_self hb
      · have hrow := ((mem_merged_outcome_iff hnext markSelf).mp hi).2.1
        have hends := hc.endsAt_resolved hn markSelf request
          (Redirects.endsAt_self (hc.no_redirect hrow))
        rw [if_pos hi] at hends
        exact ⟨hends, hb⟩
  | found hp =>
      obtain ⟨hr, j, hj, -⟩ := bestMatch?_spec hp
      obtain rfl := hi.resolve_right List.not_mem_nil
      exact ⟨_, hc'.standsFor_self hr, by rw [Address.sharesWith, hj]; rfl,
        fun h => absurd h Bool.false_ne_true⟩
  | @added request _ =>
      have hr : (d.added request).rows.get? d.lastId.next = some (Account.recordable request) := by
        rw [get?_rows_added, if_pos rfl]
      obtain ⟨x, hx⟩ :=
        List.exists_mem_of_ne_nil _ (Account.recordable request).identifiers_ne_nil
      obtain rfl := hi.resolve_right List.not_mem_nil
      exact ⟨_, hc'.standsFor_self hr,
        Address.sharesWith_iff.mpr ⟨x, hx, mem_of_mem_recordable hx⟩,
        fun h => absurd h Bool.false_ne_true⟩

end PeerBook.Directory
