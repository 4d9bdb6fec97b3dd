import PeerBook.Proofs.Reconcile.Ownership

/-!
# PeerBook.Proofs.Reconcile.Recorded

A trusted resolution from one change of the table to the next. A recorded table
(`Recorded`) keeps what it was after each change; a resolution does the same to
it as to the table inside (`settled_recorded`), and what it keeps on the way are
the tables after the first of the losses and the table at the end
(`mem_states_settled`). So no identifier is ever on two rows, not even in the
middle of a resolution (`reconcile_recorded`).

This is why rows lose and go before one row gains: up to the last change no row
has more than it had (`carries_changeAll_losses`), and the last change ends in
the table of which uniqueness is known. A recorded table is lawful itself, so
nothing has to be proved about the resolution again.
-/

namespace PeerBook

open LawfulAddressTable

/-- A table that keeps what it was after each change to it, the oldest first. -/
structure Recorded (τ : Type) where
  current : τ
  states : List τ

namespace Recorded

variable {τ α : Type}

/-- Runs an operation on the table inside. -/
def lift (op : Op τ α) : Op (Recorded τ) α := op.zoom current fun t r => { r with current := t }

/-- Keeps the table as it is now. -/
def record : Op (Recorded τ) Unit := Op.update fun r => { r with states := r.states ++ [r.current] }

instance [AddressTable τ] : AddressTable (Recorded τ) where
  find request := lift (AddressTable.find request)
  add a := do
    let id ← lift (AddressTable.add a)
    record
    return id
  update id a := do
    lift (AddressTable.update id a)
    record
  remove id := do
    lift (AddressTable.remove id)
    record

/-- Goes on with another table, which is kept. -/
def goOn (r : Recorded τ) (t : τ) : Recorded τ := ⟨t, r.states ++ [t]⟩

instance [LawfulAddressTable τ] : LawfulAddressTable (Recorded τ) where
  row r := row r.current
  nextId r := nextId r.current
  found r := found r.current
  change r id x := r.goOn (change r.current id x)
  insert r a := r.goOn (insert r.current a)
  Sound r := Sound r.current
  run_find r request := by
    show (lift (AddressTable.find request)).run r = _
    rw [lift, Op.run_zoom, run_find]
  run_add r a := by
    show (lift (AddressTable.add a) >>= fun id => record >>= fun _ => pure id).run r = _
    rw [Op.run_bind, lift, Op.run_zoom, run_add]
    rfl
  run_update {r id} a hid := by
    show (lift (AddressTable.update id a) >>= fun _ => record).run r = _
    rw [Op.run_bind, lift, Op.run_zoom, run_update a hid]
    rfl
  run_remove {r id} hid := by
    show (lift (AddressTable.remove id) >>= fun _ => record).run r = _
    rw [Op.run_bind, lift, Op.run_zoom, run_remove hid]
    rfl
  row_nextId h := row_nextId h
  mem_found h := mem_found h
  nodup_found h := nodup_found h
  sound_change x h hid := sound_change x h hid
  nextId_change r id x := nextId_change r.current id x
  row_change x h hid := row_change x h hid
  row_insert a h := row_insert a h

end Recorded

variable {τ : Type} [LawfulAddressTable τ] {t : τ} {request : Address}

/-! ## What is kept -/

/-- Changes of a recorded table are made to the table inside. -/
theorem current_changeAll (r : Recorded τ) (cs : List (PeerId × Option Address)) :
    (changeAll r cs).current = changeAll r.current cs := by
  induction cs generalizing r with
  | nil => rfl
  | cons c cs ih => exact ih (change r c.1 c.2)

/-- Changes one after another are kept as the tables after the first of them, one more each time. -/
theorem mem_states_changeAll {r : Recorded τ} {cs : List (PeerId × Option Address)}
    (h : t ∈ (changeAll r cs).states) :
    t ∈ r.states ∨ ∃ made, made <+: cs ∧ t = changeAll r.current made := by
  induction cs generalizing r with
  | nil => exact .inl h
  | cons c cs ih =>
      obtain hr | ⟨made, hm, rfl⟩ := ih (r := change r c.1 c.2) h
      · rcases List.mem_append.mp hr with hr | hr
        · exact .inl hr
        · exact .inr ⟨[c], List.prefix_append [c] cs, List.mem_singleton.mp hr⟩
      · exact .inr ⟨c :: made, (List.prefix_cons_inj c).mpr hm, rfl⟩

/-- A plan carried out on a recorded table is carried out on the table inside. -/
theorem current_applyTo (plan : Plan) (request : Address) (r : Recorded τ) :
    (plan.applyTo request r).current = plan.applyTo request r.current := by
  unfold Plan.applyTo
  rw [← current_changeAll]
  split
  · split <;> rfl
  · rfl

/-- Carrying out a plan keeps the tables after its losses, and the one at the end. -/
theorem mem_states_applyTo {plan : Plan} {r : Recorded τ}
    (h : t ∈ (plan.applyTo request r).states) :
    t ∈ (changeAll r plan.losses).states ∨ t = (plan.applyTo request r).current := by
  unfold Plan.applyTo at h ⊢
  split at h
  · split at h
    · exact .inl h
    · rename_i hne
      rw [if_neg hne]
      exact (List.mem_append.mp h).imp_right List.mem_singleton.mp
  · exact (List.mem_append.mp h).imp_right List.mem_singleton.mp

/-- A resolution does the same to a recorded table as to the table inside. -/
theorem settled_recorded (request : Address) (r : Recorded τ) :
    (settled request r).1 = (settled request r.current).1 ∧
      (settled request r).2.current = (settled request r.current).2 := by
  have hf : found r request = found r.current request := rfl
  unfold settled
  rw [hf]
  cases coveredBy? request (found r.current request) with
  | some p => exact ⟨rfl, rfl⟩
  | none => exact ⟨rfl, current_applyTo _ request r⟩

/-- What is kept of a resolution are the tables after the first of the losses, and the one at the
end. -/
theorem mem_states_settled {r : Recorded τ} (h : t ∈ (settled request r).2.states) :
    t ∈ r.states ∨ t = (settled request r.current).2 ∨
      ∃ made, made <+: (Plan.of request (found r.current request)).losses ∧
        t = changeAll r.current made := by
  obtain ⟨p, -, -, hs⟩ | hs := settled_cases request r
  · rw [hs] at h
    exact .inl h
  · have hend := (settled_recorded request r).2
    rw [hs] at h hend
    obtain hl | rfl := mem_states_applyTo h
    · exact (mem_states_changeAll hl).imp_right .inr
    · exact .inr (.inl hend)

/-- After the first of the losses of a resolution no row has more than it had, however many of them
were made. -/
theorem carries_changeAll_losses (ht : Sound t) {made : List (PeerId × Option Address)}
    (hm : made <+: (Plan.of request (found t request)).losses) {i : PeerId} {x : Identifier}
    (h : Carries (row (changeAll t made)) i x) : Carries (row t) i x := by
  obtain ⟨rest, hrest⟩ := hm
  have hadmits : Admits t made := by
    have hall := admits_losses request ht
    rw [← hrest] at hall
    exact hall.append_left
  obtain ⟨a, ha, hx⟩ := h
  by_cases hi : i ∈ made.map Prod.fst
  · obtain ⟨⟨i, change⟩, hc, rfl⟩ := List.mem_map.mp hi
    cases (row_changeAll_of_mem ht hadmits hc).symm.trans ha
    have hstrip : (⟨i, a⟩ : Peer) ∈ (Plan.of request (found t request)).strip := by
      rw [← Plan.mem_losses_some, ← hrest]
      exact List.mem_append_left rest hc
    obtain ⟨p, hp, rfl, -, hr⟩ := Plan.mem_strip.mp hstrip
    have hxp := ((Address.mem_without? (Plan.without?_of_remainder? hr)).mp hx).1
    exact ⟨p.address, ((mem_found ht).mp hp).1, hxp⟩
  · rw [row_changeAll_of_not_mem ht hadmits hi] at ha
    exact ⟨a, ha, hx⟩

/-- **No identifier is on two rows at any time of a resolution.** -/
theorem reconcile_recorded (request : Address) (ht : Sound t) (h : Unambiguous (row t)) :
    ∃ r : Recorded τ, (reconcile request).Returns ⟨t, []⟩ (settled request t).1 r ∧
      r.current = (settled request t).2 ∧ ∀ t' ∈ r.states, Unambiguous (row t') := by
  have hr : Sound (⟨t, []⟩ : Recorded τ) := ht
  obtain ⟨houtcome, hcurrent⟩ := settled_recorded request (⟨t, []⟩ : Recorded τ)
  have hrun := reconcile_returns request hr
  rw [houtcome] at hrun
  refine ⟨_, hrun, hcurrent, fun t' ht' => ?_⟩
  obtain hnil | rfl | ⟨made, hm, rfl⟩ := mem_states_settled ht'
  · contradiction
  · exact unambiguous_settled ht h
  · exact h.mono fun i x hx => carries_changeAll_losses ht hm hx

end PeerBook
