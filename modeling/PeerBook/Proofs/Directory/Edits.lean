import PeerBook.Proofs.Directory.Resolution

/-!
# PeerBook.Proofs.Directory.Edits

What a transaction can be made to do, edit by edit (`Edit`). Whatever is asked of
it, only an addition gives out a handle, and that one follows the last one that
was given out; so the handles given out by a list of edits are those between the
last handle before and the last handle after (`Transaction.mem_answers_iff`), and a
row that is there in the end was there before or has one of them
(`Transaction.editAll_grows`).

An edit may fail: a handle without a row is refused, and the transaction is then
as before. So edits are total on transactions (`Transaction.edit`), and the
statements about lists of edits need not say which of them succeed. Redirects and
the account's own handle can be set to anything, which is more than a resolution
ever does.
-/

namespace PeerBook

/-- What a transaction can be asked to do. -/
inductive Edit where
  | add (address : Address)
  | update (id : PeerId) (address : Address)
  | remove (id : PeerId)
  | recordMerged (absorbed surviving : PeerId)
  | setSelf (id : PeerId)

namespace Edit

/-- Whether an edit adds a row. -/
def isAdd : Edit → Bool
  | add _ => true
  | _ => false

/-- Makes an edit, and answers the handle of the row that it adds. -/
def perform : Edit → Op Transaction (Option PeerId)
  | add a => do return some (← AddressTable.add a)
  | update id a => do
    AddressTable.update id a
    return none
  | remove id => do
    AddressTable.remove id
    return none
  | recordMerged absorbed surviving => do
    Op.update (·.recordMerged absorbed surviving)
    return none
  | setSelf id => do
    Op.update (·.setSelf id)
    return none

/-- The number of additions among edits. -/
def additions (es : List Edit) : Nat := es.countP isAdd

end Edit

namespace Transaction

/-- The transaction after an edit, which may have failed. -/
def edit (tx : Transaction) (e : Edit) : Transaction := (e.perform.run tx).state

/-- The handle that an edit gives out, if it does. -/
def answer (tx : Transaction) (e : Edit) : Option PeerId :=
  (e.perform.run tx).result.toOption.join

/-- The transaction after edits in order. -/
def editAll (tx : Transaction) (es : List Edit) : Transaction := es.foldl edit tx

/-- The handles that edits give out, in order. -/
def answers (tx : Transaction) : List Edit → List PeerId
  | [] => []
  | e :: es => (tx.answer e).toList ++ (tx.edit e).answers es

variable (tx : Transaction) {i : PeerId}

/-! ## One edit -/

/-- The check of a handle passes where the handle has a row, and fails where it has none; it changes
nothing. -/
theorem run_known (id : PeerId) : (known id).run tx =
    if tx.rows.contains id then ⟨.ok (), tx, []⟩ else ⟨.error (.unknownPeer id), tx, []⟩ := by
  by_cases hc : tx.rows.contains id = true
  · simp [known, hc]
  · simp [known, hc]

@[simp] theorem edit_add (a : Address) : tx.edit (.add a) = tx.insert a := rfl

@[simp] theorem edit_update (id : PeerId) (a : Address) :
    tx.edit (.update id a) = if tx.rows.contains id then tx.change id (some a) else tx := by
  show (((known id >>= fun _ => Op.update (·.change id (some a))) >>= fun _ =>
    (pure none : Op Transaction (Option PeerId))).run tx).state = _
  rw [Op.run_bind, Op.run_bind, run_known]
  split
  · rfl
  · rfl

@[simp] theorem edit_remove (id : PeerId) :
    tx.edit (.remove id) = if tx.rows.contains id then tx.change id none else tx := by
  show (((known id >>= fun _ => Op.update (·.change id none)) >>= fun _ =>
    (pure none : Op Transaction (Option PeerId))).run tx).state = _
  rw [Op.run_bind, Op.run_bind, run_known]
  split
  · rfl
  · rfl

@[simp] theorem edit_recordMerged (absorbed surviving : PeerId) :
    tx.edit (.recordMerged absorbed surviving) = tx.recordMerged absorbed surviving := rfl

@[simp] theorem edit_setSelf (id : PeerId) : tx.edit (.setSelf id) = tx.setSelf id := rfl

theorem answer_add (a : Address) : tx.answer (.add a) = some tx.lastId.next := rfl

/-- Only an addition gives out a handle; an edit that fails and one that succeeds are alike in
this. -/
theorem answer_of_not_isAdd {e : Edit} (h : e.isAdd = false) : tx.answer e = none := by
  have hnone {op : Op Transaction Unit} :
      ((op >>= fun _ => (pure none : Op Transaction (Option PeerId))).run tx).result.toOption.join =
        none := by
    rw [Op.result_map (fun _ => (none : Option PeerId)) op tx]
    cases (op.run tx).result <;> rfl
  cases e with
  | add a => contradiction
  | update id a => exact hnone
  | remove id => exact hnone
  | recordMerged absorbed surviving => exact hnone
  | setSelf id => exact hnone

/-- A transaction goes on to another that gave out a number of handles more; every row was there
before or has one of them. -/
structure Grows (tx tx' : Transaction) (n : Nat) : Prop where
  base : tx'.base = tx.base
  toNat_lastId : tx'.lastId.toNat = tx.lastId.toNat + n
  row : ∀ i, tx'.rows.get? i ≠ none →
    tx.rows.get? i ≠ none ∨ tx.lastId.toNat < i.toNat ∧ i.toNat ≤ tx'.lastId.toNat

variable {tx} {tx' tx'' : Transaction} {n m : Nat}

theorem Grows.refl : tx.Grows tx 0 := ⟨rfl, rfl, fun _ h => .inl h⟩

/-- What was given out on the way from one transaction to another and on to a third adds up. -/
theorem Grows.trans (h : tx.Grows tx' n) (h' : tx'.Grows tx'' m) : tx.Grows tx'' (n + m) := by
  have hl := h.toNat_lastId
  have hl' := h'.toNat_lastId
  refine ⟨h'.base.trans h.base, by omega, fun i hi => ?_⟩
  rcases h'.row i hi with hi | hi
  · exact (h.row i hi).imp_right fun hi => by omega
  · exact .inr (by omega)

/-- A change of a row that is there leaves the rows that are there, or fewer. -/
theorem grows_change {id : PeerId} (x : Option Address) (h : tx.rows.contains id = true) :
    tx.Grows (tx.change id x) 0 := by
  refine ⟨rfl, rfl, fun i hi => .inl ?_⟩
  rw [get?_rows_change] at hi
  by_cases hid : i = id
  · rw [hid]
    exact Option.isSome_iff_ne_none.mp h
  · rw [if_neg hid] at hi
    exact hi

/-- An edit gives out a handle if it adds a row, and none otherwise. This is the step lemma of
`editAll_grows`; it needs a number for the handle, so that the next one is above the last. -/
theorem edit_grows (e : Edit) (hn : tx.lastId.toNat + Edit.additions [e] < UInt64.size) :
    tx.Grows (tx.edit e) (Edit.additions [e]) := by
  cases e with
  | add a =>
      have hl : tx.lastId.next.toNat = tx.lastId.toNat + 1 := PeerId.toNat_next hn
      refine ⟨rfl, hl, fun i hi => ?_⟩
      rw [edit_add, insert, get?_rows_change] at hi
      by_cases hid : i = tx.lastId.next
      · refine .inr ⟨?_, ?_⟩
        · rw [hid, hl]
          exact Nat.lt_succ_self _
        · rw [hid]
          exact Nat.le_refl _
      · rw [if_neg hid] at hi
        exact .inl hi
  | update id a =>
      rw [edit_update]
      split
      · rename_i h
        exact grows_change (some a) h
      · exact .refl
  | remove id =>
      rw [edit_remove]
      split
      · rename_i h
        exact grows_change none h
      · exact .refl
  | recordMerged absorbed surviving => exact ⟨rfl, rfl, fun _ h => .inl h⟩
  | setSelf id => exact ⟨rfl, rfl, fun _ h => .inl h⟩

/-! ## Edits in order -/

theorem additions_cons (e : Edit) (es : List Edit) :
    Edit.additions (e :: es) = Edit.additions [e] + Edit.additions es := by
  rw [Edit.additions, ← List.singleton_append, List.countP_append]
  rfl

/-- **Edits give out as many handles as they add rows.** -/
theorem editAll_grows (es : List Edit)
    (hn : tx.lastId.toNat + Edit.additions es < UInt64.size) :
    tx.Grows (tx.editAll es) (Edit.additions es) := by
  induction es generalizing tx with
  | nil => exact .refl
  | cons e es ih =>
      rw [additions_cons] at hn ⊢
      have hstep := tx.edit_grows e (by omega)
      have hl := hstep.toNat_lastId
      exact hstep.trans (ih (by omega))

/-- **The handles that edits give out** are those after the last one before, up to the last one
after. -/
theorem mem_answers_iff {es : List Edit}
    (hn : tx.lastId.toNat + Edit.additions es < UInt64.size) :
    i ∈ tx.answers es ↔ tx.lastId.toNat < i.toNat ∧
      i.toNat ≤ tx.lastId.toNat + Edit.additions es := by
  induction es generalizing tx with
  | nil =>
      rw [answers]
      refine ⟨fun h => absurd h List.not_mem_nil, fun h => ?_⟩
      have hz : Edit.additions [] = 0 := rfl
      omega
  | cons e es ih =>
      rw [additions_cons] at hn ⊢
      have hl := (tx.edit_grows e (by omega)).toNat_lastId
      rw [answers, List.mem_append, Option.mem_toList, ih (by omega)]
      cases he : e.isAdd with
      | true =>
          obtain ⟨a, rfl⟩ : ∃ a, e = .add a := by
            cases e with
            | add a => exact ⟨a, rfl⟩
            | update | remove | recordMerged | setSelf => contradiction
          have hnext : tx.lastId.next.toNat = tx.lastId.toNat + 1 := hl
          have hone : Edit.additions [.add a] = 1 := rfl
          have heq : tx.answer (.add a) = some i ↔ i.toNat = tx.lastId.toNat + 1 := by
            rw [answer_add, Option.some.injEq, ← hnext]
            exact ⟨fun h => by rw [h], fun h => PeerId.toNat_inj h.symm⟩
          rw [heq]
          omega
      | false =>
          have hz : Edit.additions [e] = 0 := by simp [Edit.additions, he]
          rw [tx.answer_of_not_isAdd he]
          simp only [reduceCtorEq, false_or]
          omega

end Transaction

end PeerBook
