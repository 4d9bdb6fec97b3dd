import PeerBook.Account.Resolve
import PeerBook.Proofs.Directory.Resolution
import PeerBook.Proofs.Reconcile.Changes

/-!
# PeerBook.Proofs.Directory.News

What there is to tell about two tables of addresses, from a look at the two alone:
the handles that are gone (`Directory.gone`), those with another address
(`Directory.readdressed`), and what became of the one that a request was resolved
to (`Directory.news`). A trusted resolution tells and answers exactly this
(`Directory.events_outcome`, `Directory.merged_outcome_eq_gone`).

The two sides differ in the order as well as in the content: a resolution goes by
the rows that it found, the news by the handles. Both ascend, so each list is the
part of the handles that passes a test (`eq_filter_of_sublist`).
-/

namespace PeerBook

/-- Part of a list without repetitions, in the order of the list, is what of the list passes a test
if it is so member by member. -/
theorem eq_filter_of_sublist {α : Type} {xs ys : List α} {p : α → Bool} (h : xs.Sublist ys)
    (hn : ys.Nodup) (hp : ∀ y ∈ ys, y ∈ xs ↔ p y = true) : xs = ys.filter p := by
  induction h with
  | slnil => rfl
  | @cons xs ys a h ih =>
      obtain ⟨ha, hn⟩ := List.nodup_cons.mp hn
      have hpa : ¬p a = true := fun hpa => ha (h.subset ((hp a List.mem_cons_self).mpr hpa))
      rw [List.filter_cons_of_neg hpa]
      exact ih hn fun y hy => hp y (List.mem_cons_of_mem a hy)
  | @cons_cons xs ys a h ih =>
      obtain ⟨ha, hn⟩ := List.nodup_cons.mp hn
      rw [List.filter_cons_of_pos ((hp a List.mem_cons_self).mp List.mem_cons_self)]
      refine congrArg (a :: ·) (ih hn fun y hy => ?_)
      rw [← hp y (List.mem_cons_of_mem a hy), List.mem_cons, or_iff_right]
      rintro rfl
      exact ha hy

namespace Directory

/-- The handles of a table that another has no more, ascending. -/
def gone (rows rows' : Table PeerId Address) : List PeerId :=
  rows.keys.filter fun i => !rows'.contains i

/-- The handles of a table that another has with another address, ascending. -/
def readdressed (rows rows' : Table PeerId Address) : List PeerId :=
  rows.keys.filter fun i => rows'.contains i && rows.get? i != rows'.get? i

/-- What there is to tell about two tables: first of one peer that it is new or has another address,
then of the others that have another address. -/
def news (peer : PeerId) (rows rows' : Table PeerId Address) : List Event :=
  (if !rows.contains peer then [.created peer]
    else if rows.get? peer != rows'.get? peer then [.addressChanged peer] else []) ++
    ((readdressed rows rows').filter (· != peer)).map .addressChanged

variable {d : Directory} {request : Address} {i : PeerId}

/-- A handle is among the keys of the rows when it has a row. -/
theorem mem_keys_iff_ne_none {rows : Table PeerId Address} :
    i ∈ rows.keys ↔ rows.get? i ≠ none := by
  rw [Table.mem_keys_iff, Option.ne_none_iff_exists']

/-! ## What a trusted resolution tells -/

/-- What is found of a directory is in the order of its rows. -/
theorem found_sublist_keys (d : Directory) (request : Address) :
    ((LawfulAddressTable.found d.begin request).map Peer.id).Sublist d.rows.keys := by
  have hfound : LawfulAddressTable.found d.begin request =
      Peer.meeting (peersOf d.begin.rows) request := rfl
  rw [hfound, Transaction.rows_begin, ← map_id_peersOf]
  exact List.filter_sublist.map Peer.id

/-- **The absorbed handles are those that are gone**, in their order: a resolution takes a row away
only by absorbing it. -/
theorem merged_outcome_eq_gone (h : d.HasNext) (markSelf : Bool) (request : Address) :
    (d.outcome request).merged = gone d.rows (d.resolved markSelf request).rows := by
  obtain ⟨a, hpeer, -⟩ := row_resolved_peer h markSelf request
  refine eq_filter_of_sublist ((merged_sublist request d.begin).trans
    (d.found_sublist_keys request)) d.rows.nodup_keys fun i hi => ?_
  have hm : i ∈ (d.outcome request).merged ↔ i ≠ (d.outcome request).peer ∧
      d.rows.get? i ≠ none ∧ (d.resolved markSelf request).rows.get? i = none :=
    mem_merged_outcome_iff h markSelf
  rw [mem_keys_iff_ne_none] at hi
  rw [hm, Bool.not_eq_true', Table.contains, Option.isSome_eq_false_iff, Option.isNone_iff_eq_none]
  refine ⟨fun hi => hi.2.2, fun hnone => ⟨?_, hi, hnone⟩⟩
  rintro rfl
  rw [hpeer] at hnone
  contradiction

/-- The stripped handles are the others with another address, in their order. The peer is left out
on both sides, as its own change is told in another way. -/
theorem stripped_outcome_eq_readdressed (h : d.HasNext) (markSelf : Bool) (request : Address) :
    (d.outcome request).stripped = (readdressed d.rows (d.resolved markSelf request).rows).filter
      (· != (d.outcome request).peer) := by
  rw [readdressed, List.filter_filter]
  refine eq_filter_of_sublist ((stripped_sublist request d.begin).trans
    (d.found_sublist_keys request)) d.rows.nodup_keys fun i hi => ?_
  have hm : i ∈ (d.outcome request).stripped ↔ i ≠ (d.outcome request).peer ∧
      ∃ a b, d.rows.get? i = some a ∧ (d.resolved markSelf request).rows.get? i = some b ∧
        a ≠ b := by
    rw [← row_begin d, get?_rows_resolved]
    exact mem_stripped_iff (sound_begin h)
  rw [mem_keys_iff_ne_none] at hi
  refine hm.trans ?_
  rw [Bool.and_eq_true, bne_iff_ne, Bool.and_eq_true, bne_iff_ne, Table.contains,
    Option.isSome_iff_exists]
  refine and_congr_right fun _ => ⟨?_, ?_⟩
  · rintro ⟨a, b, ha, hb, hab⟩
    refine ⟨⟨b, hb⟩, ?_⟩
    rw [ha, hb]
    exact fun he => hab (Option.some.inj he)
  · rintro ⟨⟨b, hb⟩, hne⟩
    obtain ⟨a, ha⟩ := Option.ne_none_iff_exists'.mp hi
    refine ⟨a, b, ha, hb, ?_⟩
    rintro rfl
    exact hne (ha.trans hb.symm)

/-- **A trusted resolution tells what there is to tell** about the rows before and after, where no
identifier is on two rows. -/
theorem events_outcome (h : d.HasNext) (hu : Unambiguous d.rows.get?) (markSelf : Bool)
    (request : Address) :
    (d.outcome request).events =
      news (d.outcome request).peer d.rows (d.resolved markSelf request).rows := by
  rw [Reconciliation.events, news, stripped_outcome_eq_readdressed h markSelf request]
  refine congrArg (· ++ _) ?_
  have hcreated : (d.outcome request).created = true ↔
      d.rows.get? (d.outcome request).peer = none := created_outcome_iff h
  cases hc : (d.outcome request).created with
  | true =>
      have hnone := hcreated.mp hc
      simp [Table.contains, hnone]
  | false =>
      have hsome : d.rows.get? (d.outcome request).peer ≠ none := by
        rw [ne_eq, ← hcreated, hc]
        exact Bool.false_ne_true
      have hcontains : d.rows.contains (d.outcome request).peer = true :=
        Option.isSome_iff_ne_none.mpr hsome
      have hchanged := changed_settled_iff (sound_begin h) (row_begin d ▸ hu) hc
      rw [row_begin, ← get?_rows_resolved d markSelf] at hchanged
      have hiff : ((d.outcome request).changed = true) ↔
          (d.rows.get? (d.outcome request).peer !=
            (d.resolved markSelf request).rows.get? (d.outcome request).peer) = true := by
        rw [bne_iff_ne]
        exact hchanged
      simp only [hcontains, Bool.not_true, Bool.false_eq_true, if_false, hiff]

end Directory

end PeerBook
