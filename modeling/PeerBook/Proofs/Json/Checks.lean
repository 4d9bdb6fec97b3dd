import Mathlib.Data.List.Forall2
import PeerBook.Proofs.Json.Records
import PeerBook.Proofs.Operation

/-!
# PeerBook.Proofs.Json.Checks

What the checks of its fields make of a record. Whether a value is a record at
all does not depend on them: without the checks the same fields are found
(`Json.lax`), each at most once (`nodup_asFields`), and with them a value is
accepted exactly if each of these passes its check (`asFields_iff`). So two
records whose fields differ only in what they check accept one value for one
content.

The record of an address and that of its parts are such a pair
(`Field.Refines`): the one checks every identifier as it is read, the other only
its shape. `asFields_refines_iff` is what the proof about reading addresses
uses; objects and arrays, the two forms of a record, are gone through one after
the other before.
-/

namespace PeerBook.Json

variable {fields : List Field} {fs found : Fields}

/-- The fields of a record, without their checks. -/
def lax (fields : List Field) : List Field :=
  fields.map fun f => { f with accepts := fun _ => .ok () }

/-- The field of a name is found among the unchecked fields where it is among the checked ones. -/
theorem find?_lax (fields : List Field) (name : String) :
    (lax fields).find? (·.name == name) =
      (fields.find? (·.name == name)).map fun f => { f with accepts := fun _ => .ok () } := by
  rw [lax, List.find?_map]
  rfl

/-! ## Objects -/

/-- What was found stays: going on through the members only adds fields, and refuses a name that is
there already. -/
theorem subset_of_fieldsOfMembers {ms : List (Option String × Json)}
    (h : fieldsOfMembers fields ms found = .ok fs) : found ⊆ fs := by
  induction ms generalizing found with
  | nil =>
      obtain rfl := Except.ok.inj h
      exact List.Subset.refl _
  | cons m ms ih =>
      obtain ⟨_ | name, j⟩ := m
      · contradiction
      · unfold fieldsOfMembers at h
        split at h
        · split at h
          · exact ih h
          · contradiction
        · split at h
          · contradiction
          · split at h
            · contradiction
            · exact List.Subset.trans (List.subset_append_left _ _) (ih h)

/-- Members are accepted if they are without checks, and each new field passes its check. The
induction is along the members, with what was found so far; a name that no field has is passed over
on both sides. -/
theorem fieldsOfMembers_iff {ms : List (Option String × Json)} :
    fieldsOfMembers fields ms found = .ok fs ↔
      fieldsOfMembers (lax fields) ms found = .ok fs ∧
        ∀ e ∈ fs, e ∈ found ∨ Takes fields (e.1, some e.2) := by
  induction ms generalizing found with
  | nil =>
      refine ⟨fun h => ⟨h, fun e he => .inl ?_⟩, And.left⟩
      obtain rfl := Except.ok.inj h
      exact he
  | cons m ms ih =>
      obtain ⟨_ | name, j⟩ := m
      · simp [fieldsOfMembers]
      · unfold fieldsOfMembers
        rw [find?_lax]
        cases hf : fields.find? (·.name == name) with
        | none =>
            simp only [Option.map_none]
            split
            · exact ih
            · simp
        | some f =>
            simp only [Option.map_some]
            split
            · simp
            · rename_i hnew
              have hnotin : (name, j) ∉ found := by
                intro hm
                rw [Option.not_isSome_iff_eq_none, List.lookup_eq_none_iff] at hnew
                simpa using hnew _ hm
              cases ha : f.accepts j with
              | error fault =>
                  -- the field was found, and its check fails
                  refine iff_of_false (by simp) ?_
                  rintro ⟨h, hall⟩
                  have hm : (name, j) ∈ fs := subset_of_fieldsOfMembers h (by simp)
                  obtain ⟨f', hf', ha'⟩ := (hall _ hm).resolve_left hnotin j rfl
                  obtain rfl := Option.some.inj (hf.symm.trans hf')
                  rw [ha] at ha'
                  contradiction
              | ok u =>
                  have htakes : Takes fields (name, some j) := by
                    rintro _ ⟨⟩
                    exact ⟨f, hf, ha⟩
                  rw [ih]
                  refine and_congr_right fun _ => forall₂_congr fun e _ => ?_
                  rw [List.mem_append, List.mem_singleton, or_assoc]
                  refine or_congr_right (or_iff_right_of_imp ?_)
                  rintro rfl
                  exact htakes

/-- No name is found twice among members: a repeated one is refused. Members of names that are no
field's may repeat, as they are not found. -/
theorem nodup_fieldsOfMembers {ms : List (Option String × Json)}
    (hn : (found.map Prod.fst).Nodup) (h : fieldsOfMembers fields ms found = .ok fs) :
    (fs.map Prod.fst).Nodup := by
  induction ms generalizing found with
  | nil =>
      obtain rfl := Except.ok.inj h
      exact hn
  | cons m ms ih =>
      obtain ⟨_ | name, j⟩ := m
      · contradiction
      · unfold fieldsOfMembers at h
        split at h
        · split at h
          · exact ih hn h
          · contradiction
        · split at h
          · contradiction
          · rename_i hnew
            split at h
            · contradiction
            · refine ih ?_ h
              rw [Option.not_isSome_iff_eq_none, List.lookup_eq_none_iff] at hnew
              simp only [List.map_append, List.map_cons, List.map_nil]
              refine List.nodup_append.mpr ⟨hn, by simp, fun a ha b hb => ?_⟩
              obtain ⟨e, he, rfl⟩ := List.mem_map.mp ha
              obtain rfl := List.mem_singleton.mp hb
              exact (bne_iff_ne.mp (hnew e he)).symm

/-! ## Arrays -/

/-- The items are those of the first fields, in their order; fields at the end may be left out,
where they allow it. -/
theorem names_fieldsOfItems {js : List Json} (h : fieldsOfItems fields js = .ok fs) :
    fs.map Prod.fst <+: fields.map (·.name) := by
  induction js generalizing fields fs with
  | nil =>
      unfold fieldsOfItems at h
      split at h
      · obtain rfl := Except.ok.inj h
        exact List.nil_prefix
      · contradiction
  | cons j js ih =>
      cases fields with
      | nil => contradiction
      | cons f fields =>
          unfold fieldsOfItems at h
          split at h
          · contradiction
          · obtain ⟨rest, hrest, rfl⟩ := map_eq_ok_iff.mp h
            exact List.cons_prefix_cons.mpr ⟨rfl, ih hrest⟩

/-- Items are accepted if they are without checks, and each passes the check of its field. Fields
and items are gone through side by side, so the names have to differ for a field to be found by its
name afterwards. -/
theorem fieldsOfItems_iff {js : List Json} (hn : (fields.map (·.name)).Nodup) :
    fieldsOfItems fields js = .ok fs ↔
      fieldsOfItems (lax fields) js = .ok fs ∧ ∀ e ∈ fs, Takes fields (e.1, some e.2) := by
  induction js generalizing fields fs with
  | nil =>
      have hall : (lax fields).all (·.hasDefault) = fields.all (·.hasDefault) := by
        rw [lax, List.all_map]
        rfl
      unfold fieldsOfItems
      rw [hall]
      split
      · refine ⟨fun h => ⟨h, ?_⟩, And.left⟩
        obtain rfl := Except.ok.inj h
        exact nofun
      · simp
  | cons j js ih =>
      cases fields with
      | nil => simp [lax, fieldsOfItems]
      | cons f fields =>
          obtain ⟨hf, hn⟩ := List.nodup_cons.mp hn
          have hlax : fieldsOfItems (lax (f :: fields)) (j :: js) =
              (fieldsOfItems (lax fields) js).map ((f.name, j) :: ·) := rfl
          rw [hlax, map_eq_ok_iff]
          -- the field of the first item is the first one
          have hhead : Takes (f :: fields) (f.name, some j) ↔ f.accepts j = .ok () := by
            simp [Takes]
          have htail {rest : Fields} (h : fieldsOfItems (lax fields) js = .ok rest) :
              (∀ e ∈ rest, Takes (f :: fields) (e.1, some e.2)) ↔
                ∀ e ∈ rest, Takes fields (e.1, some e.2) := by
            refine forall₂_congr fun e he => ?_
            have hname : e.1 ∈ (lax fields).map (·.name) :=
              (names_fieldsOfItems h).subset (List.mem_map_of_mem he)
            rw [lax, List.map_map] at hname
            have hne : f.name ≠ e.1 := by
              intro hfe
              have hm : f.name ∈ fields.map (·.name) := by
                rw [hfe]
                exact hname
              exact hf hm
            simp [Takes, hne]
          cases ha : f.accepts j with
          | error fault =>
              refine iff_of_false (by simp [fieldsOfItems, ha]) ?_
              rintro ⟨⟨rest, -, rfl⟩, hall⟩
              have := hhead.mp (hall _ List.mem_cons_self)
              rw [ha] at this
              contradiction
          | ok u =>
              have hstep : fieldsOfItems (f :: fields) (j :: js) =
                  (fieldsOfItems fields js).map ((f.name, j) :: ·) := by simp [fieldsOfItems, ha]
              rw [hstep, map_eq_ok_iff]
              constructor
              · rintro ⟨rest, hrest, rfl⟩
                obtain ⟨hl, hall⟩ := (ih hn).mp hrest
                exact ⟨⟨rest, hl, rfl⟩, List.forall_mem_cons.mpr
                  ⟨hhead.mpr ha, (htail hl).mpr hall⟩⟩
              · rintro ⟨⟨rest, hl, rfl⟩, hall⟩
                rw [List.forall_mem_cons] at hall
                exact ⟨rest, (ih hn).mpr ⟨hl, (htail hl).mp hall.2⟩, rfl⟩

/-! ## Records -/

/-- **A value is accepted as a record** if it is without checks, and each field that is found passes
its check. -/
theorem asFields_iff (hn : (fields.map (·.name)).Nodup) {j : Json} :
    asFields fields j = .ok fs ↔
      asFields (lax fields) j = .ok fs ∧ ∀ e ∈ fs, Takes fields (e.1, some e.2) := by
  cases j with
  | object members =>
      refine fieldsOfMembers_iff.trans (and_congr_right fun _ => forall₂_congr fun e _ => ?_)
      exact or_iff_right List.not_mem_nil
  | array items => exact fieldsOfItems_iff hn
  | null | bool | number | string | broken => simp [asFields]

/-- No field of a record is found twice, in either form. -/
theorem nodup_asFields (hn : (fields.map (·.name)).Nodup) {j : Json}
    (h : asFields fields j = .ok fs) : (fs.map Prod.fst).Nodup := by
  cases j with
  | object members =>
      have hnil : (([] : Fields).map Prod.fst).Nodup := List.nodup_nil
      exact nodup_fieldsOfMembers hnil h
  | array items => exact hn.sublist (names_fieldsOfItems h).sublist
  | null | bool | number | string | broken => contradiction

/-- What is found is looked up under its name, since the name is found once. Without that the first
one of the name would hide the others. -/
theorem lookup_of_mem (hn : (fs.map Prod.fst).Nodup) {e : String × Json} (he : e ∈ fs) :
    fs.lookup e.1 = some e.2 := by
  induction fs with
  | nil => contradiction
  | cons e' fs ih =>
      obtain ⟨hnew, hn⟩ := List.nodup_cons.mp hn
      rcases List.mem_cons.mp he with rfl | he
      · exact List.lookup_cons_self
      · have hne : (e.1 == e'.1) = false :=
          beq_false_of_ne fun h => hnew (h ▸ List.mem_map_of_mem he)
        rw [List.lookup_cons, hne]
        exact ih hn he

/-! ## Records that differ in their checks -/

/-- A field that is another one with a stricter check. -/
structure Field.Refines (f g : Field) : Prop where
  name : f.name = g.name
  hasDefault : f.hasDefault = g.hasDefault
  accepts (j : Json) : f.accepts j = .ok () → g.accepts j = .ok ()

section

variable {strict loose : List Field} (hr : List.Forall₂ Field.Refines strict loose)

include hr

/-- Fields that refine each other are the same without their checks. -/
theorem lax_of_refines : lax strict = lax loose := by
  induction hr with
  | nil => rfl
  | @cons f g _ _ hfg _ ih =>
      have hhead : { f with accepts := fun _ => .ok () } =
          ({ g with accepts := fun _ => .ok () } : Field) := by
        rw [hfg.name, hfg.hasDefault]
      exact List.cons_eq_cons.mpr ⟨hhead, ih⟩

/-- The fields of one name refine each other. -/
theorem find?_of_refines (name : String) :
    Option.Rel Field.Refines (strict.find? (·.name == name)) (loose.find? (·.name == name)) := by
  induction hr with
  | nil => exact .none
  | @cons f g _ _ hfg _ ih =>
      rw [List.find?_cons, List.find?_cons, hfg.name]
      split
      · exact .some hfg
      · exact ih

/-- **With stricter checks a value is accepted** if it is without, and what is found passes them.
Both sides are compared with the record that has no checks at all. -/
theorem asFields_refines_iff (hn : (loose.map (·.name)).Nodup) {j : Json} :
    asFields strict j = .ok fs ↔ asFields loose j = .ok fs ∧
      ∀ name f x, strict.find? (·.name == name) = some f → fs.lookup name = some x →
        f.accepts x = .ok () := by
  have hnames : strict.map (·.name) = loose.map (·.name) := by
    have h := congrArg (List.map (·.name)) (lax_of_refines hr)
    rw [lax, lax, List.map_map, List.map_map] at h
    exact h
  have hmem {name : String} {x : Json} (hl : fs.lookup name = some x) : (name, x) ∈ fs := by
    obtain ⟨before, after, rfl, -⟩ := List.lookup_eq_some_iff.mp hl
    exact List.mem_append_right _ List.mem_cons_self
  rw [asFields_iff (hnames ▸ hn), asFields_iff hn, lax_of_refines hr]
  constructor
  · rintro ⟨hlax, hall⟩
    refine ⟨⟨hlax, fun e he x hx => ?_⟩, fun name f x hf hl => ?_⟩
    · obtain ⟨f, hf, hfx⟩ := hall e he x hx
      have hfind := find?_of_refines hr e.1
      rw [hf] at hfind
      cases hg : loose.find? (·.name == e.1) with
      | none =>
          rw [hg] at hfind
          contradiction
      | some g =>
          rw [hg] at hfind
          exact ⟨g, rfl, (Option.rel_some_some.mp hfind).accepts x hfx⟩
    · obtain ⟨f', hf', hfx⟩ := hall _ (hmem hl) x rfl
      obtain rfl := Option.some.inj (hf.symm.trans hf')
      exact hfx
  · rintro ⟨⟨hlax, hall⟩, hchecks⟩
    refine ⟨hlax, fun e he x hx => ?_⟩
    obtain ⟨g, hg, -⟩ := hall e he x hx
    have hnodup : (fs.map Prod.fst).Nodup := nodup_asFields hn ((asFields_iff hn).mpr ⟨hlax, hall⟩)
    obtain rfl := Option.some.inj hx
    have hfind := find?_of_refines hr e.1
    rw [hg] at hfind
    cases hf : strict.find? (·.name == e.1) with
    | none =>
        rw [hf] at hfind
        contradiction
    | some f => exact ⟨f, rfl, hchecks e.1 f e.2 hf (lookup_of_mem hnodup he)⟩

end

/-! ## Texts -/

/-- What a text stands for is what its JSON does, and only blanks follow that, as what follows is
not read. -/
theorem decode_eq_ok {α : Type} {decoder : Decoder α} {text : String} {a : α} :
    decode decoder text = .ok a ↔
      decoder (parse text).1 = .ok a ∧ (parse text).2.map skipSpace = some [] := by
  unfold decode
  rcases parse text with ⟨j, rest⟩
  dsimp only
  cases decoder j with
  | error fault => simp
  | ok b =>
      cases rest.map skipSpace with
      | none => simp
      | some rest => cases rest <;> simp

end PeerBook.Json
