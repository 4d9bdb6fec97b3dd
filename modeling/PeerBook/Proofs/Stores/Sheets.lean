import PeerBook.Proofs.Stores.Effects
import PeerBook.Proofs.Stores.Episodes

/-!
# PeerBook.Proofs.Stores.Sheets

Messages on sheets. A sheet says what is kept for whom, and a filing of a store
is how it keeps the lines of a sheet under keys: what it has is what is on the
sheet, and nothing else (`Filing.Files`). New lines, lines that are crossed out
and lines that move to another peer come down to what becomes of single keys,
and the keys of a peer are listed as the lines of the peer are
(`Filing.Files.filterMap_perm`).

A sheet is a list, so that listing twice or losing a message shows as a different
list, up to its order. The two message stores differ in their records, in what
they tell messages apart by and in what can be asked of them; a `Filing` has
these as fields and everything else is proved of all filings at once. That a
filing is right about its store is `Filing.Sound`, which takes one step each for
deeds and merges; runs follow by induction (`Filing.Sound.run`).
-/

namespace PeerBook

/-! ## Sheets -/

/-- What is kept, and for whom. -/
abbrev Sheet (α : Type) : Type := List (PeerId × α)

namespace Sheet

variable {α : Type}

/-- What is kept for a peer. -/
def of (sheet : Sheet α) (peer : PeerId) : List α := (sheet.filter (·.1 = peer)).map Prod.snd

/-- The sheet without what is kept for a peer. -/
def without (sheet : Sheet α) (peer : PeerId) : Sheet α := sheet.filter (·.1 ≠ peer)

/-- Lines that move to another peer. All that is written under the old key of a line is its removal,
and all that is written under the new key is the line. -/
def move (sheet : Sheet α) (surviving absorbed : PeerId) : Sheet α :=
  sheet.map fun x => (if x.1 = absorbed then surviving else x.1, x.2)

/-- The survivor has its own lines and those of the absorbed peer, each of them as often as before;
the order may be another. -/
theorem of_move_perm (sheet : Sheet α) {surviving absorbed : PeerId} (hne : surviving ≠ absorbed) :
    ((sheet.move surviving absorbed).of surviving).Perm
      (sheet.of surviving ++ sheet.of absorbed) := by
  induction sheet with
  | nil => exact .refl _
  | cons x sheet ih =>
      obtain ⟨peer, a⟩ := x
      by_cases hs : peer = surviving
      · subst hs
        simpa [of, move, hne] using ih
      · by_cases ha : peer = absorbed
        · subst ha
          simpa [of, move, hne.symm] using (ih.cons a).trans List.perm_middle.symm
        · simpa [of, move, hs, ha] using ih

/-- A line of the absorbed peer is for the survivor after a move, every other line for whom it
was. -/
theorem mem_move {sheet : Sheet α} {surviving absorbed : PeerId} {y : PeerId × α} :
    y ∈ sheet.move surviving absorbed ↔ ∃ x ∈ sheet,
      x.1 = absorbed ∧ y = (surviving, x.2) ∨ x.1 ≠ absorbed ∧ y = x := by
  rw [move, List.mem_map]
  refine exists_congr fun x => and_congr_right fun _ => ?_
  by_cases hx : x.1 = absorbed <;> simp [hx, eq_comm]

end Sheet

/-! ## Filings -/

/-- How a store keeps the lines of a sheet: as which records, how these are read, by which tag it
tells them apart, and what a deed for a peer does to them. -/
structure Filing (st : Store) (α μ : Type) where
  record : α → Record st
  decoder : Json.Decoder μ
  message : α → PeerId → μ
  decode : ∀ a peer, Json.decode decoder ((record a).text peer) = .ok (message a peer)
  tag : α → String
  tag_eq : ∀ {a b : α} {peer : PeerId}, (record a).key peer = (record b).key peer → tag a = tag b
  amend : PeerId → Deed st → Sheet α → Sheet α

namespace Filing

variable {st : Store} {α μ : Type} (F : Filing st α μ)

/-- The key of a line. -/
def key (x : PeerId × α) : String := (F.record x.2).key x.1

/-- The text of a line. -/
def text (x : PeerId × α) : String := (F.record x.2).text x.1

/-- The tags of the lines of a sheet. -/
def tags (sheet : Sheet α) : List String := sheet.map fun x => F.tag x.2

/-- What a store has is what is on a sheet. -/
structure Files (c : Contents) (sheet : Sheet α) : Prop where
  has : ∀ x ∈ sheet, c.get? (F.key x) = some (F.text x)
  only : ∀ key, st.Keeps key → c.get? key ≠ none → ∃ x ∈ sheet, key = F.key x

variable {F} {c c' : Contents} {sheet : Sheet α} {x y : PeerId × α} {surviving absorbed : PeerId}

/-- The key of a line is held by the peer that it is for. -/
theorem holds_key (F : Filing st α μ) (x : PeerId × α) : st.Holds x.1 (F.key x) :=
  (F.record x.2).holds x.1

/-- It is held by no other peer. -/
theorem holds_key_iff {peer : PeerId} : st.Holds peer (F.key x) ↔ x.1 = peer :=
  ⟨fun h => (F.holds_key x).unique h, fun h => h ▸ F.holds_key x⟩

/-- A key is of one peer and one tag. -/
theorem key_eq (h : F.key x = F.key y) : x.1 = y.1 ∧ F.tag x.2 = F.tag y.2 := by
  obtain ⟨p, a⟩ := x
  obtain ⟨q, b⟩ := y
  obtain rfl : q = p := holds_key_iff.mp (h ▸ F.holds_key (p, a))
  exact ⟨rfl, F.tag_eq h⟩

/-- With fewer lines there are no other tags. -/
theorem tags_sublist {sheet' : Sheet α} (h : sheet'.Sublist sheet) (tags : List String) :
    (F.tags sheet').Sublist (F.tags sheet ++ tags) :=
  (h.map _).trans (List.sublist_append_left _ _)

/-- A well-written store whose records are all lines is on a sheet, and where a tag is of one key
no two lines have one tag. -/
theorem exists_files {live : PeerId → Prop} (h : st.Written live c)
    (hF : ∀ r : Record st, ∃ a, r = F.record a)
    (hd : ∀ x y : PeerId × α, c.get? (F.key x) ≠ none → c.get? (F.key y) ≠ none →
      F.tag x.2 = F.tag y.2 → F.key x = F.key y) :
    ∃ sheet, F.Files c sheet ∧ (F.tags sheet).Nodup := by
  classical
  have hlines (keys : List String) (hk : ∀ key ∈ keys, st.Keeps key ∧ c.get? key ≠ none) :
      ∃ sheet : Sheet α, sheet.map F.key = keys ∧
        ∀ x ∈ sheet, c.get? (F.key x) = some (F.text x) := by
    induction keys with
    | nil => exact ⟨[], rfl, nofun⟩
    | cons key keys ih =>
        rw [List.forall_mem_cons] at hk
        obtain ⟨sheet, rfl, hsheet⟩ := ih hk.2
        obtain ⟨value, hv⟩ := Option.ne_none_iff_exists'.mp hk.1.2
        obtain ⟨peer, r, -, rfl, rfl⟩ := h key value hk.1.1 hv
        obtain ⟨a, rfl⟩ := hF r
        exact ⟨(peer, a) :: sheet, rfl, List.forall_mem_cons.mpr ⟨hv, hsheet⟩⟩
  obtain ⟨sheet, hkeys, hhas⟩ := hlines (c.keys.filter fun key => st.Keeps key) fun key hk => by
    obtain ⟨hkey, hkeep⟩ := List.mem_filter.mp hk
    obtain ⟨value, hv⟩ := Table.mem_keys_iff.mp hkey
    exact ⟨of_decide_eq_true hkeep, by rw [hv]; exact nofun⟩
  refine ⟨sheet, ⟨hhas, fun key hk hv => ?_⟩, ?_⟩
  · have hmem : key ∈ sheet.map F.key := by
      rw [hkeys, List.mem_filter]
      exact ⟨Table.mem_keys_iff.mpr (Option.ne_none_iff_exists'.mp hv), decide_eq_true hk⟩
    obtain ⟨x, hx, rfl⟩ := List.mem_map.mp hmem
    exact ⟨x, hx, rfl⟩
  · have hn : (sheet.map F.key).Nodup := hkeys ▸ (Table.nodup_keys c).filter _
    rw [List.Nodup, List.pairwise_map] at hn
    rw [tags, List.Nodup, List.pairwise_map]
    refine hn.imp_of_mem fun {x y} hx hy hne htag => hne (hd x y ?_ ?_ htag)
    · rw [hhas x hx]
      exact nofun
    · rw [hhas y hy]
      exact nofun

/-- Lines that are told apart have keys of their own, whoever they are for: no tag is on two lines,
so moving a line cannot overwrite another. -/
theorem eq_of_tag (hn : (F.tags sheet).Nodup) (hx : x ∈ sheet) (hy : y ∈ sheet)
    (h : F.tag x.2 = F.tag y.2) : x = y := by
  induction sheet with
  | nil => contradiction
  | cons z sheet ih =>
      obtain ⟨hz, hn⟩ := List.nodup_cons.mp hn
      have hother {w : PeerId × α} (hw : w ∈ sheet) : F.tag w.2 ≠ F.tag z.2 :=
        fun he => hz (List.mem_map.mpr ⟨w, hw, he⟩)
      rcases List.mem_cons.mp hx with hxz | hxs <;> rcases List.mem_cons.mp hy with hyz | hys
      · rw [hxz, hyz]
      · exact absurd (hxz ▸ h).symm (hother hys)
      · exact absurd (hyz ▸ h) (hother hxs)
      · exact ih hn hxs hys

/-! ### What becomes of the lines -/

/-- A store without keys is on the empty sheet. -/
theorem files_nil (h : ∀ key, st.Keeps key → c.get? key = none) : F.Files c [] :=
  ⟨nofun, fun key hk hv => absurd (h key hk) hv⟩

namespace Files

/-- A store that is on a sheet is well written. -/
theorem written (h : F.Files c sheet) : st.Written (fun _ => True) c := by
  intro key value hk hv
  obtain ⟨x, hx, rfl⟩ := h.only key hk (by rw [hv]; exact nofun)
  exact ⟨x.1, F.record x.2, trivial, rfl, Option.some.inj (hv.symm.trans (h.has x hx))⟩

/-- Writes of others change nothing. -/
theorem congr (h : F.Files c sheet) (hc : ∀ key, st.Keeps key → c'.get? key = c.get? key) :
    F.Files c' sheet where
  has x hx := (hc _ (F.holds_key x).keeps).trans (h.has x hx)
  only key hk hv := h.only key hk (hc key hk ▸ hv)

/-- A line that is added, under a tag that no line has. A tag that is on the sheet already would be
one that is replaced. -/
theorem put (h : F.Files c sheet) (hx : F.tag x.2 ∉ F.tags sheet) :
    F.Files (c.applyAll [.put (F.key x) (F.text x)]) (sheet ++ [x]) where
  has y hy := by
    rcases List.mem_append.mp hy with hy | hy
    · rw [Contents.get?_put_of_ne c (F.text x) fun he => hx ?_]
      · exact h.has y hy
      · rw [← (key_eq he).2]
        exact List.mem_map_of_mem hy
    · obtain rfl := List.mem_singleton.mp hy
      exact Contents.get?_put c _ _
  only key hk hv := by
    by_cases he : key = F.key x
    · exact ⟨x, List.mem_append_right _ (List.mem_singleton_self x), he⟩
    · rw [Contents.get?_put_of_ne c _ he] at hv
      obtain ⟨y, hy, rfl⟩ := h.only key hk hv
      exact ⟨y, List.mem_append_left _ hy, rfl⟩

/-- Lines that are crossed out, given that what is gone from the store are just their keys. -/
theorem filter (h : F.Files c sheet) (gone : String → Prop) [DecidablePred gone]
    (hc : ∀ key, st.Keeps key → c'.get? key = if gone key then none else c.get? key)
    {keep : PeerId × α → Bool} (hkeep : ∀ x ∈ sheet, keep x = true ↔ ¬gone (F.key x)) :
    F.Files c' (sheet.filter keep) where
  has x hx := by
    obtain ⟨hx, hk⟩ := List.mem_filter.mp hx
    rw [hc _ (F.holds_key x).keeps, if_neg ((hkeep x hx).mp hk)]
    exact h.has x hx
  only key hk hv := by
    rw [hc key hk] at hv
    split at hv
    · contradiction
    · rename_i hn
      obtain ⟨x, hx, rfl⟩ := h.only key hk hv
      exact ⟨x, List.mem_filter.mpr ⟨hx, (hkeep x hx).mpr hn⟩, rfl⟩

/-- The lines of a peer that are crossed out. -/
theorem without (h : F.Files c sheet) {peer : PeerId} {keyPrefix : String}
    (hk : ∀ key, Text.hasPrefix keyPrefix key = true ↔ st.Holds peer key)
    (hc : ∀ key, c'.get? key = if Text.hasPrefix keyPrefix key = true then none else c.get? key) :
    F.Files c' (sheet.without peer) := by
  refine h.filter _ (fun key _ => hc key) fun x _ => ?_
  rw [hk, holds_key_iff, decide_eq_true_iff]

/-- Lines that move to another peer. -/
theorem move (h : F.Files c sheet) (hn : (F.tags sheet).Nodup) (hne : surviving ≠ absorbed)
    {ws : List Write} (hws : ∀ w, w ∈ ws ↔ ∃ x ∈ sheet, x.1 = absorbed ∧
      (w = .del (F.key x) ∨ w = .put (F.key (surviving, x.2)) (F.text (surviving, x.2)))) :
    F.Files (c.applyAll ws) (sheet.move surviving absorbed) where
  has y hy := by
    obtain ⟨x, hx, ⟨ha, rfl⟩ | ⟨ha, rfl⟩⟩ := Sheet.mem_move.mp hy
    · -- all that is written under the new key is this line
      rw [Contents.get?_applyAll (v := some (F.text (surviving, x.2))) c ws ?_, if_pos ?_]
      · exact List.mem_map.mpr ⟨_, (hws _).mpr ⟨x, hx, ha, .inr rfl⟩, rfl⟩
      · intro w hw hk
        obtain ⟨z, hz, hza, rfl | rfl⟩ := (hws w).mp hw
        · exact absurd (hza.symm.trans (key_eq hk).1) hne.symm
        · rw [eq_of_tag hn hz hx (key_eq (x := (surviving, z.2)) hk).2]
          rfl
    · rw [Contents.get?_applyAll_of_ne c fun w hw hk => ?_]
      · exact h.has y hx
      · obtain ⟨z, hz, hza, rfl | rfl⟩ := (hws w).mp hw
        · exact ha ((key_eq hk).1 ▸ hza)
        · rw [eq_of_tag hn hz hx (key_eq (x := (surviving, z.2)) hk).2] at hza
          exact ha hza
  only key hk hv := by
    obtain hkeep | ⟨w, hw, rfl, hval⟩ := Contents.get?_applyAll_or c ws key
    · obtain ⟨x, hx, rfl⟩ := h.only key hk (hkeep ▸ hv)
      refine ⟨x, Sheet.mem_move.mpr ⟨x, hx, .inr ⟨fun ha => hv ?_, rfl⟩⟩, rfl⟩
      -- all that is written under the old key is the removal of this line
      rw [Contents.get?_applyAll (v := none) c ws ?_, if_pos ?_]
      · exact List.mem_map.mpr ⟨_, (hws _).mpr ⟨x, hx, ha, .inl rfl⟩, rfl⟩
      · intro w hw hk'
        obtain ⟨z, hz, hza, rfl | rfl⟩ := (hws w).mp hw
        · rfl
        · exact absurd ((key_eq (x := (surviving, z.2)) hk').1.trans ha) hne
    · obtain ⟨z, hz, hza, rfl | rfl⟩ := (hws w).mp hw
      · exact absurd hval hv
      · exact ⟨_, Sheet.mem_move.mpr ⟨z, hz, .inl ⟨hza, rfl⟩⟩, rfl⟩

/-! ### What is listed -/

/-- The keys with a prefix are those of the lines with such keys, each once, in the order in which
the storage lists them. -/
theorem keysUnder_perm (h : F.Files c sheet) (hn : (F.tags sheet).Nodup) (keyPrefix : String)
    (hk : ∀ key, Text.hasPrefix keyPrefix key = true → st.Keeps key) :
    (c.keysUnder keyPrefix).Perm
      ((sheet.filter fun x => Text.hasPrefix keyPrefix (F.key x)).map F.key) := by
  rw [tags, List.Nodup, List.pairwise_map] at hn
  refine (List.perm_ext_iff_of_nodup ?_ ?_).mpr fun key => ?_
  · exact (Table.nodup_keys c).filter _
  · rw [List.Nodup, List.pairwise_map]
    exact (hn.filter _).imp fun hne he => hne (key_eq he).2
  · rw [Contents.mem_keysUnder, List.mem_map]
    constructor
    · rintro ⟨⟨v, hv⟩, hp⟩
      obtain ⟨x, hx, rfl⟩ := h.only key (hk key hp) (by rw [hv]; exact nofun)
      exact ⟨x, List.mem_filter.mpr ⟨hx, hp⟩, rfl⟩
    · rintro ⟨x, hx, rfl⟩
      obtain ⟨hx, hp⟩ := List.mem_filter.mp hx
      exact ⟨⟨_, h.has x hx⟩, hp⟩

/-- A line is read from its key. -/
theorem json?_key (h : F.Files c sheet) (hx : x ∈ sheet) :
    c.json? F.decoder (F.key x) = .ok (some (F.message x.2 x.1)) :=
  Contents.json?_of_decode (h.has x hx) (F.decode x.2 x.1)

/-- Everything can be read. -/
theorem json?_eq_ok (h : F.Files c sheet) {key : String} (hk : st.Keeps key) :
    c.json? F.decoder key = .ok (c.json? F.decoder key).toOption.join := by
  by_cases hv : c.get? key = none
  · rw [Contents.json?_of_none hv]
    rfl
  · obtain ⟨x, hx, rfl⟩ := h.only key hk hv
    rw [h.json?_key hx]
    rfl

/-- What can be read under the keys of a peer are its lines. -/
theorem exists_json?_iff (h : F.Files c sheet) {keys : List String}
    (hk : st.Held c absorbed keys) {m : μ} :
    (∃ k ∈ keys, c.json? F.decoder k = .ok (some m)) ↔
      ∃ x ∈ sheet, x.1 = absorbed ∧ m = F.message x.2 absorbed := by
  constructor
  · rintro ⟨k, hks, hj⟩
    obtain ⟨⟨v, hv⟩, hh⟩ := (hk k).mp hks
    obtain ⟨x, hx, rfl⟩ := h.only k hh.keeps (by rw [hv]; exact nofun)
    obtain rfl := holds_key_iff.mp hh
    exact ⟨x, hx, rfl, Option.some.inj (Except.ok.inj (hj.symm.trans (h.json?_key hx)))⟩
  · rintro ⟨x, hx, rfl, rfl⟩
    exact ⟨F.key x, (hk _).mpr ⟨⟨_, h.has x hx⟩, F.holds_key x⟩, h.json?_key hx⟩

/-- What was found under the keys of a peer are its lines. -/
theorem exists_found_iff (h : F.Files c sheet) {keys : List String} (hk : st.Held c absorbed keys)
    {found : List μ}
    (hfound : ∀ m, m ∈ found ↔ ∃ k ∈ keys, c.json? F.decoder k = .ok (some m)) {P : μ → Prop} :
    (∃ m ∈ found, P m) ↔ ∃ x ∈ sheet, x.1 = absorbed ∧ P (F.message x.2 absorbed) := by
  constructor
  · rintro ⟨m, hm, hP⟩
    obtain ⟨x, hx, ha, rfl⟩ := (h.exists_json?_iff hk).mp ((hfound m).mp hm)
    exact ⟨x, hx, ha, hP⟩
  · rintro ⟨x, hx, ha, hP⟩
    exact ⟨_, (hfound _).mpr ((h.exists_json?_iff hk).mpr ⟨x, hx, ha, rfl⟩), hP⟩

/-- **What is read under the keys of a peer is what is on the sheet for the peer**, up to the order
in which keys are listed. Nothing is passed over, as all of it can be read. -/
theorem filterMap_perm (h : F.Files c sheet) (hn : (F.tags sheet).Nodup) {peer : PeerId}
    {keyPrefix : String} (hk : ∀ key, Text.hasPrefix keyPrefix key = true ↔ st.Holds peer key)
    {keys : List String} (hkeys : keys.Perm (c.keysUnder keyPrefix)) :
    (keys.filterMap fun k => (c.json? F.decoder k).toOption.join).Perm
      ((sheet.of peer).map (F.message · peer)) := by
  have hlines : (sheet.filter fun x => Text.hasPrefix keyPrefix (F.key x)) =
      sheet.filter (·.1 = peer) := by
    refine List.filter_congr fun x _ => ?_
    rw [Bool.eq_iff_iff, hk, holds_key_iff, decide_eq_true_iff]
  have hread : ∀ x ∈ sheet.filter (·.1 = peer),
      (c.json? F.decoder (F.key x)).toOption.join = some (F.message x.2 peer) := by
    intro x hx
    obtain ⟨hmem, hp⟩ := List.mem_filter.mp hx
    obtain rfl := of_decide_eq_true hp
    rw [h.json?_key hmem]
    rfl
  have hperm := hkeys.trans (h.keysUnder_perm hn _ fun key hp => ((hk key).mp hp).keeps)
  rw [hlines] at hperm
  refine (hperm.filterMap _).trans (List.Perm.of_eq ?_)
  calc ((sheet.filter (·.1 = peer)).map F.key).filterMap _
    _ = ((sheet.filter (·.1 = peer)).map fun x =>
          (c.json? F.decoder (F.key x)).toOption.join).filterMap id := by
      rw [List.filterMap_map, List.filterMap_map]
      rfl
    _ = ((sheet.filter (·.1 = peer)).map fun x => some (F.message x.2 peer)).filterMap id := by
      rw [List.map_congr_left hread]
    _ = (sheet.of peer).map (F.message · peer) := by
      simp [Sheet.of, List.filterMap_map, Function.comp_def]

end Files

end Filing

/-! ## Sheets from episode to episode -/

/-- The tag of the message that a deed brings. -/
def Deed.tag? : {st : Store} → Deed st → Option String
  | _, insert l => some l.id
  | .messages _, add e => some e.id
  | _, _ => none

namespace Episode

variable {st : Store}

/-- The tag of the message that an episode brings. -/
def tag? : Episode st → Option String
  | deed _ _ d => d.tag?
  | merge _ _ | others _ _ => none

/-- A merge is one of two peers. -/
def Proper : Episode st → Prop
  | merge surviving absorbed => surviving ≠ absorbed
  | deed _ _ _ | others _ _ => True

end Episode

namespace Filing

variable {st : Store} {α μ : Type}

/-- **An episode does to the store what it does to the sheet**, whether it is a deed, a merge or
writes of others. A message may not come under a tag that is on the sheet. -/
def play (F : Filing st α μ) : Episode st → Sheet α → Sheet α
  | .deed redirects i d, sheet => F.amend (redirects.follow i) d sheet
  | .merge surviving absorbed, sheet => sheet.move surviving absorbed
  | .others _ _, sheet => sheet

/-- The sheet after episodes in order, from an empty one. -/
def after (F : Filing st α μ) (episodes : List (Episode st)) : Sheet α :=
  episodes.foldl (fun sheet t => F.play t sheet) []

/-- A filing is right about its store: deeds do to the store what they do to the sheet, a merge
carries the lines of the absorbed peer, and no tag comes from nowhere. -/
structure Sound (F : Filing st α μ) : Prop where
  deed : ∀ {σ : Type} [Storage σ] {contents : σ → Contents}, Storage.Faithful contents →
    ∀ {c : Contents} {sheet : Sheet α}, F.Files c sheet → ∀ (redirects : Redirects) (i : PeerId)
      (d : Deed st), (F.tags sheet ++ d.tag?.toList).Nodup →
        (d.perform redirects i : Op σ Unit).Brings contents c fun _ c' =>
          F.Files c' (F.amend (redirects.follow i) d sheet)
  batch : ∀ {c : Contents} {sheet : Sheet α} {surviving absorbed : PeerId} {keys : List String}
    {ws : List Write}, F.Files c sheet → st.Held c absorbed keys →
      st.batch c surviving absorbed keys = .ok ws → ∀ w, w ∈ ws ↔ ∃ x ∈ sheet, x.1 = absorbed ∧
        (w = .del (F.key x) ∨ w = .put (F.key (surviving, x.2)) (F.text (surviving, x.2)))
  tags : ∀ (peer : PeerId) (d : Deed st) (sheet : Sheet α),
    (F.tags (F.amend peer d sheet)).Sublist (F.tags sheet ++ d.tag?.toList)

namespace Sound

variable {F : Filing st α μ} {σ : Type} [Storage σ] {contents : σ → Contents} {c : Contents}
  {sheet : Sheet α}

/-- **An episode does to the store what it does to the sheet.** -/
theorem play (hF : F.Sound) (hs : Storage.Faithful contents) (h : F.Files c sheet) {t : Episode st}
    (hn : (F.tags sheet ++ t.tag?.toList).Nodup) (ht : t.Proper) :
    (t.perform : Op σ Unit).Brings contents c fun _ c' => F.Files c' (F.play t sheet) := by
  cases t with
  | deed redirects i d => exact hF.deed hs h redirects i d hn
  | merge surviving absorbed =>
      have hsheet : (F.tags sheet).Nodup := by simpa [Episode.tag?] using hn
      refine (Op.Brings.of_submits hs (st.merge_submits hs.legible surviving absorbed) ?_).mono ?_
      · rintro e ⟨keys, hk, he⟩
        obtain ⟨ws, hb⟩ := h.written.batch_ok hk surviving
        rw [hb] at he
        contradiction
      · rintro _ _ ⟨ws, ⟨keys, hk, hb⟩, rfl⟩
        exact h.move hsheet ht (hF.batch h hk hb.symm)
  | others ws hapart =>
      refine .of_makes (hs.writeBatch ws) (h.congr fun key hk => ?_)
      exact Contents.get?_applyAll_of_ne c fun w hw he => hapart w hw (he ▸ hk)

/-- An episode brings at most one new tag. -/
theorem tags_play (hF : F.Sound) (t : Episode st) (sheet : Sheet α) :
    (F.tags (F.play t sheet)).Sublist (F.tags sheet ++ t.tag?.toList) := by
  cases t with
  | deed redirects i d => exact hF.tags _ d sheet
  | merge surviving absorbed =>
      simp [Filing.play, Filing.tags, Sheet.move, Episode.tag?, Function.comp_def]
  | others ws hapart => simp [Filing.play, Episode.tag?]

/-- **So does a run.** No tag is brought twice, which is what makes each message one line. -/
theorem run (hF : F.Sound) (hs : Storage.Faithful contents) {episodes : List (Episode st)}
    (h : F.Files c sheet) (hn : (F.tags sheet ++ episodes.filterMap Episode.tag?).Nodup)
    (ht : ∀ t ∈ episodes, t.Proper) :
    (Storage.forEach Episode.perform episodes : Op σ Unit).Brings contents c fun _ c' =>
      F.Files c' (episodes.foldl (fun sheet t => F.play t sheet) sheet) ∧
        (F.tags (episodes.foldl (fun sheet t => F.play t sheet) sheet)).Nodup := by
  induction episodes generalizing c sheet with
  | nil => exact .pure ⟨h, by simpa using hn⟩
  | cons t episodes ih =>
      rw [List.forall_mem_cons] at ht
      have hcons : (t :: episodes).filterMap Episode.tag? =
          t.tag?.toList ++ episodes.filterMap Episode.tag? := by
        cases htag : t.tag? <;> simp [htag]
      rw [hcons, ← List.append_assoc] at hn
      refine (hF.play hs h (List.nodup_append.mp hn).1 ht.1).bind fun _ c' h' => ih h' ?_ ht.2
      exact hn.sublist ((hF.tags_play t sheet).append_right _)

end Sound

end Filing

end PeerBook
