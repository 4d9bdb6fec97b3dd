import PeerBook.Proofs.Stores.Following
import PeerBook.Proofs.Stores.Items
import PeerBook.Proofs.Stores.Messages
import PeerBook.Proofs.Stores.ReadBack

/-!
# PeerBook.Proofs.Stores.Inheritance

What a survivor has after a merge, and that nobody else is touched. Each store
has a rule of its own (`Store.Inherits`):

- a live session is kept, and any other gives way to that of the absorbed peer;
- an identity is kept as it is, and taken over where there is none;
- the parts of a portrait and the single settings are filled in where they are
  missing, one by one, and the settings are marked for upload;
- messages come to those that are there.

The rules are stated by what is read through the survivor and the absorbed peer
before and through the survivor afterwards. They are proved of the content for
one record after the other (the lemmas `json?_applyAll`), and `merge_inherits`
is about everything that a store can have written, also on a storage on which it
was cut short. That nothing is left of the absorbed peer, and that other peers
and other stores keep what they have, are the other fields of
`Store.Inherited`; they hold of every store for the same reason, that a batch
removes keys of the absorbed peer and puts keys of the survivor.
-/

namespace PeerBook

variable {c : Contents} {surviving absorbed : PeerId} {keys : List String} {ws : List Write}
  {live : PeerId → Prop}

/-! ## The records of the survivor -/

namespace Sessions

/-- A session comes to the survivor if the absorbed peer has it and the survivor has no live one of
the device. -/
theorem put_mem_batch_iff (h : Store.sessions.Written live c)
    (hk : Store.sessions.Held c absorbed keys) (hb : batch c surviving keys = .ok ws)
    {device : UInt32} {mine : Option Session}
    (hm : c.json? StoredSession.ofJson (key surviving device) = .ok (mine.map Session.stored))
    {raw : String} : .put (key surviving device) raw ∈ ws ↔
      c.get? (key absorbed device) = some raw ∧ ¬mine.any (·.live) = true := by
  constructor
  · intro hput
    obtain ⟨k, hks, ws', hmove, hw⟩ := (mem_batch_iff hb).mp hput
    obtain ⟨rest, rfl, hrest⟩ := move_eq_ok hmove
    have hcome := (List.mem_cons.mp hw).resolve_left nofun
    obtain ⟨device', raw', hdev, hraw, he⟩ := hrest _ hcome
    obtain ⟨hkey, rfl⟩ := Write.put.inj he
    -- the key of the absorbed peer with this device is that of the session
    obtain ⟨-, r, rfl, -⟩ := h.of_holds ((hk k).mp hks).2 hraw
    cases r with
    | session device'' _ =>
        obtain rfl := Option.some.inj ((deviceOf?_key absorbed device'').symm.trans hdev)
        obtain rfl := key_inj hkey
        have hmove' := move_key hraw hm
        refine ⟨hraw, fun hlive => ?_⟩
        rw [if_pos hlive] at hmove'
        obtain rfl := (List.cons.inj (Except.ok.inj (hmove.symm.trans hmove'))).2
        exact List.not_mem_nil hcome
  · rintro ⟨hraw, hlive⟩
    have hmove := move_key hraw hm
    rw [if_neg hlive] at hmove
    refine (mem_batch_iff hb).mpr ⟨_, (hk _).mpr ⟨⟨raw, hraw⟩, Text.hasPrefix_append _ _⟩, _, hmove,
      List.mem_cons_of_mem _ List.mem_cons_self⟩

/-- **The survivor keeps a live session**; of another device it has that of the absorbed peer, if
there is one. -/
theorem json?_applyAll (h : Store.sessions.Written live c) (hne : surviving ≠ absorbed)
    (hk : Store.sessions.Held c absorbed keys) (hb : batch c surviving keys = .ok ws)
    {device : UInt32} {mine theirs : Option Session}
    (hm : c.json? StoredSession.ofJson (key surviving device) = .ok (mine.map Session.stored))
    (ht : c.json? StoredSession.ofJson (key absorbed device) = .ok (theirs.map Session.stored)) :
    (c.applyAll ws).json? StoredSession.ofJson (key surviving device) =
      .ok ((if mine.any (·.live) then mine else theirs.or mine).map Session.stored) := by
  -- what is written under the key is the session of the absorbed peer
  have hput : ∀ w ∈ ws, w.key = key surviving device → ∃ raw, w = .put (key surviving device) raw ∧
      c.get? (key absorbed device) = some raw ∧ ¬mine.any (·.live) = true := by
    intro w hw he
    have hcarry : Store.sessions.Carries surviving absorbed w := Store.batch_carries hk hb w hw
    obtain ⟨raw, rfl⟩ := hcarry.exists_put hne (Text.hasPrefix_append _ _) he
    exact ⟨raw, rfl, (put_mem_batch_iff h hk hb hm).mp hw⟩
  cases hraw : c.get? (key absorbed device) with
  | none =>
      have hnone : theirs = none := by
        rw [Contents.json?_of_none hraw] at ht
        cases theirs with
        | none => rfl
        | some _ => cases ht
      have hkeep := Contents.get?_applyAll_of_ne c fun w hw he => by
        obtain ⟨raw, -, hr, -⟩ := hput w hw he
        exact nomatch hraw.symm.trans hr
      rw [Contents.json?_congr hkeep, hm, hnone, Option.none_or, ite_self]
  | some raw =>
      have hsome : theirs.isSome = true := by
        cases theirs with
        | some _ => rfl
        | none => exact nomatch hraw.symm.trans (Contents.get?_of_json?_none ht)
      obtain ⟨t, rfl⟩ := Option.isSome_iff_exists.mp hsome
      split
      · rename_i hlive
        rw [Contents.json?_congr (Contents.get?_applyAll_of_ne c fun w hw he => ?_), hm]
        obtain ⟨-, -, -, hn⟩ := hput w hw he
        exact hn hlive
      · rename_i hlive
        have hcome : (c.applyAll ws).get? (key surviving device) = some raw := by
          rw [Contents.get?_applyAll (v := some raw) c ws fun w hw he => ?_, if_pos ?_]
          · exact List.mem_map.mpr ⟨_, (put_mem_batch_iff h hk hb hm).mpr ⟨hraw, hlive⟩, rfl⟩
          · obtain ⟨raw', rfl, hr, -⟩ := hput w hw he
            exact (hraw.symm.trans hr).symm
        rw [Contents.json?_congr (hcome.trans hraw.symm), ht]
        rfl

end Sessions

namespace Identities

/-- **The survivor keeps an identity**, or has that of the absorbed peer as it was, with its trust
and its time. -/
theorem json?_applyAll (hne : surviving ≠ absorbed) {mine theirs : Option Identity}
    (hm : c.json? Identity.ofJson (key surviving) = .ok mine)
    (ht : c.json? Identity.ofJson (key absorbed) = .ok theirs) :
    (c.applyAll (batch c surviving absorbed)).json? Identity.ofJson (key surviving) =
      .ok (mine.or theirs) := by
  have hkeys : key surviving ≠ key absorbed := fun he => hne (Text.append_peer_inj he)
  unfold batch
  cases hraw : c.get? (key absorbed) with
  | none =>
      obtain rfl : none = theirs := by simpa [Contents.json?_of_none hraw] using ht
      rw [Option.or_none]
      exact hm
  | some raw =>
      cases hown : c.get? (key surviving) with
      | none =>
          obtain rfl : none = mine := by simpa [Contents.json?_of_none hown] using hm
          have hcome : (c.applyAll [.del (key absorbed), .put (key surviving) raw]).get?
              (key surviving) = c.get? (key absorbed) := by
            simp [Contents.applyAll, Contents.apply, hraw]
          rw [Option.none_or, ← ht]
          exact Contents.json?_congr hcome
      | some own =>
          have hsome : mine ≠ none := by
            rintro rfl
            cases hown.symm.trans (Contents.get?_of_json?_none hm)
          obtain ⟨i, rfl⟩ := Option.ne_none_iff_exists'.mp hsome
          have hkeep : (c.applyAll [.del (key absorbed)]).get? (key surviving) =
              c.get? (key surviving) := by
            simp [Contents.applyAll, Contents.apply, Table.get?_erase, hkeys]
          rw [Option.some_or, ← hm]
          exact Contents.json?_congr hkeep

end Identities

namespace Profiles

/-- **The gaps of the survivor's portrait are filled**, the key and each part of the profile by
itself. -/
theorem json?_applyAll (hne : surviving ≠ absorbed) (hb : batch c surviving absorbed = .ok ws)
    {mine theirs : Option Portrait}
    (hm : c.json? ProfileEntry.ofJson (key surviving) = .ok (mine.map Portrait.entry))
    (ht : c.json? ProfileEntry.ofJson (key absorbed) = .ok (theirs.map Portrait.entry)) :
    (c.applyAll ws).json? ProfileEntry.ofJson (key surviving) =
      .ok ((Option.merge Portrait.or mine theirs).map Portrait.entry) := by
  have hkeys : key surviving ≠ key absorbed := fun he => hne (Text.append_peer_inj he)
  obtain ⟨hnone, rfl⟩ | ⟨e, f, he, hf, rfl⟩ := batch_eq_ok hb
  · cases theirs with
    | some _ => exact nomatch ht.symm.trans hnone
    | none =>
        rw [show Option.merge Portrait.or mine none = mine by cases mine <;> rfl]
        exact hm
  · obtain rfl := Except.ok.inj (hm.symm.trans hf)
    obtain ⟨p, rfl, rfl⟩ := Option.map_eq_some_iff.mp (Except.ok.inj (ht.symm.trans he))
    have hmerged : ((mine.map Portrait.entry).map (·.or p.entry)).getD p.entry =
        ((mine.map (·.or p)).getD p).entry := by
      cases mine <;> simp [Portrait.entry_or]
    have hboth : Option.merge Portrait.or mine (some p) = some ((mine.map (·.or p)).getD p) := by
      cases mine <;> rfl
    rw [hmerged, hboth]
    refine Contents.json?_of_decode ?_ (ProfileEntry.restores.decode_compact _)
    simp [Contents.applyAll, Contents.apply, Table.get?_erase, hkeys]

end Profiles

namespace Preferences

/-- **The gaps of the survivor's settings are filled**, and the mark moves: the survivor is marked
in any case. -/
theorem json?_applyAll (hne : surviving ≠ absorbed) (hb : batch c surviving absorbed = .ok ws)
    {mine theirs : Option Preferences} (hm : c.json? ofJson (key surviving) = .ok mine)
    (ht : c.json? ofJson (key absorbed) = .ok theirs) :
    (∃ both, (c.applyAll ws).json? ofJson (key surviving) = .ok both ∧
      both.getD .empty = (mine.getD .empty).or (theirs.getD .empty)) ∧
    (c.applyAll ws).get? (syncKey surviving) ≠ none ∧
      (c.applyAll ws).get? (syncKey absorbed) = none := by
  have hkeys : key surviving ≠ key absorbed := fun he => hne (Text.append_peer_inj he)
  have hmarks : syncKey surviving ≠ syncKey absorbed := fun he => hne (Text.append_peer_inj he)
  obtain ⟨settings, rfl, ⟨hnone, rfl⟩ | ⟨p, q, hp, hq, rfl⟩⟩ := batch_eq_ok hb
  · obtain rfl := Except.ok.inj (ht.symm.trans hnone)
    refine ⟨⟨mine, ?_, by cases mine <;> simp [or, empty]⟩, ?_, ?_⟩
    · rw [← hm]
      refine Contents.json?_congr ?_
      simp [Contents.applyAll, Contents.apply, Table.get?_erase, Table.get?_insert, key_ne_syncKey]
    · simp [Contents.applyAll, Contents.apply, Table.get?_erase, hmarks]
    · simp [Contents.applyAll, Contents.apply]
  · obtain rfl := Except.ok.inj (ht.symm.trans hp)
    obtain rfl : mine.getD .empty = q := by simpa [stored, hm, Except.map] using hq
    refine ⟨⟨some ((mine.getD .empty).or p), ?_, rfl⟩, ?_, ?_⟩
    · refine Contents.json?_of_decode ?_ (restores.decode_compact _)
      simp [Contents.applyAll, Contents.apply, Table.get?_erase, Table.get?_insert, key_ne_syncKey,
        hkeys]
    · simp [Contents.applyAll, Contents.apply, Table.get?_erase, hmarks]
    · simp [Contents.applyAll, Contents.apply]

end Preferences

/-! ## What is read -/

section

variable {σ : Type} [Storage σ]

/-- A portrait is what is read of a peer. -/
def Portrait.ReadOf (p : Portrait) (peer : PeerId) (s : σ) : Prop :=
  ((Profiles.profileKey ∅ peer).run s).result = .ok p.profileKey ∧
    ((Profiles.profile ∅ peer).run s).result = .ok p.profile

/-- What is read through the survivor after a merge, by what was read through it and through the
absorbed peer before. -/
def Store.Inherits (surviving absorbed : PeerId) (s s' : σ) : Store → Prop
  | sessions => ∀ device, ∃ mine theirs,
      ((Sessions.load ∅ surviving device).run s).result = .ok mine ∧
      ((Sessions.load ∅ absorbed device).run s).result = .ok theirs ∧
      ((Sessions.load ∅ surviving device).run s').result =
        .ok (if mine.any (·.live) then mine else theirs.or mine)
  | identities => ∃ mine theirs,
      ((Identities.get ∅ surviving).run s).result = .ok mine ∧
      ((Identities.get ∅ absorbed).run s).result = .ok theirs ∧
      ((Identities.get ∅ surviving).run s').result = .ok (mine.or theirs)
  | profiles => ∃ mine theirs both : Portrait,
      mine.ReadOf surviving s ∧ theirs.ReadOf absorbed s ∧ both.ReadOf surviving s' ∧
      ∀ part, both.get? part = (mine.get? part).or (theirs.get? part)
  | sendLog => ∃ mine theirs both,
      ((SendLog.entries ∅ surviving).run s).result = .ok mine ∧
      ((SendLog.entries ∅ absorbed).run s).result = .ok theirs ∧
      ((SendLog.entries ∅ surviving).run s').result = .ok both ∧
      both.Perm (mine ++ theirs.map fun m => { m with peer := surviving })
  | messages cache => ∃ mine theirs both,
      ((cache.entries ∅ surviving).run s).result = .ok mine ∧
      ((cache.entries ∅ absorbed).run s).result = .ok theirs ∧
      ((cache.entries ∅ surviving).run s').result = .ok both ∧
      both.Perm (mine ++ theirs.map fun m => { m with peer := surviving })
  | preferences => ∃ mine theirs both marked,
      ((Preferences.get ∅ surviving).run s).result = .ok mine ∧
      ((Preferences.get ∅ absorbed).run s).result = .ok theirs ∧
      ((Preferences.get ∅ surviving).run s').result = .ok both ∧
      (∀ setting, both.get? setting = (mine.get? setting).or (theirs.get? setting)) ∧
      ((Preferences.needSync (σ := σ)).run s').result = .ok marked ∧
      surviving ∈ marked ∧ absorbed ∉ marked

/-- What a merge does in a store: the survivor inherits, nothing of the absorbed peer is left, and
what other peers and other stores have stays as it is. -/
structure Store.Inherited (st : Store) (contents : σ → Contents) (surviving absorbed : PeerId)
    (s s' : σ) : Prop where
  survivor : st.Inherits surviving absorbed s s'
  gone : ∀ key, st.Holds absorbed key → (contents s').get? key = none
  others : ∀ peer key, peer ≠ surviving → peer ≠ absorbed → st.Holds peer key →
    (contents s').get? key = (contents s).get? key
  elsewhere : ∀ key, ¬st.Keeps key → (contents s').get? key = (contents s).get? key

end

/-- No two messages have one identifier; the other stores have none. -/
def Store.Distinct (c : Contents) : Store → Prop
  | sendLog => ∀ p q id, c.get? (SendLog.key p id) ≠ none → c.get? (SendLog.key q id) ≠ none → p = q
  | messages cache => ∀ p q id, c.get? (cache.key p id) ≠ none → c.get? (cache.key q id) ≠ none →
    p = q
  | _ => True

/-! ## Messages -/

section

variable {σ : Type} [Storage σ] {contents : σ → Contents} {s s' : σ}

/-- Messages of a peer in order, those of the survivor and those that come, are what is on the
sheet afterwards. -/
theorem Sheet.perm_of_move {α μ : Type} {message : α → PeerId → μ} {rename : μ → μ}
    (hrename : ∀ a, rename (message a absorbed) = message a surviving) {sheet : Sheet α}
    (hne : surviving ≠ absorbed) {mine theirs both : List μ}
    (hm : mine.Perm ((sheet.of surviving).map (message · surviving)))
    (ht : theirs.Perm ((sheet.of absorbed).map (message · absorbed)))
    (hb : both.Perm (((sheet.move surviving absorbed).of surviving).map (message · surviving))) :
    both.Perm (mine ++ theirs.map rename) := by
  have hcome : (theirs.map rename).Perm ((sheet.of absorbed).map (message · surviving)) := by
    refine (ht.map rename).trans (List.Perm.of_eq ?_)
    rw [List.map_map]
    exact List.map_congr_left fun a _ => hrename a
  refine hb.trans (((Sheet.of_move_perm sheet hne).map _).trans ?_)
  rw [List.map_append]
  exact (hm.append hcome).symm

/-- A merge moves the lines of the absorbed peer. -/
theorem Filing.Sound.merge_files {st : Store} {α μ : Type} {F : Filing st α μ} (hF : F.Sound)
    (hs : Storage.Faithful contents) {sheet : Sheet α} (h : F.Files (contents s) sheet)
    (hn : (F.tags sheet).Nodup) (hne : surviving ≠ absorbed)
    (hr : (st.merge surviving absorbed).Returns s () s') :
    F.Files (contents s') (sheet.move surviving absorbed) ∧
      (F.tags (sheet.move surviving absorbed)).Nodup := by
  obtain ⟨⟨⟩, t, hr', hafter⟩ := hF.play hs h (t := .merge surviving absorbed)
    (by simpa [Episode.tag?] using hn) hne s rfl
  obtain ⟨-, rfl⟩ := hr.unique hr'
  exact ⟨hafter, by simpa [Filing.tags, Sheet.move, Function.comp_def] using hn⟩

/-- **The letters come to those of the survivor.** They are listed in the order of their times, each
once, and as they were but for whom they are for. -/
theorem SendLog.inherits (hs : Storage.Faithful contents)
    (h : Store.sendLog.Written live (contents s)) (hd : Store.sendLog.Distinct (contents s))
    (hne : surviving ≠ absorbed) (hr : (Store.sendLog.merge surviving absorbed).Returns s () s') :
    Store.sendLog.Inherits surviving absorbed s s' := by
  obtain ⟨sheet, hfiles, hn⟩ := Filing.exists_files (F := filing) h
    (fun r => by cases r with | sent l => exact ⟨l, rfl⟩) fun x y hx hy htag => by
      have htag : x.2.id = y.2.id := htag
      show SendLog.key x.1 x.2.id = SendLog.key y.1 y.2.id
      rw [hd x.1 y.1 x.2.id hx (htag ▸ hy), htag]
  obtain ⟨hfiles', hn'⟩ := filing_sound.merge_files hs hfiles hn hne hr
  obtain ⟨mine, _, hmine, -, hm, -⟩ := entries_brings hs hfiles hn ∅ surviving s rfl
  obtain ⟨theirs, _, htheirs, -, ht, -⟩ := entries_brings hs hfiles hn ∅ absorbed s rfl
  obtain ⟨both, _, hboth, -, hb, -⟩ := entries_brings hs hfiles' hn' ∅ surviving s' rfl
  exact ⟨mine, theirs, both, hmine.1, htheirs.1, hboth.1,
    Sheet.perm_of_move (fun _ => rfl) hne hm ht hb⟩

/-- **So do the envelopes**, in the order of their arrival. -/
theorem MessageCache.inherits {cache : MessageCache} (hs : Storage.Faithful contents)
    (h : (Store.messages cache).Written live (contents s))
    (hd : (Store.messages cache).Distinct (contents s)) (hne : surviving ≠ absorbed)
    (hr : ((Store.messages cache).merge surviving absorbed).Returns s () s') :
    (Store.messages cache).Inherits surviving absorbed s s' := by
  obtain ⟨sheet, hfiles, hn⟩ := Filing.exists_files (F := filing cache) h
    (fun r => by cases r with | cached e => exact ⟨e, rfl⟩) fun x y hx hy htag => by
      have htag : x.2.id = y.2.id := htag
      show cache.key x.1 x.2.id = cache.key y.1 y.2.id
      rw [hd x.1 y.1 x.2.id hx (htag ▸ hy), htag]
  obtain ⟨hfiles', hn'⟩ := (filing_sound cache).merge_files hs hfiles hn hne hr
  obtain ⟨mine, _, hmine, -, hm, -⟩ := entries_brings hs hfiles hn ∅ surviving s rfl
  obtain ⟨theirs, _, htheirs, -, ht, -⟩ := entries_brings hs hfiles hn ∅ absorbed s rfl
  obtain ⟨both, _, hboth, -, hb, -⟩ := entries_brings hs hfiles' hn' ∅ surviving s' rfl
  exact ⟨mine, theirs, both, hmine.1, htheirs.1, hboth.1,
    Sheet.perm_of_move (fun _ => rfl) hne hm ht hb⟩

/-! ## Portraits and settings -/

/-- What can be read of the entry of a peer is its portrait. -/
theorem Portrait.readOf (hs : Storage.Legible contents) {peer : PeerId} {p? : Option Portrait}
    (h : (contents s).json? ProfileEntry.ofJson (Profiles.key peer) =
      .ok (p?.map Portrait.entry)) : (p?.getD ⟨none, none⟩).ReadOf peer s := by
  rw [← Redirects.follow_empty peer] at h
  have hkey := (Profiles.profileKey_views hs h).result
  have hprofile := (Profiles.profile_views hs h).result
  cases p? <;> exact ⟨hkey, hprofile⟩

/-- Where one of two portraits is missing the gaps are those of the other. -/
theorem Portrait.get?_merge (p? q? : Option Portrait) (part : Part) :
    ((Option.merge or p? q?).getD ⟨none, none⟩).get? part =
      ((p?.getD ⟨none, none⟩).get? part).or ((q?.getD ⟨none, none⟩).get? part) := by
  have hnone : (⟨none, none⟩ : Portrait).get? part = none := by cases part <;> rfl
  cases p? <;> cases q? <;> simp [hnone, get?_or]

end

/-! ## Every store -/

variable {σ : Type} [Storage σ] {contents : σ → Contents} {s : σ} {st : Store}

/-- **A well-written store follows its rule**, and touches nobody else. Each store has its own rule,
so there is one case for each here; that others are not touched is the same for all. -/
theorem Store.Written.inherited (hs : Storage.Faithful contents)
    (h : st.Written (fun _ => True) (contents s)) (hd : st.Distinct (contents s))
    (hne : surviving ≠ absorbed) :
    ∃ s', (st.merge surviving absorbed).Returns s () s' ∧
      st.Inherited contents surviving absorbed s s' := by
  obtain ⟨⟨⟩, s', hr, ws, ⟨keys, hk, hb⟩, hc⟩ := Op.Brings.of_submits hs
    (st.merge_submits hs.legible surviving absorbed) (fun e ⟨keys, hk, he⟩ => by
      obtain ⟨ws, hb⟩ := h.batch_ok hk surviving
      exact nomatch hb.symm.trans he.symm) s rfl
  have hcarry := batch_carries hk hb.symm
  refine ⟨s', hr, ?_, fun key hh => ?_, fun peer key hps hpa hh => ?_, fun key hn => ?_⟩
  · cases st with
    | sessions =>
        intro device
        obtain ⟨mine, hm⟩ := h.session surviving device
        obtain ⟨theirs, ht⟩ := h.session absorbed device
        have hboth := Sessions.json?_applyAll h hne hk hb.symm hm ht
        rw [← hc] at hboth
        exact ⟨mine, theirs, Sessions.load_result hs.legible hm,
          Sessions.load_result hs.legible ht, Sessions.load_result hs.legible hboth⟩
    | identities =>
        obtain ⟨mine, hm⟩ := h.identity surviving
        obtain ⟨theirs, ht⟩ := h.identity absorbed
        have hboth := Identities.json?_applyAll hne hm ht
        rw [← Except.ok.inj hb, ← hc] at hboth
        exact ⟨mine, theirs, Identities.get_result hs.legible hm,
          Identities.get_result hs.legible ht, Identities.get_result hs.legible hboth⟩
    | profiles =>
        obtain ⟨mine, hm⟩ := h.portrait surviving
        obtain ⟨theirs, ht⟩ := h.portrait absorbed
        have hboth := Profiles.json?_applyAll hne hb.symm hm ht
        rw [← hc] at hboth
        exact ⟨_, _, _, Portrait.readOf hs.legible hm, Portrait.readOf hs.legible ht,
          Portrait.readOf hs.legible hboth, Portrait.get?_merge mine theirs⟩
    | sendLog => exact SendLog.inherits hs h hd hne hr
    | messages cache => exact MessageCache.inherits hs h hd hne hr
    | preferences =>
        obtain ⟨mine, hm⟩ := h.settings surviving
        obtain ⟨theirs, ht⟩ := h.settings absorbed
        obtain ⟨⟨both, hboth, hor⟩, hmark, hgone⟩ := Preferences.json?_applyAll hne hb.symm hm ht
        rw [← hc] at hboth hmark hgone
        have h' : Store.preferences.Written (fun _ => True) (contents s') := by
          rw [hc]
          exact h.applyAll fun w hw => (h.batch_admits hk hb.symm w hw).mono fun _ _ => trivial
        obtain ⟨marked, hmarked, hmem⟩ := (Preferences.needSync_views hs.legible h').result
        refine ⟨_, _, _, marked, (Preferences.load_views hs.legible hm).result,
          (Preferences.load_views hs.legible ht).result,
          (Preferences.load_views hs.legible hboth).result, fun setting => ?_, hmarked,
          (hmem _).mpr hmark, fun ha => (hmem _).mp ha hgone⟩
        rw [hor, Preferences.get?_or]
  · rw [hc]
    refine Classical.byContradiction fun hv => ?_
    obtain ⟨hv, ho⟩ := (get?_batch_ne_none_iff hne hk hb.symm hh).mp hv
    exact h.not_overlooks hh hv ho
  · rw [hc]
    exact Contents.get?_applyAll_of_ne _ fun w hw => (hcarry w hw).key_ne hh hps hpa
  · rw [hc]
    exact Contents.get?_applyAll_of_ne _ fun w hw he => hn (he ▸ (hcarry w hw).keeps)

/-- **Whatever the store has written, the survivor inherits by the rule.** A store starts without
keys on some storage, and episodes follow, wherever each of them is cut short. When what is written
then is on a storage that never fails, the store follows the merge of two peers: it comes to its
end, the survivor inherits, nothing of the absorbed peer is left, and what other peers and other
stores have stays as it is. -/
theorem merge_inherits (hs : Storage.Faithful contents) {τ : Type} [Storage τ]
    {contents' : τ → Contents} (hs' : Storage.Ordered contents') (st : Store) {start : τ}
    (hvacant : ∀ key, st.Keeps key → (contents' start).get? key = none)
    (episodes : List (Episode st)) (hc : contents s = contents' (Episode.after episodes start))
    (hd : st.Distinct (contents s)) (hne : surviving ≠ absorbed) :
    ∃ s', (st.merge surviving absorbed).Returns s () s' ∧
      st.Inherited contents surviving absorbed s s' := by
  have h := Store.Written.after hs' episodes (Store.written_of_vacant hvacant)
  rw [← hc] at h
  exact h.inherited hs hd hne

/-- Two handles with sessions of two devices; the first session of the first is archived. -/
def sessionEpisodes : List (Episode .sessions) :=
  [.deed ∅ ⟨1⟩ (.storeSession 1 [1]), .deed ∅ ⟨1⟩ .archive, .deed ∅ ⟨1⟩ (.storeSession 2 [2]),
    .deed ∅ ⟨2⟩ (.storeSession 1 [3]), .deed ∅ ⟨2⟩ (.storeSession 2 [4])]

/-- The survivor's archived session gives way to the live one of the absorbed peer, and its own live
session is kept. -/
theorem archived_session_gives_way :
    let s : Memory := Episode.after sessionEpisodes ⟨∅⟩
    ∃ s', (Store.sessions.merge ⟨1⟩ ⟨2⟩).Returns s () s' ∧
      ((Sessions.load ∅ ⟨1⟩ 1).run s').result = .ok (some ⟨[3], true⟩) ∧
      ((Sessions.load ∅ ⟨1⟩ 2).run s').result = .ok (some ⟨[2], true⟩) := by
  intro s
  have hvacant : ∀ key, Store.sessions.Keeps key → (⟨∅⟩ : Memory).contents.get? key = none :=
    fun _ _ => rfl
  obtain ⟨s', hr, hi⟩ := merge_inherits (s := s) Memory.faithful Memory.faithful.ordered .sessions
    hvacant sessionEpisodes rfl trivial (by decide : (⟨1⟩ : PeerId) ≠ ⟨2⟩)
  have hread (device : UInt32) (mine theirs : Option Session)
      (hm : ((Sessions.load ∅ ⟨1⟩ device).run s).result.toOption = some mine)
      (ht : ((Sessions.load ∅ ⟨2⟩ device).run s).result.toOption = some theirs) :
      ((Sessions.load ∅ ⟨1⟩ device).run s').result =
        .ok (if mine.any (·.live) then mine else theirs.or mine) := by
    obtain ⟨mine', theirs', hm', ht', hboth⟩ := hi.survivor device
    rw [hm'] at hm
    rw [ht'] at ht
    obtain rfl := Option.some.inj hm
    obtain rfl := Option.some.inj ht
    exact hboth
  refine ⟨s', hr, ?_, ?_⟩
  · exact hread 1 (some ⟨[1], false⟩) (some ⟨[3], true⟩) (by decide +kernel) (by decide +kernel)
  · exact hread 2 (some ⟨[2], true⟩) (some ⟨[4], true⟩) (by decide +kernel) (by decide +kernel)

end PeerBook
