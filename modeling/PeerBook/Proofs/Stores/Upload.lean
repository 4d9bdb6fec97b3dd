import Mathlib.Data.List.Induction
import PeerBook.Proofs.Stores.Inheritance

/-!
# PeerBook.Proofs.Stores.Upload

Whether every change of settings is uploaded. A peer whose settings differ from
those at its last successful clear (`Preferences.uploaded`) has to be marked; one
that differs and is not marked has escaped (`Preferences.Escaped`).

The settings and the mark are two writes, and an update that finds its settings
stored writes nothing, so an update that was cut short after the first write is
not made up for by doing it again (`repeated_update_escapes`). What an update
stores is read in any case, but it leaves its peer marked as it has to be exactly
if the peer had not escaped (`updates_are_marked_iff`).

How a peer comes to escape is told episode by episode: only in one that was cut
short on it, or when it is absorbed (`Preferences.Escaped.of_perform`). Over a
run that gives the episode that is to blame
(`Preferences.Escaped.exists_episode`).
-/

namespace PeerBook

/-! ## Settings, marks and uploads -/

section

variable {σ : Type} [Storage σ]

/-- An episode ends in an error. -/
def Episode.Stops {st : Store} (t : Episode st) (s : σ) : Prop := ∃ e s', t.perform.Fails s e s'

namespace Preferences

/-- The settings that are read of a peer. -/
def of (s : σ) (peer : PeerId) : Preferences :=
  ((get ∅ peer).run s).result.toOption.getD .empty

/-- The peers that are read as marked. -/
def marked (s : σ) : List PeerId := ((needSync (σ := σ)).run s).result.toOption.getD []

/-- The settings at the last successful clear of each peer, after one more episode. -/
def settle (s : σ) (uploaded : PeerId → Preferences) :
    Episode .preferences → PeerId → Preferences
  | .deed redirects i .clearMark, peer =>
    if peer = redirects.follow i ∧ ((clearSync redirects i).run s).result.toOption.isSome then
      of s peer
    else uploaded peer
  | _, peer => uploaded peer

/-- For each peer its settings at its last successful clear, after episodes in order; the default
ones where there was none. -/
def uploaded (start : σ) (episodes : List (Episode .preferences)) : PeerId → Preferences :=
  Episode.chronicle settle start (fun _ => .empty) episodes

/-- The settings of a peer are not those that were uploaded, and it is not marked. -/
def Escaped (s : σ) (uploaded : PeerId → Preferences) (peer : PeerId) : Prop :=
  of s peer ≠ uploaded peer ∧ peer ∉ marked s

/-- An update or a clear of a peer or a merge into it that is cut short, or a merge by which it is
absorbed. -/
def Exposes (s : σ) (peer : PeerId) : Episode .preferences → Prop
  | .deed redirects i (.update p) =>
    peer = redirects.follow i ∧ (Episode.deed redirects i (Deed.update p)).Stops s
  | .deed redirects i .clearMark =>
    peer = redirects.follow i ∧ (Episode.deed redirects i Deed.clearMark).Stops s
  | .merge surviving absorbed =>
    peer = surviving ∧ (Episode.merge surviving absorbed : Episode .preferences).Stops s ∨
      peer = absorbed
  | _ => False

end Preferences

end

/-! ## What is read -/

section

variable {σ : Type} [Storage σ] {contents : σ → Contents} {s s' : σ} {peer : PeerId}
  {redirects : Redirects} {i : PeerId} {live : PeerId → Prop}

namespace Preferences

/-- The settings that are read through a handle are those stored for its peer, or the default
ones. -/
theorem get_result (hs : Storage.Legible contents) {p? : Option Preferences}
    (h : (contents s).json? ofJson (key (redirects.follow i)) = .ok p?) :
    ((get redirects i).run s).result = .ok (p?.getD .empty) := (load_views hs h).result

/-- The settings of a peer are those stored for it, or the default ones. -/
theorem of_eq (hs : Storage.Legible contents) {p? : Option Preferences}
    (h : (contents s).json? ofJson (key peer) = .ok p?) : of s peer = p?.getD .empty := by
  rw [← Redirects.follow_empty peer] at h
  rw [of, get_result hs h]
  rfl

/-- What is read through a handle is what is read of its peer. -/
theorem get_eq (hs : Storage.Legible contents) (h : Store.preferences.Written live (contents s))
    (redirects : Redirects) (i : PeerId) :
    ((get redirects i).run s).result = .ok (of s (redirects.follow i)) := by
  obtain ⟨p?, hj⟩ := h.settings (redirects.follow i)
  rw [get_result hs hj, of_eq hs hj]

/-- A peer is marked when there is something under the key of its mark. -/
theorem mem_marked_iff (hs : Storage.Legible contents)
    (h : Store.preferences.Written live (contents s)) :
    peer ∈ marked s ↔ (contents s).get? (syncKey peer) ≠ none := by
  obtain ⟨peers, hr, hmem⟩ := (needSync_views hs h).result
  rw [marked, hr]
  exact hmem peer

/-- Where what is stored stays, so do the settings that are read. -/
theorem of_congr (hs : Storage.Legible contents)
    (h : Store.preferences.Written live (contents s))
    (hc : (contents s').get? (key peer) = (contents s).get? (key peer)) :
    of s' peer = of s peer := by
  obtain ⟨p?, hj⟩ := h.settings peer
  rw [of_eq hs hj, of_eq hs ((Contents.json?_congr hc).trans hj)]

/-- Who has escaped had escaped before, where the settings stayed and a mark was not removed. -/
theorem Escaped.of_keeps (hs : Storage.Legible contents)
    (h : Store.preferences.Written live (contents s))
    (h' : Store.preferences.Written live (contents s'))
    (hc : (contents s').get? (key peer) = (contents s).get? (key peer))
    (hmark : (contents s).get? (syncKey peer) ≠ none → (contents s').get? (syncKey peer) ≠ none)
    {uploaded : PeerId → Preferences} (he : Escaped s' uploaded peer) :
    Escaped s uploaded peer := by
  obtain ⟨hne, hn⟩ := he
  rw [of_congr hs h hc] at hne
  rw [mem_marked_iff hs h'] at hn
  exact ⟨hne, fun hm => hn (hmark ((mem_marked_iff hs h).mp hm))⟩

/-- So it had where all that it holds stayed. -/
theorem Escaped.of_untouched (hs : Storage.Legible contents)
    (h : Store.preferences.Written live (contents s))
    (h' : Store.preferences.Written live (contents s'))
    (hkeep : ∀ k, Store.preferences.Holds peer k → (contents s').get? k = (contents s).get? k)
    {uploaded : PeerId → Preferences} (he : Escaped s' uploaded peer) :
    Escaped s uploaded peer := by
  refine he.of_keeps hs h h' (hkeep _ (.inl rfl)) fun hm => ?_
  rw [hkeep _ (.inr rfl)]
  exact hm

/-- Who has escaped had escaped before, where the content stayed. -/
theorem Escaped.of_same (hs : Storage.Legible contents)
    (h : Store.preferences.Written live (contents s)) (hc : contents s' = contents s)
    {uploaded : PeerId → Preferences} (he : Escaped s' uploaded peer) :
    Escaped s uploaded peer :=
  he.of_untouched hs h (hc ▸ h) fun _ _ => by rw [hc]

end Preferences

/-! ## What deeds write -/

variable (hs : Storage.Ordered contents)

include hs

/-- A deed about settings writes under the keys of its peer. -/
theorem Preferences.deed_edits {c : Contents} (h : Store.preferences.Written (fun _ => True) c)
    (d : Deed .preferences) :
    (d.perform redirects i : Op σ Unit).Edits contents c
      fun w => Store.preferences.Holds (redirects.follow i) w.key := by
  cases d with
  | settings | needSync => exact .of_views (Deed.perform_views hs.toLegible redirects i h rfl)
  | mark => exact Storage.put_edits hs (.inr rfl)
  | clearMark => exact Storage.del_edits hs (.inr rfl)
  | update p => exact update_edits hs redirects i p (.inl rfl) (.inr rfl)

/-- A merge writes what it carries. -/
theorem Store.merge_edits {c : Contents} (st : Store) (surviving absorbed : PeerId) :
    (st.merge surviving absorbed : Op σ Unit).Edits contents c (st.Carries surviving absorbed) := by
  refine .of_submits hs.writeBatch (st.merge_submits hs.toLegible surviving absorbed) ?_
  rintro ws ⟨keys, hk, hb⟩
  exact batch_carries hk hb.symm

namespace Preferences

/-- **An update that answers is read**: it found its settings stored and wrote nothing, or it stored
them and marked its peer. -/
theorem update_returns (h : Store.preferences.Written live (contents s)) {p : Preferences}
    (hr : (update redirects i p).Returns s () s') :
    of s (redirects.follow i) = p ∧ contents s' = contents s ∨
      (contents s').json? ofJson (key (redirects.follow i)) = .ok (some p) ∧
        (contents s').get? (syncKey (redirects.follow i)) ≠ none := by
  obtain ⟨p?, hj⟩ := h.settings (redirects.follow i)
  have hsubmits : (update redirects i p : Op σ Unit).Submits contents (contents s) fun r =>
      p?.getD .empty = p ∧ r = .ok [] ∨
        r = .ok [.put (key (redirects.follow i)) p.toJson.compact,
          .put (syncKey (redirects.follow i)) mark] := by
    refine .bind (load_views hs.toLegible hj) (fun old hold => ?_) nofun
    obtain rfl := Except.ok.inj hold
    split
    · rename_i hp
      exact Op.Submits.nothing.mono fun _ hr => .inl ⟨hp, hr⟩
    · exact (Op.Submits.writeBatch _).mono fun _ hr => .inr hr
  obtain ⟨ws, hws, hc⟩ := hsubmits.of_returns hs.writeBatch rfl hr
  rw [hc]
  obtain ⟨hp, hws⟩ | hws := hws
  · obtain rfl := Except.ok.inj hws
    exact .inl ⟨(of_eq hs.toLegible hj).trans hp, rfl⟩
  · obtain rfl := Except.ok.inj hws
    refine .inr ⟨Contents.json?_of_decode ?_ (restores.decode_compact p), ?_⟩
    · simp [Contents.applyAll, Contents.apply, Table.get?_insert, key_ne_syncKey]
    · simp [Contents.applyAll, Contents.apply]

/-- An update to the settings that are stored answers without a write. -/
theorem update_of_eq (h : Store.preferences.Written live (contents s)) (redirects : Redirects)
    (i : PeerId) :
    ∃ s', (update redirects i (of s (redirects.follow i))).Returns s () s' ∧
      contents s' = contents s := by
  obtain ⟨p?, hj⟩ := h.settings (redirects.follow i)
  have hviews : (update redirects i (of s (redirects.follow i)) : Op σ Unit).Views contents
      (contents s) (· = .ok ()) := by
    refine (load_views hs.toLegible hj).bind (fun old hold => ?_) nofun
    obtain rfl := Except.ok.inj hold
    rw [if_pos (of_eq hs.toLegible hj).symm]
    exact .pure ()
  obtain ⟨hc, hr⟩ := hviews s rfl
  exact ⟨_, ⟨hr, rfl⟩, hc⟩

/-! ### How a peer escapes -/

/-- Nobody escapes in an update that answers. -/
theorem Escaped.of_update_returns (h : Store.preferences.Written live (contents s))
    (h' : Store.preferences.Written live (contents s')) {uploaded : PeerId → Preferences}
    {p : Preferences} (hr : (update redirects i p).Returns s () s')
    (he : Escaped s' uploaded (redirects.follow i)) :
    Escaped s uploaded (redirects.follow i) := by
  obtain ⟨-, hkeep⟩ | ⟨-, hmark⟩ := update_returns hs h hr
  · exact he.of_same hs.toLegible h hkeep
  · exact absurd ((mem_marked_iff hs.toLegible h').mpr hmark) he.2

/-- Nor when it is marked: if that succeeds it has not escaped, and if not it had before. -/
theorem Escaped.of_markForSync (h : Store.preferences.Written live (contents s))
    (h' : Store.preferences.Written live (contents ((markForSync redirects i).run s).state))
    {uploaded : PeerId → Preferences}
    (he : Escaped ((markForSync redirects i).run s).state uploaded (redirects.follow i)) :
    Escaped s uploaded (redirects.follow i) := by
  have hedits : (markForSync redirects i : Op σ Unit).Edits contents (contents s)
      (· = .put (syncKey (redirects.follow i)) mark) :=
    .of_writes (hs.put _ _) (List.forall_mem_singleton.mpr rfl)
  refine he.of_keeps hs.toLegible h h' (hedits.get?_of_ne fun w hw hk => ?_) fun hm => ?_
  · rw [hw] at hk
    exact key_ne_syncKey _ _ hk.symm
  · obtain ⟨ws, hws, hc⟩ := hedits s rfl
    rw [hc]
    obtain hkeep | ⟨w, hw, -, hv⟩ := Contents.get?_applyAll_or (contents s) ws
      (syncKey (redirects.follow i))
    · rw [hkeep]
      exact hm
    · rw [hv, hws w hw]
      exact nofun

/-- A clear leaves the settings as they are, wherever it is cut short. -/
theorem of_clearSync (h : Store.preferences.Written live (contents s)) :
    of ((clearSync redirects i).run s).state (redirects.follow i) = of s (redirects.follow i) := by
  have hedits : (clearSync redirects i : Op σ Unit).Edits contents (contents s)
      (· = .del (syncKey (redirects.follow i))) :=
    .of_writes (hs.del _) (List.forall_mem_singleton.mpr rfl)
  refine of_congr hs.toLegible h (hedits.get?_of_ne fun w hw hk => ?_)
  rw [hw] at hk
  exact key_ne_syncKey _ _ hk.symm

/-- **Nobody escapes in a deed**, unless it is an update or a clear that is cut short. Other deeds
write nothing about settings or marks that could set the two apart. -/
theorem Escaped.of_deed (h : Store.preferences.Written (fun _ => True) (contents s))
    {uploaded : PeerId → Preferences} (d : Deed .preferences)
    (h' : Store.preferences.Written (fun _ => True)
      (contents ((d.perform redirects i).run s).state))
    (he : Escaped ((d.perform redirects i).run s).state
      (settle s uploaded (.deed redirects i d)) peer) :
    Escaped s uploaded peer ∨ Exposes s peer (.deed redirects i d) := by
  by_cases hp : peer = redirects.follow i
  · subst hp
    cases d with
    | update p =>
        obtain ⟨⟨⟩, s', hr⟩ | hstops := Op.returns_or_fails (update redirects i p) s
        · rw [Deed.perform, hr.2] at h' he
          exact .inl (he.of_update_returns hs h h' hr)
        · exact .inr ⟨rfl, hstops⟩
    | clearMark =>
        obtain ⟨⟨⟩, s', hr⟩ | hstops := Op.returns_or_fails (clearSync redirects i) s
        · have hsettled : settle s uploaded (.deed redirects i .clearMark) (redirects.follow i) =
              of s (redirects.follow i) := if_pos ⟨rfl, by rw [hr.1]; rfl⟩
          exact absurd ((of_clearSync hs h).trans hsettled.symm) he.1
        · exact .inr ⟨rfl, hstops⟩
    | mark => exact .inl (Escaped.of_markForSync hs h h' he)
    | settings | needSync =>
        exact .inl (he.of_same hs.toLegible h
          (Deed.perform_views hs.toLegible redirects i h (by rfl) s rfl).1)
  · have hsettled : settle s uploaded (.deed redirects i d) peer = uploaded peer := by
      cases d <;> first | rfl | exact if_neg fun hh => hp hh.1
    have he' : Escaped ((d.perform redirects i).run s).state uploaded peer := by
      rw [Escaped, hsettled] at he
      exact he
    exact .inl (he'.of_untouched hs.toLegible h h' fun _ hk =>
      (deed_edits hs h d).get?_of_holds hp hk)

/-- **Nor in a merge**, unless it is one into the peer that is cut short or absorbs it. A merge that
is made as a whole marks the survivor. -/
theorem Escaped.of_merge (h : Store.preferences.Written (fun _ => True) (contents s))
    {uploaded : PeerId → Preferences} {surviving absorbed : PeerId}
    (h' : Store.preferences.Written (fun _ => True)
      (contents ((Store.preferences.merge surviving absorbed).run s).state))
    (he : Escaped ((Store.preferences.merge surviving absorbed).run s).state uploaded peer) :
    Escaped s uploaded peer ∨ Exposes s peer (.merge surviving absorbed) := by
  by_cases hpa : peer = absorbed
  · exact .inr (.inr hpa)
  by_cases hps : peer = surviving
  · subst hps
    obtain ⟨⟨⟩, s', hr⟩ | hstops :=
      Op.returns_or_fails (Store.preferences.merge peer absorbed) s
    · -- a merge that comes to its end marks the survivor
      obtain ⟨ws, ⟨keys, -, hb⟩, hc⟩ :=
        (Store.preferences.merge_submits hs.toLegible peer absorbed).of_returns hs.writeBatch rfl hr
      obtain ⟨mine, hm⟩ := h.settings peer
      obtain ⟨theirs, ht⟩ := h.settings absorbed
      have hmark := (json?_applyAll hpa hb.symm hm ht).2.1
      rw [← hc, ← hr.2] at hmark
      exact absurd ((mem_marked_iff hs.toLegible h').mpr hmark) he.2
    · exact .inr (.inl ⟨rfl, hstops⟩)
  · have hedits := Store.merge_edits hs (c := contents s) .preferences surviving absorbed
    exact .inl (he.of_untouched hs.toLegible h h' fun _ hk =>
      hedits.get?_of_ne fun _ hw => hw.key_ne hk hps hpa)

/-- **A peer escapes only in an episode that is cut short on it, or when it is absorbed.** -/
theorem Escaped.of_perform (h : Store.preferences.Written (fun _ => True) (contents s))
    {uploaded : PeerId → Preferences} (t : Episode .preferences)
    (he : Escaped (t.perform.run s).state (settle s uploaded t) peer) :
    Escaped s uploaded peer ∨ Exposes s peer t := by
  have h' := t.perform_written hs h
  cases t with
  | deed redirects i d => exact Escaped.of_deed hs h d h' he
  | merge surviving absorbed => exact Escaped.of_merge hs h h' he
  | others ws hapart =>
      exact .inl (he.of_untouched hs.toLegible h h' fun _ hk =>
        Episode.get?_others hs hapart hk.keeps)

/-- A peer that has escaped did so in one of the episodes: at the start its settings are the default
ones, which count as uploaded. -/
theorem Escaped.exists_episode {start : σ}
    (hvacant : ∀ key, Store.preferences.Keeps key → (contents start).get? key = none)
    {episodes : List (Episode .preferences)}
    (he : Escaped (Episode.after episodes start) (uploaded start episodes) peer) :
    ∃ made t, made ++ [t] <+: episodes ∧ Exposes (Episode.after made start) peer t ∧
      ¬Escaped (Episode.after made start) (uploaded start made) peer ∧
      Escaped (Episode.after (made ++ [t]) start) (uploaded start (made ++ [t])) peer := by
  induction episodes using List.reverseRecOn with
  | nil =>
      have hnone := hvacant (key peer) (Store.Holds.keeps (a := peer) (.inl rfl))
      exact absurd (of_eq hs.toLegible (Contents.json?_of_none hnone _)) he.1
  | append_singleton made t ih =>
      by_cases hmade : Escaped (Episode.after made start) (uploaded start made) peer
      · obtain ⟨made', t', hprefix, hfirst⟩ := ih hmade
        exact ⟨made', t', hprefix.trans (List.prefix_append _ _), hfirst⟩
      · refine ⟨made, t, List.prefix_refl _, ?_, hmade, he⟩
        rw [Episode.after_append, uploaded, Episode.chronicle_append] at he
        have hwritten := Store.Written.after hs made (Store.written_of_vacant hvacant)
        exact (Escaped.of_perform hs hwritten t he).resolve_left hmade

end Preferences

end

/-- **Which updates are marked as they have to be.** The settings start without keys on a storage
that makes batches in order up to a write that fails, and episodes follow, wherever each of them is
cut short. Settings and marks are read at any time, and what an update stores is read through every
handle of its peer. The updates of a peer, as often as they answer, leave it marked where the
settings are not those of its last successful clear, exactly if the peer has not escaped. And where
it has, it did so in an episode that was cut short on it or by which it was absorbed. -/
theorem updates_are_marked_iff {σ : Type} [Storage σ] {contents : σ → Contents}
    (hs : Storage.Ordered contents) {start : σ}
    (hvacant : ∀ key, Store.preferences.Keeps key → (contents start).get? key = none)
    (episodes : List (Episode .preferences)) :
    let s := Episode.after episodes start
    let uploaded := Preferences.uploaded start episodes
    (∀ peer, ((Preferences.get ∅ peer).run s).result = .ok (Preferences.of s peer)) ∧
    ((Preferences.needSync (σ := σ)).run s).result = .ok (Preferences.marked s) ∧
    (∀ redirects i p s', (Preferences.update redirects i p).Returns s () s' →
      ∀ j, redirects.follow j = redirects.follow i →
        ((Preferences.get redirects j).run s').result = .ok p) ∧
    ∀ peer,
      ((∀ redirects i p s', redirects.follow i = peer →
          (Preferences.update redirects i p).Returns s () s' → p ≠ uploaded peer →
            peer ∈ Preferences.marked s') ↔
        ¬Preferences.Escaped s uploaded peer) ∧
      (Preferences.Escaped s uploaded peer → ∃ made t, made ++ [t] <+: episodes ∧
        Preferences.Exposes (Episode.after made start) peer t ∧
        ¬Preferences.Escaped (Episode.after made start) (Preferences.uploaded start made) peer ∧
        Preferences.Escaped (Episode.after (made ++ [t]) start)
          (Preferences.uploaded start (made ++ [t])) peer) := by
  intro s uploaded
  have h : Store.preferences.Written (fun _ => True) (contents s) :=
    Store.Written.after hs episodes (Store.written_of_vacant hvacant)
  refine ⟨Preferences.get_eq hs.toLegible h ∅, ?_, fun redirects i p s' hr j hj => ?_,
    fun peer => ⟨⟨fun hall he => ?_, ?_⟩, ?_⟩⟩
  · obtain ⟨peers, hr, -⟩ := (Preferences.needSync_views hs.toLegible h).result
    rw [Preferences.marked, hr]
    rfl
  · obtain ⟨hp, hc⟩ | ⟨hj', -⟩ := Preferences.update_returns hs h hr
    · rw [Preferences.get_eq hs.toLegible (hc ▸ h), hj,
        Preferences.of_congr hs.toLegible h (by rw [hc]), hp]
    · rw [← hj] at hj'
      exact Preferences.get_result hs.toLegible hj'
  · -- the update to what is stored
    obtain ⟨s', hr, hc⟩ := Preferences.update_of_eq hs h ∅ peer
    have hm := hall ∅ peer _ s' (Redirects.follow_empty peer) hr he.1
    rw [Preferences.mem_marked_iff hs.toLegible (hc ▸ h), hc] at hm
    exact he.2 ((Preferences.mem_marked_iff hs.toLegible h).mpr hm)
  · rintro hn redirects i p s' rfl hr hne
    have h' : Store.preferences.Written (fun _ => True) (contents s') := by
      have hdeed := (Episode.deed redirects i (.update p)).perform_written hs h
      rwa [Episode.perform, Deed.perform, hr.2] at hdeed
    refine (Preferences.mem_marked_iff hs.toLegible h').mpr ?_
    obtain ⟨hp, hc⟩ | ⟨-, hmark⟩ := Preferences.update_returns hs h hr
    · rw [hc]
      refine fun hm => hn ⟨fun he => hne (hp.symm.trans he), fun hm' => ?_⟩
      exact (Preferences.mem_marked_iff hs.toLegible h).mp hm' hm
    · exact hmark
  · exact Preferences.Escaped.exists_episode hs hvacant

/-- The second write of an update fails. Done again it answers, and leaves the peer unmarked, since
it finds its settings stored. -/
theorem repeated_update_escapes :
    let start : Faltering := ⟨⟨∅⟩, 1⟩
    let p : Preferences := { Preferences.empty with blocked := some true }
    let episodes : List (Episode .preferences) := [.deed ∅ ⟨4⟩ (.update p)]
    let s := Episode.after episodes start
    Preferences.uploaded start episodes ⟨4⟩ = .empty ∧
      (∃ s', (Preferences.update ∅ ⟨4⟩ p).Returns s () s' ∧ ⟨4⟩ ∉ Preferences.marked s') ∧
      ¬∀ redirects i p s', redirects.follow i = ⟨4⟩ →
        (Preferences.update redirects i p).Returns s () s' →
          p ≠ Preferences.uploaded start episodes ⟨4⟩ → ⟨4⟩ ∈ Preferences.marked s' := by
  intro start p episodes s
  have hescaped : Preferences.Escaped s (Preferences.uploaded start episodes) ⟨4⟩ :=
    ⟨by decide +kernel, by decide +kernel⟩
  have hvacant : ∀ key, Store.preferences.Keeps key → start.contents.get? key = none :=
    fun _ _ => rfl
  have hmarked :=
    ((updates_are_marked_iff Faltering.stepwise.ordered hvacant episodes).2.2.2 ⟨4⟩).1
  have hagain : ((Preferences.update ∅ ⟨4⟩ p).run s).result.toOption = some () := by decide +kernel
  obtain ⟨⟨⟩, s', hr⟩ | ⟨e, s', hf⟩ := Op.returns_or_fails (Preferences.update ∅ ⟨4⟩ p) s
  · refine ⟨rfl, ⟨s', hr, ?_⟩, fun hall => hmarked.mp hall hescaped⟩
    rw [← hr.2]
    decide +kernel
  · rw [hf.1] at hagain
    contradiction

end PeerBook
