import Mathlib.Data.List.Induction
import PeerBook.Proofs.Stores.Inheritance

/-!
# PeerBook.Proofs.Stores.Freshness

Whether a profile that need not be fetched again was fetched with the key that
is stored now. Neither a profile nor its key says when the other came, so the
key with which each profile was fetched is followed along the run
(`Profiles.origins`):

- the time of a fetch comes with a profile that was stored, and with it the key
  that is stored then (`Fresh.deed`);
- a new key takes the time away, so there is nothing to be out of date;
- a merge chooses key and time one by one, and the time of one peer can meet the
  key of the other (`Profiles.Clashes`, `Fresh.merge_iff`).

The third is the only way for a profile to become out of date unnoticed
(`profiles_stay_fresh_iff`). An episode that is cut short does no harm: key and
time of a peer lie in one record, so they change together or not at all.
-/

namespace PeerBook

section

variable {σ : Type} [Storage σ]

/-- What is read of a peer; what cannot be read is missing. -/
def Portrait.of (s : σ) (peer : PeerId) : Portrait :=
  ⟨((Profiles.profileKey ∅ peer).run s).result.toOption.join,
    ((Profiles.profile ∅ peer).run s).result.toOption.join⟩

/-- When the profile of a peer was fetched, if it need not be fetched again. -/
def Portrait.fetched? (p : Portrait) : Option UInt64 := p.get? .lastUpdate

namespace Profiles

/-- The peer whose time of a fetch a survivor has after a merge. -/
def source (s : σ) (surviving absorbed : PeerId) : PeerId :=
  if (Portrait.of s surviving).fetched?.isSome then surviving else absorbed

/-- The keys that were stored when the times of the profiles came, after one more episode. -/
def trace (s : σ) (origins : PeerId → Option (List UInt8)) :
    Episode .profiles → PeerId → Option (List UInt8)
  | .deed redirects i (.storeProfile _), peer =>
    if peer = redirects.follow i then (Portrait.of s peer).profileKey else origins peer
  | .merge surviving absorbed, peer =>
    if peer = surviving then origins (source s surviving absorbed) else origins peer
  | _, peer => origins peer

/-- For each peer the key that was stored when the time of its profile came, after episodes in
order. -/
def origins (start : σ) (episodes : List (Episode .profiles)) : PeerId → Option (List UInt8) :=
  Episode.chronicle trace start (fun _ => none) episodes

/-- Every profile that need not be fetched again was fetched with the key that is stored. -/
def Fresh (s : σ) (origins : PeerId → Option (List UInt8)) : Prop :=
  ∀ peer, (Portrait.of s peer).fetched?.isSome = true →
    (Portrait.of s peer).profileKey = origins peer

/-- In a merge the survivor gets the time of one peer and the key of the other, and these differ. -/
def Clashes (s : σ) : Episode .profiles → Prop
  | .merge surviving absorbed =>
    (Portrait.of s (source s surviving absorbed)).fetched?.isSome = true ∧
      (Portrait.of s surviving).profileKey.or (Portrait.of s absorbed).profileKey ≠
        (Portrait.of s (source s surviving absorbed)).profileKey
  | _ => False

end Profiles

end

/-! ## What is read -/

theorem Profiles.keeps_key (peer : PeerId) : Store.profiles.Keeps (key peer) := by
  have hholds : Store.profiles.Holds peer (key peer) := rfl
  exact hholds.keeps

section

variable {σ : Type} [Storage σ] {contents : σ → Contents} {s s' : σ} {peer : PeerId}

/-- The portrait that is read of a peer is its portrait. -/
theorem Portrait.of_eq_of_readOf {p : Portrait} (h : p.ReadOf peer s) : Portrait.of s peer = p := by
  rw [Portrait.of, h.1, h.2]
  rfl

/-- The portrait of a peer is what its entry says; without an entry nothing is known. -/
theorem Portrait.of_eq (hs : Storage.Legible contents) {p? : Option Portrait}
    (h : (contents s).json? ProfileEntry.ofJson (Profiles.key peer) =
      .ok (p?.map Portrait.entry)) : Portrait.of s peer = p?.getD ⟨none, none⟩ :=
  of_eq_of_readOf (readOf hs h)

/-- The portrait of a peer with an entry. -/
theorem Portrait.of_eq_some (hs : Storage.Legible contents) {p : Portrait}
    (h : (contents s).json? ProfileEntry.ofJson (Profiles.key peer) = .ok (some p.entry)) :
    Portrait.of s peer = p := by
  have hp : (contents s).json? ProfileEntry.ofJson (Profiles.key peer) =
      .ok ((some p).map Portrait.entry) := h
  exact of_eq hs hp

/-- The portrait of a peer without an entry. -/
theorem Portrait.of_eq_none (hs : Storage.Legible contents)
    (h : (contents s).get? (Profiles.key peer) = none) : Portrait.of s peer = ⟨none, none⟩ := by
  have hnone : (contents s).json? ProfileEntry.ofJson (Profiles.key peer) =
      .ok (none.map Portrait.entry) := Contents.json?_of_none h _
  exact of_eq hs hnone

/-- Every portrait can be read in a well-written store. -/
theorem Portrait.readOf_of (hs : Storage.Legible contents) {live : PeerId → Prop}
    (h : Store.profiles.Written live (contents s)) (peer : PeerId) :
    (Portrait.of s peer).ReadOf peer s := by
  obtain ⟨p?, hj⟩ := h.portrait peer
  rw [of_eq hs hj]
  exact readOf hs hj

/-- Where the entry of a peer stays, so does its portrait. -/
theorem Portrait.of_congr (hs : Storage.Legible contents) {live : PeerId → Prop}
    (h : Store.profiles.Written live (contents s))
    (hc : (contents s').get? (Profiles.key peer) = (contents s).get? (Profiles.key peer)) :
    Portrait.of s' peer = Portrait.of s peer := by
  obtain ⟨p?, hj⟩ := h.portrait peer
  rw [of_eq hs hj, of_eq hs ((Contents.json?_congr hc).trans hj)]

variable (hs : Storage.Faithful contents)

include hs

namespace Profiles

variable {redirects : Redirects} {i : PeerId}

/-! ### Deeds -/

/-- A deed writes the entry of its peer and nothing else. -/
theorem deed_edits (h : Store.profiles.Written (fun _ => True) (contents s))
    (d : Deed .profiles) :
    (d.perform redirects i : Op σ Unit).Edits contents (contents s)
      fun w => Store.profiles.Holds (redirects.follow i) w.key := by
  cases d with
  | profileKey | profile => exact .of_views (Deed.perform_views hs.legible redirects i h rfl)
  | storeProfile p => exact store_edits hs.ordered redirects i p fun _ _ => rfl
  | storeProfileKey k => exact storeKey_edits hs.ordered redirects i k fun _ => rfl

/-- After a profile key was stored the portrait has it, and the profile is stale if the key is
another. -/
theorem of_storeKey (h : Store.profiles.Written (fun _ => True) (contents s)) (k : List UInt8) :
    Portrait.of ((storeKey redirects i k).run s).state (redirects.follow i) =
      ⟨some k, if (Portrait.of s (redirects.follow i)).profileKey = some k then
        (Portrait.of s (redirects.follow i)).profile
        else (Portrait.of s (redirects.follow i)).profile.map Profile.stale⟩ := by
  obtain ⟨p?, hj⟩ := h.portrait (redirects.follow i)
  obtain ⟨⟨⟩, s', hr, hj'⟩ := storeKey_brings hs hj k s rfl
  rw [hr.2, Portrait.of_eq_some hs.legible hj', Portrait.of_eq hs.legible hj]
  cases p? <;> rfl

/-- After a profile was stored the portrait has it, with the profile key from before. -/
theorem of_store (h : Store.profiles.Written (fun _ => True) (contents s)) (p : Profile) :
    Portrait.of ((store redirects i p).run s).state (redirects.follow i) =
      ⟨(Portrait.of s (redirects.follow i)).profileKey, some p⟩ := by
  obtain ⟨p?, hj⟩ := h.portrait (redirects.follow i)
  obtain ⟨⟨⟩, s', hr, hj'⟩ := store_brings hs hj p s rfl
  rw [hr.2, Portrait.of_eq_some hs.legible hj', Portrait.of_eq hs.legible hj]
  cases p? <;> rfl

/-- **A deed keeps profiles fresh**: a new key takes the time of the fetch away, and a profile that
is stored comes with the key of that moment. -/
theorem Fresh.deed (h : Store.profiles.Written (fun _ => True) (contents s))
    {origins : PeerId → Option (List UInt8)} (hf : Fresh s origins) (redirects : Redirects)
    (i : PeerId) (d : Deed .profiles) :
    Fresh ((d.perform redirects i).run s).state (trace s origins (.deed redirects i d)) := by
  intro peer
  by_cases hp : peer = redirects.follow i
  · subst hp
    cases hr : d.reads with
    | true =>
        have hkeep := (d.perform_views hs.legible redirects i h hr s rfl).1
        have htrace : trace s origins (.deed redirects i d) (redirects.follow i) =
            origins (redirects.follow i) := by
          cases d <;> first | rfl | contradiction
        rw [htrace, Portrait.of_congr hs.legible h (by rw [hkeep])]
        exact hf _
    | false =>
        cases d with
        | storeProfileKey k =>
            rw [Deed.perform, of_storeKey hs h]
            intro hfetched
            by_cases hk : (Portrait.of s (redirects.follow i)).profileKey = some k
            · rw [if_pos hk] at hfetched
              exact hk.symm.trans (hf _ hfetched)
            · rw [if_neg hk] at hfetched
              cases hprofile : (Portrait.of s (redirects.follow i)).profile <;>
                simp [Portrait.fetched?, Portrait.get?, Profile.stale, hprofile] at hfetched
        | storeProfile p =>
            rw [Deed.perform, of_store hs h, trace, if_pos rfl]
            exact fun _ => rfl
        | profileKey | profile => contradiction
  · have hkeep := (deed_edits hs h d).get?_of_holds hp (rfl : Store.profiles.Holds peer (key peer))
    have htrace : trace s origins (.deed redirects i d) peer = origins peer := by
      cases d <;> first | rfl | exact if_neg hp
    rw [htrace, Portrait.of_congr hs.legible h hkeep]
    exact hf peer

/-! ### Merges -/

/-- **A merge keeps profiles fresh exactly if it does not clash.** The survivor's time is that of
its source, and its key is its own or else that of the absorbed peer. -/
theorem Fresh.merge_iff (h : Store.profiles.Written (fun _ => True) (contents s))
    {origins : PeerId → Option (List UInt8)} (hf : Fresh s origins) {surviving absorbed : PeerId}
    (hne : surviving ≠ absorbed) :
    Fresh ((Store.profiles.merge surviving absorbed).run s).state
        (trace s origins (.merge surviving absorbed)) ↔
      ¬Clashes s (.merge surviving absorbed) := by
  obtain ⟨s', hr, hi⟩ := h.inherited hs trivial hne
  obtain ⟨mine, theirs, both, hm, ht, hb, hparts⟩ := hi.survivor
  obtain rfl := Portrait.of_eq_of_readOf hm
  obtain rfl := Portrait.of_eq_of_readOf ht
  obtain rfl := Portrait.of_eq_of_readOf hb
  have hkey : (Portrait.of s' surviving).profileKey =
      (Portrait.of s surviving).profileKey.or (Portrait.of s absorbed).profileKey :=
    hparts .profileKey
  have htime : (Portrait.of s' surviving).fetched? =
      (Portrait.of s surviving).fetched?.or (Portrait.of s absorbed).fetched? :=
    hparts .lastUpdate
  -- the survivor's time is that of its source
  have hsource : (Portrait.of s' surviving).fetched? =
      (Portrait.of s (source s surviving absorbed)).fetched? := by
    rw [htime, source]
    cases hown : (Portrait.of s surviving).fetched? <;> simp [hown]
  rw [hr.2]
  constructor
  · rintro hfresh ⟨hfetched, hclash⟩
    have hs' := hfresh surviving (hsource ▸ hfetched)
    rw [hkey, trace, if_pos rfl, ← hf _ hfetched] at hs'
    exact hclash hs'
  · intro hclash peer hfetched
    by_cases hps : peer = surviving
    · subst hps
      rw [hsource] at hfetched
      rw [hkey, trace, if_pos rfl, ← hf _ hfetched]
      exact Classical.byContradiction fun hdiff => hclash ⟨hfetched, hdiff⟩
    · rw [trace, if_neg hps]
      by_cases hpa : peer = absorbed
      · subst hpa
        rw [Portrait.of_eq_none hs.legible (hi.gone (key peer) rfl)] at hfetched
        contradiction
      · have hkeep := Portrait.of_congr hs.legible h (hi.others peer (key peer) hps hpa rfl)
        rw [hkeep] at hfetched ⊢
        exact hf peer hfetched

/-! ### Episodes -/

/-- **Only a merge that clashes makes a profile out of date.** Deeds keep profiles fresh, and what
others write is none of them. -/
theorem Fresh.perform_iff (h : Store.profiles.Written (fun _ => True) (contents s))
    {origins : PeerId → Option (List UInt8)} (hf : Fresh s origins) {t : Episode .profiles}
    (ht : t.Proper) :
    Fresh (t.perform.run s).state (trace s origins t) ↔ ¬Clashes s t := by
  cases t with
  | deed redirects i d => exact iff_of_true (hf.deed hs h redirects i d) id
  | merge surviving absorbed => exact hf.merge_iff hs h ht
  | others ws hapart =>
      refine iff_of_true (fun peer => ?_) id
      have hkeep := Episode.get?_others hs.ordered hapart (keeps_key peer) (s := s)
      show (Portrait.of ((Storage.writeBatch ws).run s).state peer).fetched?.isSome = true →
        (Portrait.of ((Storage.writeBatch ws).run s).state peer).profileKey = origins peer
      rw [Portrait.of_congr hs.legible h hkeep]
      exact hf peer

end Profiles

end

/-- **When profiles stay fresh.** The profiles start without keys on a storage that never fails, and
episodes follow, with merges of two peers. Everything is read at any time. Every profile that need
not be fetched again was fetched with the key that is stored for its peer, at any time, exactly if
no merge lets the time of one peer meet another key. -/
theorem profiles_stay_fresh_iff {σ : Type} [Storage σ] {contents : σ → Contents}
    (hs : Storage.Faithful contents) {start : σ}
    (hvacant : ∀ key, Store.profiles.Keeps key → (contents start).get? key = none)
    {episodes : List (Episode .profiles)} (hproper : ∀ t ∈ episodes, t.Proper) :
    (∀ made, made <+: episodes → ∀ peer,
      (Portrait.of (Episode.after made start) peer).ReadOf peer (Episode.after made start)) ∧
    ((∀ made, made <+: episodes →
        Profiles.Fresh (Episode.after made start) (Profiles.origins start made)) ↔
      ∀ made t, made ++ [t] <+: episodes → ¬Profiles.Clashes (Episode.after made start) t) := by
  have hwritten (made : List (Episode .profiles)) :
      Store.profiles.Written (fun _ => True) (contents (Episode.after made start)) :=
    Store.Written.after hs.ordered made (Store.written_of_vacant hvacant)
  have hstep {made : List (Episode .profiles)} {t : Episode .profiles}
      (hm : made ++ [t] <+: episodes)
      (hf : Profiles.Fresh (Episode.after made start) (Profiles.origins start made)) :
      Profiles.Fresh (Episode.after (made ++ [t]) start) (Profiles.origins start (made ++ [t])) ↔
        ¬Profiles.Clashes (Episode.after made start) t := by
    rw [Episode.after_append, Profiles.origins, Episode.chronicle_append]
    exact hf.perform_iff hs (hwritten made) (hproper t (hm.subset (by simp)))
  refine ⟨fun made _ peer => Portrait.readOf_of hs.legible (hwritten made) peer,
    fun hfresh made t hm => ?_, fun hclash made => ?_⟩
  · exact (hstep hm (hfresh made ((List.prefix_append _ _).trans hm))).mp (hfresh _ hm)
  · induction made using List.reverseRecOn with
    | nil =>
        intro _ peer hfetched
        have hnone := hvacant (Profiles.key peer) (Profiles.keeps_key peer)
        rw [Episode.after, List.foldl_nil, Portrait.of_eq_none hs.legible hnone] at hfetched
        contradiction
    | append_singleton made t ih =>
        intro hm
        exact (hstep hm (ih ((List.prefix_append _ _).trans hm))).mpr (hclash made t hm)

/-- Two peers with a key each, the second with a profile that was fetched with its key. -/
def clashingEpisodes : List (Episode .profiles) :=
  [.deed ∅ ⟨1⟩ (.storeProfileKey [1]), .deed ∅ ⟨2⟩ (.storeProfileKey [2]),
    .deed ∅ ⟨2⟩ (.storeProfile { Profile.empty with lastUpdate := some 1000 }), .merge ⟨1⟩ ⟨2⟩]

/-- The survivor keeps its key, and the profile of the other is taken for one fetched with it: the
time that came along is that of a fetch with another key. -/
theorem merged_profile_is_not_fresh :
    let start : Memory := ⟨∅⟩
    (Portrait.of (Episode.after clashingEpisodes start) ⟨1⟩).profileKey = some [1] ∧
      (Portrait.of (Episode.after clashingEpisodes start) ⟨1⟩).fetched? = some 1000 ∧
      Profiles.origins start clashingEpisodes ⟨1⟩ = some [2] ∧
      ¬∀ made, made <+: clashingEpisodes →
        Profiles.Fresh (Episode.after made start) (Profiles.origins start made) := by
  intro start
  refine ⟨by decide +kernel, by decide +kernel, by decide +kernel, fun hfresh => ?_⟩
  have hvacant : ∀ key, Store.profiles.Keeps key → start.contents.get? key = none := fun _ _ => rfl
  have hproper : ∀ t ∈ clashingEpisodes, t.Proper := by simp [clashingEpisodes, Episode.Proper]
  have hclash := (profiles_stay_fresh_iff Memory.faithful hvacant hproper).2.mp hfresh
  refine hclash (clashingEpisodes.take 3) (.merge ⟨1⟩ ⟨2⟩) (List.prefix_refl _) ⟨?_, ?_⟩
  · decide +kernel
  · decide +kernel

end PeerBook
