import PeerBook.Proofs.Directory.Stored
import PeerBook.Stores.All

/-!
# PeerBook.Proofs.Stores.Mergers

The stores of an account keep to keys of their own when they follow a merge: on
an atomic storage what a directory has stored, or looks for, is the same after
it, whether the merge succeeds or not (`allMergers_spare`).

This is what lets the directory and the stores share one storage. The argument
goes along the programs (`Op.Spares`): keys that are listed begin with the prefix
that was listed, batches are about such keys or keys of the survivor, and the
prefixes of the stores are apart from those of the directory
(`Directory.not_owns`). What is stored under a key plays no part, so a store may
hold anything, also what cannot be read.
-/

namespace PeerBook

variable {σ τ α β : Type} {contents : σ → Contents} {P : α → Prop} {Q : β → Prop}

/-! ## Operations that spare the directory -/

/-- An operation answers a value of some kind, if it answers, and leaves what a directory has under
its keys in any case. -/
def Op.Spares (op : Op σ α) (contents : σ → Contents) (P : α → Prop) : Prop :=
  ∀ s, (∀ key, Directory.Owns key →
      (contents (op.run s).state).get? key = (contents s).get? key) ∧
    ∀ a, (op.run s).result = .ok a → P a

/-- A merger that leaves what a directory has under its keys. -/
def Merger.Spares (m : Merger σ) (contents : σ → Contents) : Prop :=
  ∀ surviving absorbed, (m.merge surviving absorbed).Spares contents fun _ => True

namespace Op.Spares

theorem pure {a : α} (h : P a) : (Pure.pure a : Op σ α).Spares contents P :=
  fun _ => ⟨fun _ _ => rfl, fun _ ha => Except.ok.inj ha ▸ h⟩

theorem note (level : Level) (text : String) :
    (Op.note level text : Op σ Unit).Spares contents fun _ => True :=
  fun _ => ⟨fun _ _ => rfl, fun _ _ => trivial⟩

theorem ofExcept (r : Except Error α) : (Op.ofExcept r : Op σ α).Spares contents fun _ => True := by
  intro s
  rw [run_ofExcept]
  exact ⟨fun _ _ => rfl, fun _ _ => trivial⟩

theorem mono {P' : α → Prop} {op : Op σ α} (h : op.Spares contents P) (hP : ∀ a, P a → P' a) :
    op.Spares contents P' :=
  fun s => ⟨(h s).1, fun a ha => hP a ((h s).2 a ha)⟩

/-- Two operations that spare the directory do so one after the other; of the second it has to be
known only for what the first may answer. -/
theorem bind {op : Op σ α} {next : α → Op σ β} (h : op.Spares contents P)
    (h' : ∀ a, P a → (next a).Spares contents Q) : (op >>= next).Spares contents Q := by
  intro s
  obtain ⟨hkeep, hP⟩ := h s
  obtain ⟨a, s₁, hr⟩ | ⟨e, s₁, hf⟩ := returns_or_fails op s
  · rw [hr.2] at hkeep
    obtain ⟨hkeep', hQ⟩ := h' a (hP a hr.1) s₁
    rw [hr.state_bind, hr.result_bind]
    exact ⟨fun key hk => (hkeep' key hk).trans (hkeep key hk), hQ⟩
  · rw [hf.2] at hkeep
    rw [(hf.bind next).2]
    exact ⟨hkeep, fun b hb => absurd hb ((hf.bind next).not_ok b)⟩

/-- What only reads spares the directory. -/
theorem of_reads {op : Op σ α} (h : ∀ c, op.Reads contents c P) : op.Spares contents P := by
  intro s
  obtain ⟨a, s', hr, hs', ha⟩ := h (contents s) s rfl
  rw [hr.1, hr.2, hs']
  exact ⟨fun _ _ => rfl, fun b hb => Except.ok.inj hb ▸ ha⟩

variable [Storage σ]

theorem get (hs : Storage.Atomic contents) (key : String) :
    (Storage.get key : Op σ _).Spares contents fun _ => True :=
  of_reads fun c => (hs.get c key).mono fun _ _ => trivial

theorem getJson (hs : Storage.Atomic contents) (decoder : Json.Decoder α) (key : String) :
    (Storage.getJson decoder key : Op σ _).Spares contents fun _ => True := by
  refine .bind (get hs key) fun v _ => ?_
  cases v with
  | none => exact .pure trivial
  | some raw => exact .ofExcept _

/-- What is listed begins with the prefix, so it is apart from the directory if the prefix is. -/
theorem list (hs : Storage.Atomic contents) (keyPrefix : String) :
    (Storage.list keyPrefix : Op σ _).Spares contents fun keys =>
      ∀ k ∈ keys, Text.hasPrefix keyPrefix k = true :=
  of_reads fun c => (hs.list c keyPrefix).mono fun _ hkeys k hk =>
    (Contents.mem_keysUnder.mp ((hkeys k).mp hk)).2

/-- A batch of writes to other keys. -/
theorem writeBatch (hs : Storage.Atomic contents) {ws : List Write}
    (h : ∀ w ∈ ws, ¬Directory.Owns w.key) :
    (Storage.writeBatch ws : Op σ Unit).Spares contents fun _ => True := by
  intro s
  refine ⟨fun key hk => ?_, fun _ _ => trivial⟩
  obtain ⟨s', hr, hs'⟩ | ⟨e, s', hf, hs'⟩ := hs.writeBatch ws s
  · rw [hr.2, hs']
    exact Contents.get?_applyAll_of_ne _ fun w hw hwk => h w hw (hwk ▸ hk)
  · rw [hf.2, hs']

omit [Storage σ] in
theorem collect {f : τ → Op σ (Option β)} {xs : List τ}
    (h : ∀ x ∈ xs, (f x).Spares contents fun b? => ∀ b, b? = some b → Q b) :
    (Storage.collect f xs).Spares contents fun bs => ∀ b ∈ bs, Q b := by
  induction xs with
  | nil => exact .pure (by simp)
  | cons x xs ih =>
      refine .bind (h x List.mem_cons_self) fun b? hb => ?_
      refine .bind (ih fun y hy => h y (List.mem_cons_of_mem x hy)) fun bs hbs => .pure ?_
      intro b hm
      rcases List.mem_append.mp hm with hm | hm
      · exact hb b (Option.mem_toList.mp hm)
      · exact hbs b hm

end Op.Spares

/-! ## Keys of other stores -/

/-- Neither of two texts begins with the other. -/
def Text.apart (p q : String) : Bool := !hasPrefix p q && !hasPrefix q p

/-- What begins with one of two texts that are apart does not begin with the other. -/
theorem Text.not_hasPrefix_of_apart {p q s : String} (h : apart p q = true)
    (hp : hasPrefix p s = true) : ¬hasPrefix q s = true := by
  intro hq
  rw [apart, Bool.and_eq_true, Bool.not_eq_true', Bool.not_eq_true'] at h
  rw [hasPrefix_iff] at hp hq
  rcases List.prefix_or_prefix_of_prefix hp hq with hpq | hqp
  · rw [hasPrefix_iff.mpr hpq] at h
    exact absurd h.1 nofun
  · rw [hasPrefix_iff.mpr hqp] at h
    exact absurd h.2 nofun

/-- A prefix that no key of a directory has, and that no part of one is. -/
def Directory.disjoint (keyPrefix : String) : Bool :=
  [rowPrefix, mergedPrefix, lastIdKey, selfKey].all (Text.apart keyPrefix)

/-- Keys under such a prefix are not those of a directory. -/
theorem Directory.not_owns {keyPrefix key : String} (h : disjoint keyPrefix = true)
    (hk : Text.hasPrefix keyPrefix key = true) : ¬Owns key := by
  simp only [disjoint, List.all_cons, List.all_nil, Bool.and_true, Bool.and_eq_true] at h
  obtain ⟨hrow, hmerged, hlast, hself⟩ := h
  have hsame : Text.hasPrefix key key = true := Text.hasPrefix_iff.mpr List.prefix_rfl
  rintro (ho | ho | rfl | rfl)
  · exact Text.not_hasPrefix_of_apart hrow hk ho
  · exact Text.not_hasPrefix_of_apart hmerged hk ho
  · exact Text.not_hasPrefix_of_apart hlast hk hsame
  · exact Text.not_hasPrefix_of_apart hself hk hsame

/-! ## The six stores -/

variable [Storage σ]

/-- The keys of sessions are not those of a directory. -/
theorem Sessions.not_owns {k : String} (hk : Text.hasPrefix keyPrefix k = true) :
    ¬Directory.Owns k := by
  have hd : Directory.disjoint keyPrefix = true := by decide
  exact Directory.not_owns hd hk

/-- The writes that move a session are about it and about one of the surviving peer, so about keys
of sessions. -/
theorem Sessions.mergeKey_spares (hs : Storage.Atomic contents) (surviving absorbed : PeerId)
    {k : String} (hk : ¬Directory.Owns k) :
    (mergeKey surviving absorbed k : Op σ _).Spares contents
      fun ws => ∀ w ∈ ws, ¬Directory.Owns w.key := by
  have htarget (device : UInt32) : ¬Directory.Owns (key surviving device) :=
    not_owns (by simp [Text.hasPrefix_iff, key, peerPrefix])
  unfold mergeKey
  cases deviceOf? k with
  | none => exact .pure (by simpa [Write.key] using hk)
  | some device =>
      refine .bind (.get hs k) fun raw _ => ?_
      cases raw with
      | none => exact .pure (by simpa [Write.key] using hk)
      | some raw =>
          refine .bind (.getJson hs _ _) fun existing _ => ?_
          split
          · exact .bind (.note _ _) fun _ _ => .pure (by simpa [Write.key] using hk)
          · exact .pure (by simpa [Write.key] using ⟨hk, htarget device⟩)

/-- The sessions spare the directory when they follow a merge, also where a session cannot be read
or the batch fails. -/
theorem Sessions.merger_spares (hs : Storage.Atomic contents) :
    (Sessions.merger : Merger σ).Spares contents := by
  intro surviving absorbed
  refine .bind (.list hs _) fun keys hkeys => ?_
  have hsource {k : String} (hk : k ∈ keys) : ¬Directory.Owns k := by
    have hp := Text.hasPrefix_iff.mp (hkeys k hk)
    rw [peerPrefix, String.toList_append, String.toList_append, List.append_assoc] at hp
    exact not_owns (Text.hasPrefix_iff.mpr ((List.prefix_append _ _).trans hp))
  refine .bind (.collect (Q := fun ws => ∀ w ∈ ws, ¬Directory.Owns w.key) fun k hk =>
    .bind (mergeKey_spares hs surviving absorbed (hsource hk)) fun ws hws => .pure ?_)
    fun bs hbs => .writeBatch hs ?_
  · rintro _ ⟨⟩
    exact hws
  · intro w hw
    obtain ⟨ws, hws, hw⟩ := List.mem_flatten.mp hw
    exact hbs ws hws w hw

/-- So do the identities, which have one key for each peer. -/
theorem Identities.merger_spares (hs : Storage.Atomic contents) :
    (Identities.merger : Merger σ).Spares contents := by
  intro surviving absorbed
  have hd : Directory.disjoint keyPrefix = true := by decide
  have howned (peer : PeerId) : ¬Directory.Owns (key peer) :=
    Directory.not_owns hd (Text.hasPrefix_append _ _)
  refine .bind (.get hs _) fun raw _ => ?_
  cases raw with
  | none => exact .pure trivial
  | some raw =>
      refine .bind (.get hs _) fun existing _ => .writeBatch hs ?_
      intro w hw
      rcases List.mem_cons.mp hw with rfl | hw
      · exact howned absorbed
      · split at hw
        · rw [List.mem_singleton.mp hw]
          exact howned surviving
        · contradiction

/-- So do the profiles, which have one key for each peer. -/
theorem Profiles.merger_spares (hs : Storage.Atomic contents) :
    (Profiles.merger : Merger σ).Spares contents := by
  intro surviving absorbed
  have hd : Directory.disjoint keyPrefix = true := by decide
  have howned (peer : PeerId) : ¬Directory.Owns (key peer) :=
    Directory.not_owns hd (Text.hasPrefix_append _ _)
  refine .bind (.getJson hs _ _) fun theirs _ => ?_
  cases theirs with
  | none => exact .pure trivial
  | some theirs =>
      refine .bind (.getJson hs _ _) fun mine _ => .writeBatch hs ?_
      simp [Write.key, howned]

/-- Entries that move to other keys spare the directory if all of these are apart from it. -/
theorem Op.Spares.rekeyed (hs : Storage.Atomic contents) {key : PeerId → String → String}
    (hkey : ∀ peer id, ¬Directory.Owns (key peer id)) {μ : Type} (moved : List μ)
    (id text : μ → String) (surviving absorbed : PeerId) :
    (Storage.writeBatch (moved.flatMap fun m =>
      [.del (key absorbed (id m)), .put (key surviving (id m)) (text m)]) : Op σ Unit).Spares
        contents fun _ => True := by
  apply Op.Spares.writeBatch hs
  intro w hw
  obtain ⟨m, -, hm⟩ := List.mem_flatMap.mp hw
  obtain rfl | rfl : w = _ ∨ w = _ := by simpa using hm
  · exact hkey absorbed (id m)
  · exact hkey surviving (id m)

/-- So does the send log, whose entries come under keys that they name themselves. -/
theorem SendLog.merger_spares (hs : Storage.Atomic contents) :
    (SendLog.merger : Merger σ).Spares contents := by
  intro surviving absorbed
  have hd : Directory.disjoint keyPrefix = true := by decide
  have howned (peer : PeerId) (id : String) : ¬Directory.Owns (key peer id) :=
    Directory.not_owns hd (by simp [Text.hasPrefix_iff, key, peerPrefix])
  have hentries : (entriesUnder absorbed : Op σ _).Spares contents fun _ => True :=
    .bind (.list hs _) fun _ _ => .bind (.collect (Q := fun _ => True) fun _ _ =>
      .mono (.getJson hs _ _) fun _ _ _ _ => trivial) fun _ _ => .pure trivial
  exact .bind hentries fun moved _ => .rekeyed hs howned moved (·.id)
    (fun m => { m with peer := surviving }.toJson.compact) surviving absorbed

/-- A cache may have its entries anywhere; by default they are apart from the directory. So this is
the one store of which something has to be assumed. -/
theorem MessageCache.merger_spares (hs : Storage.Atomic contents) {cache : MessageCache}
    (hc : Directory.disjoint cache.keyPrefix = true) :
    (cache.merger : Merger σ).Spares contents := by
  intro surviving absorbed
  have howned (peer : PeerId) (id : String) : ¬Directory.Owns (cache.key peer id) :=
    Directory.not_owns hc (by simp [Text.hasPrefix_iff, key, peerPrefix])
  have hentries : (cache.entriesUnder absorbed : Op σ _).Spares contents fun _ => True := by
    refine .bind (.list hs _) fun keys _ => .bind (.collect (Q := fun _ => True) fun k _ => ?_)
      fun _ _ => .pure trivial
    refine .bind (.get hs k) fun raw _ => ?_
    cases raw with
    | none => exact .pure fun _ _ => trivial
    | some raw =>
        dsimp only
        split
        · exact .pure fun _ _ => trivial
        · exact .bind (.note _ _) fun _ _ => .pure fun _ _ => trivial
  exact .bind hentries fun moved _ => .rekeyed hs howned moved (·.id)
    (fun m => { m with peer := surviving }.toJson.compact) surviving absorbed

/-- So do the preferences, with two keys for each peer. -/
theorem Preferences.merger_spares (hs : Storage.Atomic contents) :
    (Preferences.merger : Merger σ).Spares contents := by
  intro surviving absorbed
  have hd : Directory.disjoint keyPrefix = true := by decide
  have howned (peer : PeerId) : ¬Directory.Owns (key peer) :=
    Directory.not_owns hd (Text.hasPrefix_append _ _)
  have hm : Directory.disjoint syncPrefix = true := by decide
  have hsync (peer : PeerId) : ¬Directory.Owns (syncKey peer) :=
    Directory.not_owns hm (Text.hasPrefix_append _ _)
  have hwrite (settings : List Write) (h : ∀ w ∈ settings, ¬Directory.Owns w.key) :
      (Storage.writeBatch (settings ++ [.put (syncKey surviving) mark, .del (syncKey absorbed)]) :
        Op σ Unit).Spares contents fun _ => True := by
    apply Op.Spares.writeBatch hs
    intro w hw
    rcases List.mem_append.mp hw with hw | hw
    · exact h w hw
    · obtain rfl | rfl : w = _ ∨ w = _ := by simpa using hw
      · exact hsync surviving
      · exact hsync absorbed
  refine .bind (.getJson hs _ _) fun theirs _ => ?_
  cases theirs with
  | none => exact hwrite [] nofun
  | some theirs =>
      have hload : (load surviving : Op σ _).Spares contents fun _ => True :=
        .bind (.getJson hs _ _) fun _ _ => .pure trivial
      refine .bind hload fun mine _ => hwrite _ ?_
      simp [Write.key, howned]

/-- **No store touches the directory** when it follows a merge. -/
theorem allMergers_spare (hs : Storage.Atomic contents) {cache : MessageCache}
    (hc : Directory.disjoint cache.keyPrefix = true) :
    ∀ m ∈ (allMergers cache : List (Merger σ)), m.Spares contents := by
  simp only [allMergers, List.forall_mem_cons]
  exact ⟨Sessions.merger_spares hs, Identities.merger_spares hs, Profiles.merger_spares hs,
    SendLog.merger_spares hs, MessageCache.merger_spares hs hc, Preferences.merger_spares hs,
    nofun⟩

end PeerBook
