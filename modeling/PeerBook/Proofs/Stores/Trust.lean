import PeerBook.Proofs.Stores.Isolation

/-!
# PeerBook.Proofs.Stores.Trust

How a key comes to be trusted. In each episode the identities write what is
named in `Identities.Allows`, on any content and wherever it is cut short. So
whoever is found to have a trusted key has had it, or met its owner for the
first time, or was told by the user, or took over a peer that had it
(`Identities.Warrant`); and of a peer with an identity no other key is trusted
before the user names it or the identity goes
(`trust_is_never_gained_silently`).

The first half goes backward from what is found and needs no invariant; the
second goes forward from a key without trust, and `Distrusts` is the invariant
that every episode keeps unless it lifts it. The storage is an ordered one, so
episodes may be cut short, and what is stored at the start may be anything.
-/

namespace PeerBook

/-! ## What is held, and why -/

section

variable {σ : Type} [Storage σ]

/-- The identity that is held for a peer, if it can be read. -/
def Identities.held (s : σ) (peer : PeerId) : Except Error (Option Identity) :=
  ((get ∅ peer).run s).result

/-- A reason to find an identity with a trusted key after an episode. -/
inductive Identities.Warrant (s : σ) (peer : PeerId) (i : Identity) : Episode .identities → Prop
  /-- The peer had this identity. -/
  | kept {t : Episode .identities} (held : held s peer = .ok (some i)) : Warrant s peer i t
  /-- The first key of the peer was saved. -/
  | firstContact {redirects : Redirects} {j : PeerId} (handle : redirects.follow j = peer)
      (vacant : held s peer = .ok none) (trust : i.trust = .trustedUnverified) :
      Warrant s peer i (.deed redirects j (.saveIdentity i.addedAt i.key))
  /-- The user named the key that was stored. -/
  | user {redirects : Redirects} {j : PeerId} {mine : Identity}
      (handle : redirects.follow j = peer) (held : held s peer = .ok (some mine))
      (same : i = { mine with trust := i.trust }) :
      Warrant s peer i (.deed redirects j (.setTrust i.key i.trust))
  /-- A peer without an identity took over one with this identity. -/
  | adopted {absorbed : PeerId} (vacant : held s peer = .ok none)
      (theirs : held s absorbed = .ok (some i)) : Warrant s peer i (.merge peer absorbed)

end

/-- An episode in which the user trusts a key of a peer, or the identity of the peer is removed. -/
def Episode.Lifts (peer : PeerId) (key : List UInt8) : Episode .identities → Prop
  | .deed redirects j (.setTrust key' trust) =>
    redirects.follow j = peer ∧ key' = key ∧ trust.isTrusted = true
  | .deed redirects j .deleteIdentity => redirects.follow j = peer
  | .merge _ absorbed => absorbed = peer
  | _ => False

/-! ## What is written -/

namespace Identities

/-- What the identities may write in an episode. -/
inductive Allows (c : Contents) : Episode .identities → Write → Prop
  | firstContact {redirects : Redirects} {j : PeerId} (now : UInt64) (k : List UInt8)
      (vacant : c.json? Identity.ofJson (key (redirects.follow j)) = .ok none) :
      Allows c (.deed redirects j (.saveIdentity now k))
        (.put (key (redirects.follow j)) (Identity.mk k .trustedUnverified now).toJson.compact)
  | replaced {redirects : Redirects} {j : PeerId} (now : UInt64) {k : List UInt8} {i : Identity}
      (held : c.json? Identity.ofJson (key (redirects.follow j)) = .ok (some i))
      (other : i.key ≠ k) :
      Allows c (.deed redirects j (.saveIdentity now k))
        (.put (key (redirects.follow j)) (Identity.mk k .untrusted now).toJson.compact)
  | named {redirects : Redirects} {j : PeerId} (trust : TrustLevel) {i : Identity}
      (held : c.json? Identity.ofJson (key (redirects.follow j)) = .ok (some i)) :
      Allows c (.deed redirects j (.setTrust i.key trust))
        (.put (key (redirects.follow j)) { i with trust }.toJson.compact)
  | deleted (redirects : Redirects) (j : PeerId) :
      Allows c (.deed redirects j .deleteIdentity) (.del (key (redirects.follow j)))
  | absorbed (surviving absorbed : PeerId) :
      Allows c (.merge surviving absorbed) (.del (key absorbed))
  | adopted {surviving absorbed : PeerId} {raw : String}
      (vacant : c.get? (key surviving) = none) (theirs : c.get? (key absorbed) = some raw) :
      Allows c (.merge surviving absorbed) (.put (key surviving) raw)
  | others {ws : List Write} (apart : ∀ w ∈ ws, ¬Store.identities.Keeps w.key) {w : Write}
      (apart' : ¬Store.identities.Keeps w.key) : Allows c (.others ws apart) w

variable {σ : Type} [Storage σ] {contents : σ → Contents} {c : Contents}

/-- A merge writes what is allowed: the absorbed identity goes, and comes to the survivor as it
was. -/
theorem batch_allowed {surviving absorbed : PeerId} {w : Write}
    (h : w ∈ batch c surviving absorbed) : Allows c (.merge surviving absorbed) w := by
  unfold batch at h
  cases hr : c.get? (key absorbed) with
  | none => simp [hr] at h
  | some raw =>
      rw [hr] at h
      rcases List.mem_cons.mp h with rfl | h
      · exact .absorbed surviving absorbed
      · split at h
        · rename_i hnone
          rw [List.mem_singleton.mp h]
          exact .adopted (Option.isNone_iff_eq_none.mp hnone) hr
        · contradiction

/-- **In an episode the identities write what is allowed**, whatever becomes of it and whatever was
stored before. -/
theorem edits_allowed (hs : Storage.Ordered contents) (t : Episode .identities) :
    t.perform.Edits contents c (Allows c t) := by
  cases t with
  | deed redirects j d =>
      cases d with
      | identity => exact .map (.of_views (Query.identity.ask_views hs.toLegible)) fun _ => ()
      | isTrusted k =>
          exact .map (.of_views ((Query.isTrusted k).ask_views hs.toLegible)) fun _ => ()
      | deleteIdentity => exact Storage.del_edits hs (.deleted redirects j)
      | saveIdentity now k =>
          exact .map (save_edits hs redirects now j k (fun hnone => .firstContact now k hnone)
            fun _ hheld hne => .replaced now hheld hne) _
      | setTrust k trust =>
          refine .map (setTrust_edits hs redirects j k trust fun i hheld hk => ?_) _
          subst hk
          exact .named trust hheld
  | merge surviving absorbed =>
      refine .of_submits hs.writeBatch
        (Store.merge_submits hs.toLegible .identities surviving absorbed) ?_
      rintro ws ⟨keys, -, hb⟩ w hw
      obtain rfl := Except.ok.inj hb
      exact batch_allowed hw
  | others ws hapart => exact .of_writes (hs.writeBatch ws) fun w hw => .others hapart (hapart w hw)

/-! ## What is read afterwards -/

/-- What is held for a peer is what its key says. -/
theorem held_eq (hs : Storage.Legible contents) (s : σ) (peer : PeerId) :
    held s peer = (contents s).json? Identity.ofJson (key peer) := by
  have hget := (Op.Views.getJson (c := contents s) hs Identity.ofJson
    (key (Redirects.follow ∅ peer))).result
  rw [Redirects.follow_empty] at hget
  rw [held, get, Redirects.follow_empty]
  exact hget

/-- What is read through a handle is what is held for its peer. -/
theorem get_eq (hs : Storage.Legible contents) (redirects : Redirects) (j : PeerId) (s : σ) :
    ((get redirects j).run s).result = held s (redirects.follow j) := by
  rw [held_eq hs]
  exact (Op.Views.getJson hs _ _).result

/-- What is held for a peer stays, or it is what an allowed write leaves. -/
theorem held_after (hs : Storage.Ordered contents) (t : Episode .identities) (s : σ)
    (peer : PeerId) : held (t.perform.run s).state peer = held s peer ∨
      ∃ w, Allows (contents s) t w ∧ w.key = key peer ∧
        (contents (t.perform.run s).state).get? (key peer) = w.value := by
  obtain ⟨ws, hws, hc⟩ := edits_allowed hs t s rfl
  rw [held_eq hs.toLegible, held_eq hs.toLegible, hc]
  obtain hkeep | ⟨w, hw, hk, hv⟩ := Contents.get?_applyAll_or (contents s) ws (key peer)
  · exact .inl (Contents.json?_congr hkeep)
  · exact .inr ⟨w, hws w hw, hk, hv⟩

/-- Where an identity was written it is held. -/
theorem held_of_put (hs : Storage.Legible contents) {s : σ} {peer : PeerId} {i : Identity}
    (h : (contents s).get? (key peer) = some i.toJson.compact) : held s peer = .ok (some i) := by
  rw [held_eq hs]
  exact Contents.json?_of_decode h (Identity.restores.decode_compact i)

/-- Where an identity was removed none is held. -/
theorem held_of_del (hs : Storage.Legible contents) {s : σ} {peer : PeerId}
    (h : (contents s).get? (key peer) = none) : held s peer = .ok none := by
  rw [held_eq hs]
  exact Contents.json?_of_none h _

theorem keeps_key (peer : PeerId) : Store.identities.Keeps (key peer) := by
  have hholds : Store.identities.Holds peer (key peer) := rfl
  exact hholds.keeps

/-! ## Trust -/

/-- **There is a reason for every trusted key.** What is held afterwards was held before, or it is
what an allowed write has put, and each of these is a reason if it is trusted. -/
theorem Warrant.of_held (hs : Storage.Ordered contents) {t : Episode .identities} {s : σ}
    {peer : PeerId} {i : Identity} (h : held (t.perform.run s).state peer = .ok (some i))
    (htrust : i.trust.isTrusted = true) : Warrant s peer i t := by
  have hl := hs.toLegible
  -- what was put is what is held
  have hput {w : Identity} (hv : (contents (t.perform.run s).state).get? (key peer) =
      some w.toJson.compact) : w = i :=
    Option.some.inj (Except.ok.inj ((held_of_put hl hv).symm.trans h))
  have hdel (hv : (contents (t.perform.run s).state).get? (key peer) = none) : False := by
    rw [held_of_del hl hv] at h
    exact absurd (Except.ok.inj h) nofun
  obtain hkeep | ⟨w, ha, hk, hv⟩ := held_after hs t s peer
  · exact .kept (hkeep ▸ h)
  cases ha with
  | firstContact now k vacant =>
      obtain rfl := Text.append_peer_inj hk
      obtain rfl := hput hv
      exact .firstContact rfl ((held_eq hl s _).trans vacant) rfl
  | replaced now held other =>
      obtain rfl := hput hv
      contradiction
  | named trust held =>
      obtain rfl := Text.append_peer_inj hk
      obtain rfl := hput hv
      exact .user rfl ((held_eq hl s _).trans held) rfl
  | deleted | absorbed => exact (hdel hv).elim
  | adopted vacant theirs =>
      obtain rfl := Text.append_peer_inj hk
      refine .adopted (held_of_del hl vacant) ?_
      rw [held_eq hl] at h ⊢
      exact (Contents.json?_congr (theirs.trans hv.symm)).trans h
  | others apart apart' => exact absurd (hk ▸ keeps_key peer) apart'

/-- A peer has an identity, and a key is not trusted with it. -/
def Distrusts (s : σ) (peer : PeerId) (k : List UInt8) : Prop :=
  ∃ i, held s peer = .ok (some i) ∧ (i.key = k → i.trust = .untrusted)

/-- **A key stays without trust** in an episode that does not lift this. The key may be named by the
user, but not as a trusted one, and a merge leaves an identity that is there. -/
theorem Distrusts.perform (hs : Storage.Ordered contents) {s : σ} {peer : PeerId}
    {k : List UInt8} (h : Distrusts s peer k) {t : Episode .identities} (ht : ¬t.Lifts peer k) :
    Distrusts (t.perform.run s).state peer k := by
  have hl := hs.toLegible
  obtain ⟨i, hi, hk⟩ := h
  have hsome {j : PeerId} {r : Option Identity} (hj : key j = key peer)
      (hr : (contents s).json? Identity.ofJson (key j) = .ok r) : r = some i := by
    rw [hj, ← held_eq hl, hi] at hr
    exact (Except.ok.inj hr).symm
  obtain hkeep | ⟨w, ha, hw, hv⟩ := held_after hs t s peer
  · exact ⟨i, hkeep.trans hi, hk⟩
  cases ha with
  | firstContact now k' vacant => exact absurd (hsome hw vacant) nofun
  | replaced now held other => exact ⟨_, held_of_put hl hv, fun _ => rfl⟩
  | named trust held =>
      obtain rfl := Option.some.inj (hsome hw held)
      refine ⟨_, held_of_put hl hv, fun hsame => ?_⟩
      -- the key was named, but not as a trusted one
      cases trust with
      | untrusted => rfl
      | trustedUnverified | trustedVerified =>
          exact absurd ⟨Text.append_peer_inj hw, hsame, rfl⟩ ht
  | deleted => exact absurd (Text.append_peer_inj hw) ht
  | absorbed => exact absurd (Text.append_peer_inj hw) ht
  | adopted vacant theirs => exact absurd (hsome hw (Contents.json?_of_none vacant _)) nofun
  | others apart apart' => exact absurd (hw ▸ keeps_key peer) apart'

/-- A key stays without trust along a run in which nothing lifts this. -/
theorem Distrusts.after (hs : Storage.Ordered contents) {s : σ} {peer : PeerId} {k : List UInt8}
    (h : Distrusts s peer k) {later : List (Episode .identities)}
    (ht : ∀ t ∈ later, ¬t.Lifts peer k) : Distrusts (Episode.after later s) peer k := by
  induction later generalizing s with
  | nil => exact h
  | cons t later ih =>
      rw [List.forall_mem_cons] at ht
      exact ih (h.perform hs ht.1) ht.2

/-- A key without trust may not be used, whether the identity has another key or this one without
trust. -/
theorem Distrusts.isTrusted (hs : Storage.Legible contents) {s : σ} {redirects : Redirects}
    {j : PeerId} {k : List UInt8} (h : Distrusts s (redirects.follow j) k) :
    ((isTrusted redirects j k).run s).result = .ok false := by
  obtain ⟨i, hi, hk⟩ := h
  have hget := (get_eq hs redirects j s).trans hi
  have hr : (get redirects j).Returns s (some i) ((get redirects j).run s).state := ⟨hget, rfl⟩
  show ((get redirects j >>= _).run s).result = _
  rw [hr.result_bind]
  refine congrArg Except.ok ?_
  by_cases hsame : i.key = k
  · rw [hk hsame]
    exact Bool.and_false _
  · rw [beq_false_of_ne hsame]
    rfl

/-- A key that is saved in place of another has no trust, however far the other one was trusted. -/
theorem held_of_save (hs : Storage.Ordered contents) {redirects : Redirects} {now : UInt64}
    {j : PeerId} {k : List UInt8} {s s' : σ} (h : (save redirects now j k).Returns s true s') :
    ∃ i, held s (redirects.follow j) = .ok (some i) ∧ i.key ≠ k ∧
      held s' (redirects.follow j) = .ok (some ⟨k, .untrusted, now⟩) := by
  obtain ⟨existing, s₁, hget, hnext⟩ := h.of_bind
  have hheld := (get_eq hs.toLegible redirects j s).symm.trans hget.1
  have hfalse (t u : σ) : ¬(pure false : Op σ Bool).Returns t true u :=
    fun hr => absurd (hr.unique (Op.returns_pure false t)).1 nofun
  cases existing with
  | none =>
      obtain ⟨_, t, -, hpure⟩ := hnext.of_bind
      exact (hfalse t s' hpure).elim
  | some i =>
      simp only at hnext
      split at hnext
      · exact (hfalse s₁ s' hnext).elim
      · rename_i hne
        obtain ⟨_, s₂, -, hnext⟩ := hnext.of_bind
        obtain ⟨_, s₃, hput, hpure⟩ := hnext.of_bind
        obtain ⟨-, rfl⟩ := hpure.unique (Op.returns_pure true s₃)
        refine ⟨i, hheld, hne, held_of_put hs.toLegible ?_⟩
        obtain ⟨t, hr, hc⟩ | ⟨e, t, _, hf, -⟩ := hs.put (key (redirects.follow j))
          (Identity.mk k .untrusted now).toJson.compact s₂
        · obtain ⟨-, rfl⟩ := hput.unique hr
          rw [hc]
          exact Contents.get?_put _ _ _
        · exact absurd hput.1 (hf.not_ok ())

end Identities

/-- **Trust is never gained silently.** Whatever was done with the identities before, on any
content and wherever it was cut short, and whatever is done next: whoever has a trusted key then
has it for a reason. A key that is not stored for a peer, or stored without trust, may not be used
for the peer as long as the user does not name it and the identity of the peer is not removed, and
a key that is saved in place of another is such a key. -/
theorem trust_is_never_gained_silently {σ : Type} [Storage σ] {contents : σ → Contents}
    (hs : Storage.Ordered contents) (start : σ) (episodes : List (Episode .identities)) :
    let s := Episode.after episodes start
    (∀ (t : Episode .identities) redirects j i,
      ((Identities.get redirects j).run (t.perform.run s).state).result = .ok (some i) →
        i.trust.isTrusted = true → Identities.Warrant s (redirects.follow j) i t) ∧
    (∀ redirects j i k, ((Identities.get redirects j).run s).result = .ok (some i) →
      (i.key = k → i.trust = .untrusted) →
      ∀ later : List (Episode .identities), (∀ t ∈ later, ¬t.Lifts (redirects.follow j) k) →
        ∀ redirects' j', Redirects.follow redirects' j' = redirects.follow j →
          ((Identities.isTrusted redirects' j' k).run (Episode.after later s)).result =
            .ok false) ∧
    ∀ redirects now j k s', (Identities.save redirects now j k).Returns s true s' →
      ∃ i, ((Identities.get redirects j).run s).result = .ok (some i) ∧ i.key ≠ k ∧
        ((Identities.get redirects j).run s').result = .ok (some ⟨k, .untrusted, now⟩) := by
  intro s
  have hget := Identities.get_eq hs.toLegible
  refine ⟨fun t redirects j i hi htrust => ?_, fun redirects j i k hi hk later hlater => ?_,
    fun redirects now j k s' hr => ?_⟩
  · rw [hget] at hi
    exact .of_held hs hi htrust
  · intro redirects' j' hj'
    rw [hget] at hi
    have h : Identities.Distrusts s (redirects.follow j) k := ⟨i, hi, hk⟩
    refine Identities.Distrusts.isTrusted hs.toLegible ?_
    rw [hj']
    exact h.after hs hlater
  · obtain ⟨i, hi, hne, hi'⟩ := Identities.held_of_save hs hr
    exact ⟨i, (hget redirects j s).trans hi, hne, (hget redirects j s').trans hi'⟩

/-- The key of peer 4 changes from a verified one to another. -/
def changedKey : List (Episode .identities) :=
  [.deed ∅ ⟨4⟩ (.saveIdentity 1 [1]), .deed ∅ ⟨4⟩ (.setTrust [1] .trustedVerified),
    .deed ∅ ⟨5⟩ (.saveIdentity 1 [1]), .deed ∅ ⟨5⟩ (.setTrust [1] .trustedVerified),
    .deed ∅ ⟨4⟩ (.saveIdentity 2 [2])]

/-- The key of peer 4 changes back, and it takes over a peer that has the same key verified: the
key stays without trust. A peer without an identity takes it over from there with its trust. -/
theorem restored_key_is_not_trusted :
    let s := Episode.after changedKey (⟨∅⟩ : Memory)
    let later : List (Episode .identities) :=
      [.deed ∅ ⟨4⟩ (.saveIdentity 3 [1]), .merge ⟨4⟩ ⟨5⟩]
    let i : Identity := ⟨[1], .trustedVerified, 1⟩
    ((Identities.get ∅ ⟨4⟩).run s).result = .ok (some ⟨[2], .untrusted, 2⟩) ∧
      (∀ t ∈ later, ¬t.Lifts ⟨4⟩ [1]) ∧
      ((Identities.get ∅ ⟨4⟩).run (Episode.after later s)).result =
        .ok (some ⟨[1], .untrusted, 3⟩) ∧
      ((Identities.isTrusted ∅ ⟨4⟩ [1]).run (Episode.after later s)).result = .ok false ∧
      ((Identities.get ∅ ⟨6⟩).run
        ((Episode.merge ⟨6⟩ ⟨5⟩ : Episode .identities).perform.run s).state).result = .ok (some i) ∧
      Identities.Warrant s ⟨6⟩ i (.merge ⟨6⟩ ⟨5⟩) := by
  intro s later i
  obtain ⟨hwarrant, hstays, -⟩ :=
    trust_is_never_gained_silently Memory.faithful.ordered ⟨∅⟩ changedKey
  -- one evaluation for all three, since they share the runs
  obtain ⟨hi, hrestored, hadopted⟩ :
      ((Identities.get ∅ ⟨4⟩).run s).result = .ok (some ⟨[2], .untrusted, 2⟩) ∧
        ((Identities.get ∅ ⟨4⟩).run (Episode.after later s)).result =
          .ok (some ⟨[1], .untrusted, 3⟩) ∧
        ((Identities.get ∅ ⟨6⟩).run
          ((Episode.merge ⟨6⟩ ⟨5⟩ : Episode .identities).perform.run s).state).result =
            .ok (some i) := by decide +kernel
  have hlater : ∀ t ∈ later, ¬t.Lifts (Redirects.follow ∅ ⟨4⟩) [1] := by
    simp [later, Episode.Lifts]
  refine ⟨hi, by simpa using hlater, hrestored, ?_, hadopted, ?_⟩
  · exact hstays ∅ ⟨4⟩ _ [1] hi (by decide) later hlater ∅ ⟨4⟩ rfl
  · simpa using hwarrant (.merge ⟨6⟩ ⟨5⟩) ∅ ⟨6⟩ i hadopted rfl

end PeerBook
