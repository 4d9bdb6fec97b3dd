import PeerBook.Proofs.Account.Reopening
import PeerBook.Proofs.Account.Retries

/-!
# PeerBook.Proofs.Account.Refreshing

Reading an account anew while it is in use. At every moment of a run the account
is read from its storage with the directory it has. So a storage that does not
mind being read (`Storage.Discreet`) goes on as if it had not been: wherever in a
run the account is read anew, what follows is answered alike
(`refreshing_is_invisible`).

- A storage may have more state than its content, such as the failures that are
  to come; that it does not mind being read means that this state goes on alike.
- Two accounts that differ in such states only are alike, and every call goes
  alike on them (`Call.perform_respects`).
- Reading leads from an account to one that is alike (`Account.refresh_returns`),
  so readings anywhere in a run can be left out one by one
  (`Account.refreshed_alike`).
-/

namespace PeerBook

variable {σ α β : Type} {R : σ → σ → Prop}

/-! ## Storages that do not mind being read -/

section

variable [Storage σ]

/-- A relation between states that go on alike. Reading leads from a state to one that is related,
and the same batches are refused in both. -/
structure Storage.Discreet (R : σ → σ → Prop) : Prop where
  refl (s : σ) : R s s
  trans {s t u : σ} : R s t → R t u → R s u
  get (key : String) : (Storage.get key : Op σ _).Moves R
  list (keyPrefix : String) : (Storage.list keyPrefix : Op σ _).Moves R
  writeBatch (ws : List Write) : (Storage.writeBatch ws : Op σ Unit).Respects R

/-- Reads that leave the state as it was go unnoticed. -/
theorem Storage.discreet_eq (hget : ∀ key (s : σ), ((Storage.get key).run s).state = s)
    (hlist : ∀ keyPrefix (s : σ), ((Storage.list keyPrefix).run s).state = s) :
    Storage.Discreet (@Eq σ) where
  refl _ := rfl
  trans := Eq.trans
  get key s := (hget key s).symm
  list keyPrefix s := (hlist keyPrefix s).symm
  writeBatch _ := .eq _

/-- A storage that fails now and then by a list of answers leaves the list alone when it is read. -/
theorem Intermittent.discreet : Storage.Discreet (@Eq Intermittent) :=
  Storage.discreet_eq (fun _ _ => rfl) fun _ _ => rfl

namespace Storage.Discreet

variable (h : Storage.Discreet R)

include h

theorem pure (a : α) : (Pure.pure a : Op σ α).Moves R := h.refl

theorem note (level : Level) (text : String) : (Op.note level text : Op σ _).Moves R := h.refl

theorem ofExcept (r : Except Error α) : (Op.ofExcept r : Op σ α).Moves R := by
  intro s
  rw [Op.run_ofExcept]
  exact h.refl s

theorem collect {f : α → Op σ (Option β)} (hf : ∀ a, (f a).Moves R) (as : List α) :
    (Storage.collect f as).Moves R := by
  induction as with
  | nil => exact h.pure []
  | cons a as ih => exact .bind h.trans (hf a) fun _ => .bind h.trans ih fun _ => h.pure _

/-- Going through a list goes unnoticed if each of its members does. -/
theorem forEach {f : α → Op σ Unit} (hf : ∀ a, (f a).Moves R) (as : List α) :
    (Storage.forEach f as).Moves R := by
  induction as with
  | nil => exact h.pure ()
  | cons a as ih => exact .bind h.trans (hf a) fun _ => ih

/-- Reading the values under a prefix goes unnoticed. -/
theorem loadRows (keyPrefix what : String) (decoder : Json.Decoder α) :
    (Directory.loadRows keyPrefix what decoder : Op σ _).Moves R := by
  refine .bind h.trans (h.list keyPrefix) fun keys => h.collect (fun key => ?_) keys
  refine .bind h.trans (h.get key) fun v => ?_
  cases v with
  | none => exact h.pure none
  | some raw =>
      dsimp only
      split
      · exact h.pure _
      · exact .bind h.trans (h.note _ _) fun _ => h.pure none

/-- Reading a directory goes unnoticed: it lists and reads keys, and logs what it cannot read. -/
theorem load : (Directory.load : Op σ _).Moves R := by
  refine .bind h.trans (h.loadRows _ _ _) fun peers => ?_
  refine .bind h.trans (h.loadRows _ _ _) fun merges => ?_
  refine .bind h.trans (.bind h.trans (h.get _) fun v => ?_) fun stored => ?_
  · cases v with
    | none => exact h.pure _
    | some raw => exact h.ofExcept _
  refine .bind h.trans (.bind h.trans (h.get _) fun v => ?_) fun self => ?_
  · cases v with
    | none => exact h.pure _
    | some raw => exact h.ofExcept _
  exact .bind h.trans (h.forEach (fun _ => h.note _ _) _) fun _ => h.pure _

end Storage.Discreet

/-! ## Calls that go alike -/

namespace Account

variable (hw : ∀ ws, (Storage.writeBatch ws : Op σ Unit).Respects R)

include hw

/-- A trusted resolution goes alike on accounts that are alike, where batches do on their
storages. -/
theorem resolveWith_respects (markSelf : Bool) (request : Address) :
    (resolveWith markSelf request : Op (Account σ) _).Respects (Alike R) := by
  rintro ⟨s, d, mergers, events⟩ ⟨t, _, _, _⟩ ⟨hst, rfl, rfl, rfl, hm⟩
  have hsub := Directory.submit_respects hw d markSelf request s t hst
  exact resolveWith_alike hm hsub

/-- A batch goes alike on accounts that are alike. -/
theorem resolveBatch_respects (requests : List Address) :
    (resolveBatch requests : Op (Account σ) _).Respects (Alike R) := by
  induction requests with
  | nil => exact .pure []
  | cons a as ih =>
      exact .bind (resolveWith_respects hw false a) fun _ => .bind ih fun _ => .pure _

/-- A look-up goes alike on accounts that are alike, since it finds the same and writes the same
batch. -/
theorem lookup_respects (request : Address) :
    (lookup request : Op (Account σ) _).Respects (Alike R) := by
  refine .state_bind ?_
  rintro ⟨s, d, mergers, events⟩ ⟨t, _, _, _⟩ ⟨hst, rfl, rfl, rfl, hm⟩
  have hab : Alike R ⟨s, d, mergers, events⟩ ⟨t, d, mergers, events⟩ := ⟨hst, rfl, rfl, rfl, hm⟩
  dsimp only
  cases d.bestMatch? request with
  | some p => exact Op.Respects.pure p.id _ _ hab
  | none =>
      dsimp only
      have hpublish (d' : Directory) : (Op.update fun account : Account σ =>
          { account with directory := d' }).Respects (Alike R) := fun _ _ h =>
        ⟨rfl, h.storage, rfl, h.mergers, h.events, h.respects⟩
      refine Op.Respects.bind (.note _ _) (fun _ => .bind (.within _ _) fun (id, tx) => ?_) _ _ hab
      exact .bind (onStorage_respects (tx.commit_respects hw)) fun d' =>
        .bind (hpublish d') fun _ => .bind (send_respects _) fun _ => .pure id

end Account

/-- A call goes alike on accounts that are alike, and leaves them alike; a merger that is registered
has to go alike on the two storages as well. -/
theorem Call.perform_respects (hw : ∀ ws, (Storage.writeBatch ws : Op σ Unit).Respects R)
    (c : Call σ) (hm : ∀ m ∈ (Move.call c).mergers, m.Respects R) :
    (c.perform : Op (Account σ) _).Respects (Account.Alike R) := by
  cases c with
  | resolve markSelf request =>
      exact .bind (Account.resolveWith_respects hw markSelf request) fun _ => .pure _
  | resolveBatch requests =>
      exact .bind (Account.resolveBatch_respects hw requests) fun _ => .pure _
  | lookup request => exact .bind (Account.lookup_respects hw request) fun _ => .pure _
  | register m =>
      refine .bind (fun a b h => ?_) fun _ => .pure []
      refine ⟨rfl, h.storage, h.directory, congrArg (· ++ [m]) h.mergers, h.events, ?_⟩
      intro m' hm'
      rcases List.mem_append.mp hm' with hm' | hm'
      · exact h.respects m' hm'
      · exact hm m' hm'

/-! ## Moments of a run -/

variable {contents : σ → Contents}

namespace Account

/-- The directory is stored at every moment of a run, also between the members of a batch. -/
theorem start_kept (hs : Storage.Atomic contents) {start calls : List (Call σ)}
    (h : Call.Start start calls)
    (hm : ∀ c ∈ calls, ∀ m ∈ (Move.call c).mergers, m.Spares contents) {account : Account σ}
    (hk : account.Kept contents) (hc : account.Coherent)
    (hn : (account.after calls).allotted + 1 < UInt64.size) :
    (account.after start).Kept contents := by
  induction h generalizing account with
  | nil calls => exact hk
  | cut c n calls =>
      have hle := (start_addsEvents (.cut c n calls) account).allotted_le
      refine (c.upTo n).perform_kept hs ?_ hk hc (Nat.lt_of_le_of_lt (Nat.succ_le_succ hle) hn)
      cases c with
      | resolveBatch requests => exact nofun
      | resolve | lookup | register => exact hm _ List.mem_cons_self
  | @cons c start calls _ ih =>
      have hn' := allotted_perform_lt hn
      exact ih (fun c' hc' => hm c' (List.mem_cons_of_mem c hc'))
        (c.perform_kept hs (hm c List.mem_cons_self) hk hc hn')
        (after_coherent [c] hc hn') hn

/-! ## Reading in between -/

/-- Two accounts with one directory, which told the same so far and answer the same whatever they
are asked next. -/
structure AnswersAs (a b : Account σ) : Prop where
  directory : a.directory = b.directory
  events : a.events = b.events
  resolveWith (markSelf : Bool) (request : Address) :
    ((resolveWith markSelf request).run a).result = ((resolveWith markSelf request).run b).result
  resolveBatch (requests : List Address) :
    ((resolveBatch requests).run a).result = ((resolveBatch requests).run b).result
  lookup (request : Address) : ((lookup request).run a).result = ((lookup request).run b).result

/-- Accounts that are alike answer as each other, whatever they are asked next. -/
theorem Alike.answersAs (hw : ∀ ws, (Storage.writeBatch ws : Op σ Unit).Respects R)
    {a b : Account σ} (h : a.Alike R b) : b.AnswersAs a where
  directory := h.directory.symm
  events := h.events.symm
  resolveWith markSelf request := (resolveWith_respects hw markSelf request a b h).result.symm
  resolveBatch requests := (resolveBatch_respects hw requests a b h).result.symm
  lookup request := (lookup_respects hw request a b h).result.symm

/-- Reads the account anew, with the mergers that it has. -/
def refresh : Op (Account σ) Unit := do
  reopen (← Op.state).mergers

/-- The account after steps in order, each a call, those that fail included, or else the account is
read anew. -/
def refreshed (account : Account σ) (steps : List (Option (Call σ))) : Account σ :=
  steps.foldl (fun account step => match step with
    | some c => (c.perform.run account).state
    | none => (refresh.run account).state) account

/-- Reading an account anew leaves it but for its storage, and that goes unnoticed. -/
theorem refresh_returns (hs : Storage.Atomic contents) (hR : Storage.Discreet R)
    {account : Account σ} (h : account.Kept contents) (hc : account.Coherent) :
    ∃ s, refresh.Returns account () { account with storage := s } ∧
      contents s = contents account.storage ∧ R account.storage s := by
  obtain ⟨s, hl, hsame⟩ := load_returns hs h.stored hc account.mergers
  have hmoves : (load account.mergers : Op σ _).Moves R :=
    .bind hR.trans hR.load fun _ => .bind hR.trans hR.refl fun _ => hR.pure _
  refine ⟨s, (Op.returns_state _).bind (reopen_of_load_returns hl), hsame, ?_⟩
  have hread := hmoves account.storage
  rw [hl.2] at hread
  exact hread

/-- **Steps with readings in between go as the calls among them**, on accounts that are alike. Each
reading is replaced by nothing, by induction on the steps. -/
theorem refreshed_alike (hs : Storage.Atomic contents) (hR : Storage.Discreet R)
    {steps : List (Option (Call σ))}
    (hm : ∀ c ∈ steps.filterMap id, ∀ m ∈ (Move.call c).mergers, m.Spares contents ∧ m.Respects R)
    {live account : Account σ} (hl : live.Alike R account) (hk : account.Kept contents)
    (hc : account.Coherent)
    (hn : (live.after (steps.filterMap id)).allotted + 1 < UInt64.size) :
    (live.after (steps.filterMap id)).Alike R (account.refreshed steps) := by
  induction steps generalizing live account with
  | nil => exact hl
  | cons step steps ih =>
      cases step with
      | none =>
          obtain ⟨s, hr, hsame, hread⟩ := refresh_returns hs hR hk hc
          have hnext : account.refreshed (none :: steps) =
              refreshed { account with storage := s } steps := by
            rw [← hr.2]
            rfl
          rw [hnext]
          refine ih hm ⟨hR.trans hl.storage hread, hl.directory, hl.mergers, hl.events, hl.respects⟩
            ⟨?_, hk.spares⟩ hc hn
          show account.directory.StoredIn (contents s)
          rw [hsame]
          exact hk.stored
      | some c =>
          have hcm := hm c List.mem_cons_self
          obtain ⟨-, hstate⟩ := c.perform_respects hR.writeBatch (fun m h => (hcm m h).2) _ _ hl
          have hn' : (c.perform.run account).state.allotted + 1 < UInt64.size := by
            rw [allotted, ← hstate.events]
            exact allotted_perform_lt hn
          exact ih (fun c' hc' => hm c' (List.mem_cons_of_mem c hc')) hstate
            (c.perform_kept hs (fun m h => (hcm m h).1) hk hc hn') (after_coherent [c] hc hn') hn

end Account

/-- **Reading an account anew goes unnoticed.** From an empty storage that may refuse any batch as a
whole, as long as handles are left: at every moment of a run the account is read from its storage
with the directory it has, whatever its mergers. And on a storage that does not mind being read,
wherever in the run the account was read anew, it is as it would be without, and whatever it is
asked next is answered as it would be without. -/
theorem refreshing_is_invisible (ha : Storage.Atomic contents) {s : σ} (hs : contents s = ∅)
    {mergers : List (Merger σ)} (hmergers : ∀ m ∈ mergers, m.Spares contents)
    {calls : List (Call σ)} (hcalls : ∀ c ∈ calls, ∀ m ∈ (Move.call c).mergers, m.Spares contents) :
    ∃ account s', (Account.load mergers).Returns s account s' ∧
      ((account.after calls).allotted < UInt64.size - 1 →
        (∀ start, Call.Start start calls → ∀ ms, ∃ opened s'',
          (Account.load ms).Returns (account.after start).storage opened s'' ∧
            opened.directory = (account.after start).directory) ∧
        ∀ R, Storage.Discreet R → (∀ m ∈ mergers, m.Respects R) →
          (∀ c ∈ calls, ∀ m ∈ (Move.call c).mergers, m.Respects R) →
          ∀ steps, steps.filterMap id <+: calls →
            (account.refreshed steps).AnswersAs (account.after (steps.filterMap id))) := by
  obtain ⟨s', hload, hkept⟩ := Account.load_fresh ha hs hmergers
  have hfresh := Account.coherent_fresh s' mergers
  refine ⟨.fresh s' mergers, s', hload, fun hbound => ⟨fun start hstart ms => ?_, ?_⟩⟩
  · have hn : ((Account.fresh s' mergers).after calls).allotted + 1 < UInt64.size := by omega
    have hle := (Account.start_addsEvents hstart (.fresh s' mergers)).allotted_le
    have hk := Account.start_kept ha hstart hcalls hkept hfresh hn
    have hc := Account.after_coherent start hfresh (by omega)
    obtain ⟨t, hl, -⟩ := Account.load_returns ha hk.stored hc ms
    exact ⟨_, t, hl, rfl⟩
  · intro R hR hmr hcr steps hsteps
    have hn : ((Account.fresh s' mergers).after (steps.filterMap id)).allotted + 1 <
        UInt64.size := by
      obtain ⟨rest, hrest⟩ := hsteps
      have hle := (Account.after_addsEvents
        ((Account.fresh s' mergers).after (steps.filterMap id)) rest).allotted_le
      rw [← Account.after_append, hrest] at hle
      omega
    have hm : ∀ c ∈ steps.filterMap id, ∀ m ∈ (Move.call c).mergers,
        m.Spares contents ∧ m.Respects R := fun c hc m h =>
      ⟨hcalls c (hsteps.subset hc) m h, hcr c (hsteps.subset hc) m h⟩
    have hstart : (Account.fresh s' mergers).Alike R (.fresh s' mergers) :=
      ⟨hR.refl s', rfl, rfl, rfl, hmr⟩
    have halike := Account.refreshed_alike ha hR hm hstart hkept hfresh hn
    exact halike.answersAs hR.writeBatch

end

/-! ## An account that is read between any two calls -/

/-- An account, a look-up that the storage refuses and that is asked again, and a proof that the two
belong together. -/
def refusedCalls : List (Call Intermittent) :=
  [.resolve false (.ofAci (.sample 0)), .lookup (.ofPni (.sample 0)),
    .lookup (.ofPni (.sample 0)), .resolve false .sampleProof]

/-- The calls, and the account read anew before each. -/
def refreshedCalls : List (Option (Call Intermittent)) := refusedCalls.flatMap ([none, some ·])

/-- A look-up is refused between two readings, and asked again: the handles that are given out and
absorbed are as if nothing had been read. -/
theorem refreshing_refusedCalls_is_invisible :
    ∃ account s, (Account.load (allMergers {})).Returns Intermittent.sample account s ∧
      (∃ opened t, (Account.load []).Returns (account.after refusedCalls).storage opened t ∧
        opened.directory = (account.after refusedCalls).directory) ∧
      (account.after refusedCalls).directory.follow ⟨2⟩ = ⟨1⟩ ∧
      (account.refreshed refreshedCalls).AnswersAs (account.after refusedCalls) := by
  have hempty : Intermittent.sample.contents = ∅ := rfl
  have hvacant : Storage.Vacant Intermittent.sample := ⟨fun _ => ⟨rfl, rfl⟩, fun _ => ⟨rfl, rfl⟩⟩
  have hcache : Directory.disjoint ({} : MessageCache).keyPrefix = true := by decide
  have hspares := allMergers_spare Intermittent.atomic hcache
  have hnone : ∀ c ∈ refusedCalls, ∀ m ∈ (Move.call c).mergers, False := by
    simp only [refusedCalls, List.forall_mem_cons]
    exact ⟨nofun, nofun, nofun, nofun, nofun⟩
  have hrun (account : Account Intermittent) (ha : account = .fresh .sample (allMergers {})) :
      (account.after refusedCalls).allotted = 2 ∧
        (account.after refusedCalls).directory.follow ⟨2⟩ = ⟨1⟩ := by
    subst ha
    decide +kernel
  have hcalls : refreshedCalls.filterMap id = refusedCalls := rfl
  have hfresh := Account.load_vacant hvacant (allMergers {})
  generalize hf : Account.fresh Intermittent.sample (allMergers {}) = account at hfresh
  obtain ⟨hn, hfollow⟩ := hrun account hf.symm
  obtain ⟨account', s, hload, h⟩ := refreshing_is_invisible Intermittent.atomic hempty hspares
    fun c hc m hm => absurd (hnone c hc m hm) id
  obtain ⟨rfl, rfl⟩ := hload.unique hfresh
  obtain ⟨hopened, hrefreshed⟩ := h (by rw [hn]; decide)
  have halike := hrefreshed Eq Intermittent.discreet (fun _ _ _ _ => .eq _)
    (fun _ _ _ _ _ _ => .eq _) refreshedCalls (hcalls ▸ List.prefix_rfl)
  rw [hcalls] at halike
  exact ⟨account', _, hload, hopened _ (.all refusedCalls) [], hfollow, halike⟩

end PeerBook
