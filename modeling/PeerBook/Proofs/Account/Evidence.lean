import Mathlib.Logic.Relation
import PeerBook.Proofs.Account.Runs
import PeerBook.Proofs.Directory.Kinship

/-!
# PeerBook.Proofs.Account.Evidence

What an account brings together it was told to. Two identifiers are linked when
one trusted request that was carried out named both of them; whatever is on one
row is connected by links, and so is whatever was ever on the row of a handle
with what was ever on the row of a handle that it is redirected to, however the
rows were split and merged on the way.

Links come from the replies of the run, so a request that failed or was never
made gives none. Being connected is the equivalence closure of being linked
(`Kinship.ofReplies`), and the rest is a case of the invariants of
`PeerBook.Proofs.Directory.Kinship`. Nothing is asked of the storage, as no
identifier comes from there.
-/

namespace PeerBook

/-- Two identifiers were named by one trusted request. -/
def Linked (replies : List Reply) (x y : Identifier) : Prop :=
  ∃ r ∈ replies, r.trusted = true ∧ x ∈ r.request.identifiers ∧ y ∈ r.request.identifiers

instance (replies : List Reply) : Std.Symm (Linked replies) where
  symm := fun _ _ ⟨r, hr, ht, hx, hy⟩ => ⟨r, hr, ht, hy, hx⟩

/-- Links lead from one identifier to the other. -/
def Connected (replies : List Reply) : Identifier → Identifier → Prop :=
  Relation.ReflTransGen (Linked replies)

/-- Identifiers that are connected belong together. -/
def Kinship.ofReplies (replies : List Reply) : Kinship where
  Kin := Connected replies
  symm h := Relation.ReflTransGen.stdSymm.symm _ _ h
  trans h h' := Relation.ReflTransGen.trans h h'

/-- The identifiers of a trusted request that was carried out belong together. -/
theorem Kinship.unites_request {replies : List Reply} {r : Reply} (hr : r ∈ replies)
    (ht : r.trusted = true) : (ofReplies replies).Unites r.request :=
  fun _ hx _ hy => .single ⟨r, hr, ht, hx, hy⟩

namespace Directory

variable {K : Kinship} {d : Directory} {n : Nat} {i j : PeerId} {x y : Identifier}

/-- A handle with a row tracks what is on it. -/
theorem Respects.tracks_of_carries (h : d.Respects K) (hc : d.Coherent n)
    (hx : Carries d.rows.get? i x) : d.Tracks K i x := by
  obtain ⟨a, ha, hxa⟩ := hx
  exact ⟨i, a, hc.standsFor_self ha, h i a ha x hxa⟩

/-- What is tracked by a handle and by another that it is redirected to belongs together, as both
lead to one row. -/
theorem Tracks.kin (hx : d.Tracks K i x) (hy : d.Tracks K j y) {passed : List PeerId}
    (hij : d.redirects.Chain i passed j) : K.Kin x y := by
  obtain ⟨k, a, hk, ha⟩ := hx
  obtain ⟨l, b, ⟨⟨⟨rest, hl⟩, hend⟩, hb⟩, hyb⟩ := hy
  obtain ⟨rfl, rfl⟩ := hk.unique ⟨⟨⟨_, hij.append hl⟩, hend⟩, hb⟩
  obtain ⟨z, hz⟩ := List.exists_mem_of_ne_nil _ a.identifiers_ne_nil
  exact K.trans (ha z hz) (K.symm (hyb z hz))

end Directory

variable {σ : Type} [Storage σ]

/-- What was on a row at some moment of a run of trusted calls its handle tracks at the end. From
that moment on the directory develops by further requests, which keep it so. -/
theorem Account.tracks_of_carries {account : Account σ} (hc : account.Coherent)
    {calls : List (Call σ)} (hn : (account.after calls).allotted + 1 < UInt64.size)
    {earlier : List (Call σ)} (hstart : Call.Start earlier calls)
    (htrusted : ∀ r ∈ account.replies calls, r.trusted = true)
    (h : account.directory.Respects (.ofReplies (account.replies calls))) {i : PeerId}
    {x : Identifier} (hx : Carries (account.after earlier).directory.rows.get? i x) :
    (account.after calls).directory.Tracks (.ofReplies (account.replies calls)) i x := by
  have hle := (start_addsEvents hstart account).allotted_le
  obtain ⟨fs, hdev, hbefore⟩ := after_develops_replies earlier hc (by omega)
  obtain ⟨gs, hrest, hafter⟩ := start_develops_replies hstart hc hn
  have hearlier := hdev.coherent hc (by omega)
  have hunites {f : Finding} (hf : f ∈ fs ++ gs) :
      (Kinship.ofReplies (account.replies calls)).Unites f.request := by
    have hr : f.reply ∈ account.replies calls := by
      rw [hafter, hbefore, ← List.map_append]
      exact List.mem_map_of_mem hf
    exact Kinship.unites_request hr (htrusted _ hr)
  have hal := hdev.allotted
  have hal' := hrest.allotted
  have hrespects := hdev.directory.respects hc (by omega)
    (fun f hf => hunites (List.mem_append_left gs hf)) h
  exact hrest.directory.keeps_tracks hearlier (by omega)
    (fun f hf => hunites (List.mem_append_right fs hf)) hrespects
    (hrespects.tracks_of_carries hearlier hx)

/-- **No association without evidence.** From an empty storage, whatever it does, as long as only
trusted requests are made and handles are left: any two identifiers on one row are connected, and
so is whatever was on the row of a handle, at any moment, with whatever was on the row of a handle
that redirects lead to from there. -/
theorem run_associates_on_evidence {s : σ} (hs : Storage.Vacant s) (mergers : List (Merger σ))
    {calls : List (Call σ)} (htrusted : ∀ c ∈ calls, ∀ q ∈ c.asks, q.2 = true) :
    ∃ account, (Account.load mergers).Returns s account s ∧
      ((account.after calls).allotted < UInt64.size - 1 →
        (∀ i x y, Carries (account.after calls).directory.rows.get? i x →
          Carries (account.after calls).directory.rows.get? i y →
          Connected (account.replies calls) x y) ∧
        ∀ i passed j, (account.after calls).directory.redirects.Chain i passed j →
          ∀ earlier other, Call.Start earlier calls → Call.Start other calls →
            ∀ x y, Carries (account.after earlier).directory.rows.get? i x →
              Carries (account.after other).directory.rows.get? j y →
              Connected (account.replies calls) x y) := by
  refine ⟨.fresh s mergers, Account.load_vacant hs mergers, fun hbound => ?_⟩
  have hn : ((Account.fresh s mergers).after calls).allotted + 1 < UInt64.size := by omega
  have hall : ∀ r ∈ (Account.fresh s mergers).replies calls, r.trusted = true := by
    intro r hr
    obtain ⟨c, hc, hq⟩ := Account.asked_mem_asks hr
    exact htrusted c hc _ hq
  have htracks {earlier : List (Call σ)} (hstart : Call.Start earlier calls) {i : PeerId}
      {x : Identifier} (hx : Carries ((Account.fresh s mergers).after earlier).directory.rows.get?
        i x) := Account.tracks_of_carries (Account.coherent_fresh s mergers) hn hstart hall
          (Directory.respects_empty _) hx
  refine ⟨fun i x y hx hy => ?_, fun i passed j hij earlier other he ho x y hx hy => ?_⟩
  · exact (htracks (.all calls) hx).kin (htracks (.all calls) hy) (.refl i)
  · exact (htracks he hx).kin (htracks ho hy) hij

/-- A phone-number identity met on its own, and trusted with an account later on. -/
def associatingCalls : List (Call Memory) :=
  [.resolve false (.ofAci (.sample 0)), .resolve true (.ofPni (.sample 0)),
    .resolveBatch [(Address.ofAci (.sample 0)).withPni (.sample 0), .ofPni (.sample 1)]]

/-- What was on the second row, which is redirected to the first, is linked with what is there: one
request has named both. -/
theorem associatingCalls_associate_on_evidence :
    ∃ account, (Account.load []).Returns (⟨∅⟩ : Memory) account ⟨∅⟩ ∧
      (account.after associatingCalls).directory.redirects.get? ⟨2⟩ = some ⟨1⟩ ∧
      Connected (account.replies associatingCalls) (.pni (.sample 0)) (.aci (.sample 0)) := by
  have htrusted : ∀ c ∈ associatingCalls, ∀ q ∈ c.asks, q.2 = true := by decide
  obtain ⟨account, hload, h⟩ := run_associates_on_evidence Memory.vacant [] htrusted
  obtain ⟨rfl, -⟩ := hload.unique (Account.load_vacant Memory.vacant [])
  have hn : ((Account.fresh (⟨∅⟩ : Memory) []).after associatingCalls).allotted = 3 := rfl
  have hredirect : ((Account.fresh (⟨∅⟩ : Memory) []).after
      associatingCalls).directory.redirects.get? ⟨2⟩ = some ⟨1⟩ := rfl
  obtain ⟨-, hpath⟩ := h (by rw [hn]; decide)
  refine ⟨_, hload, hredirect, hpath ⟨2⟩ [⟨2⟩] ⟨1⟩ (.step hredirect (.refl ⟨1⟩))
    (associatingCalls.take 2) associatingCalls (.cons _ (.cons _ (.nil _))) (.all _) _ _ ?_ ?_⟩
  · exact ⟨.ofPni (.sample 0), rfl, by decide⟩
  · exact ⟨(Address.ofAci (.sample 0)).withPni (.sample 0), rfl, by decide⟩

end PeerBook
