import Mathlib.Data.List.TakeWhile
import PeerBook.Proofs.Storage.Contents
import PeerBook.Storage.Files

/-!
# PeerBook.Proofs.Storage.Files

A directory stands for a content (`Folder.Shows`): it has a file for each key
with a value, and nothing else. What is asked of the directory then is answered
from the content, and leaves a directory that stands for the content after the
same (`Files.perform_shows`); no temporary file is left or listed, since none
has the name of the file of a key (`Files.keyOf?_append_tmp`).

One key is the exception. The temporary name for `.` is that of the parent
directory (`Files.temporaryName_dot`), so its value is refused where a storage in
memory takes it; with this key apart the two answer the same
(`Files.answers_as_memory_iff`).

What can be asked of a storage is a type (`Storage.Request`), so that sequences
of requests can be spoken of, and the answers are compared up to the order of
listings (`Storage.Reply.Same`), which the file system does not fix. The names
of files are taken apart in sections of their own.
-/

namespace PeerBook

/-! ## Requests to a storage -/

namespace Storage

/-- What a storage can be asked. -/
inductive Request where
  | get (key : String)
  | put (key value : String)
  | del (key : String)
  | list (keyPrefix : String)
  | writeBatch (ws : List Write)

/-- What a storage answers. -/
inductive Reply where
  | value (v : Option String)
  | done
  | keys (ks : List String)

namespace Request

/-- Asks a storage. -/
def perform {σ : Type} [Storage σ] : Request → Op σ Reply
  | get key => do return .value (← Storage.get key)
  | put key value => do
    Storage.put key value
    return .done
  | del key => do
    Storage.del key
    return .done
  | list keyPrefix => do return .keys (← Storage.list keyPrefix)
  | writeBatch ws => do
    Storage.writeBatch ws
    return .done

/-- The writes that a request asks for. -/
def writes : Request → List Write
  | get _ | list _ => []
  | put key value => [.put key value]
  | del key => [.del key]
  | writeBatch ws => ws

end Request

/-- Whether two answers are the same, whatever the order of keys; no key is listed twice. -/
def Reply.Same : Reply → Reply → Prop
  | value v, value w => v = w
  | done, done => True
  | keys ks, keys ls => ks.Nodup ∧ ls.Nodup ∧ ∀ k, k ∈ ks ↔ k ∈ ls
  | _, _ => False

/-- Whether two requests ended the same: both with the same answer, or both with the same error. -/
def SameResult : Except Error Reply → Except Error Reply → Prop
  | .ok a, .ok b => a.Same b
  | .error e, .error f => e = f
  | _, _ => False

variable {σ τ : Type} [Storage σ] [Storage τ]

/-- A storage after requests in order, some of which may have failed. -/
def after (s : σ) (requests : List Request) : σ :=
  requests.foldl (fun s r => (r.perform.run s).state) s

/-- Whether two storages answer requests in order the same. -/
def AnswerAlike (s : σ) (t : τ) : List Request → Prop
  | [] => True
  | r :: requests =>
    SameResult (r.perform.run s).result (r.perform.run t).result ∧
      AnswerAlike (r.perform.run s).state (r.perform.run t).state requests

end Storage

open Storage

/-- Whether a value is put under the key `.`. -/
def Write.putsDot : Write → Bool
  | .put key _ => key == "."
  | .del _ => false

/-- The writes of a request that come before a value is put under the key `.`. -/
def Storage.Request.admitted (r : Request) : List Write := r.writes.takeWhile (!·.putsDot)

/-- Whether a request puts a value under the key `.`. -/
def Storage.Request.putsDot (r : Request) : Bool := r.writes.any Write.putsDot

/-- A request that puts no value under the key `.` is admitted as a whole. -/
theorem Storage.Request.admitted_of_not_putsDot {r : Request} (h : ¬r.putsDot = true) :
    r.admitted = r.writes := by
  rw [admitted, List.takeWhile_eq_self_iff]
  intro w hw
  rw [Bool.not_eq_true', Bool.eq_false_iff]
  exact fun hdot => h (List.any_eq_true.mpr ⟨w, hw, hdot⟩)

/-- A storage in memory makes all writes of a request, and answers. -/
theorem Memory.perform_returns (r : Request) (c : Contents) :
    ∃ a, r.perform.Returns (⟨c⟩ : Memory) a ⟨c.applyAll r.writes⟩ := by
  cases r with
  | get key => exact ⟨_, rfl, rfl⟩
  | put key value => exact ⟨_, rfl, rfl⟩
  | del key => exact ⟨_, rfl, rfl⟩
  | list keyPrefix => exact ⟨_, rfl, rfl⟩
  | writeBatch ws => exact ⟨_, rfl, rfl⟩

/-- A storage in memory makes all writes. -/
theorem Memory.after_eq (c : Contents) (requests : List Request) :
    after (⟨c⟩ : Memory) requests = ⟨c.applyAll (requests.flatMap Request.writes)⟩ := by
  induction requests generalizing c with
  | nil => rfl
  | cons r requests ih =>
      obtain ⟨a, -, hm⟩ := perform_returns r c
      rw [after, List.foldl_cons, hm, List.flatMap_cons, Contents.applyAll_append]
      exact ih (c.applyAll r.writes)

/-! ## Directories that stand for a content -/

namespace Folder

open Files

/-- Whether a directory has the file of each key with a value, and nothing else. -/
def Shows (e : Folder) (c : Contents) : Prop :=
  ∀ name entry, Table.get? e name = some entry ↔
    ∃ key value, c.get? key = some value ∧ fileName key = name ∧ Entry.text value = entry

theorem shows_empty : Shows ∅ ∅ := by
  intro name entry
  simp

variable {e : Folder} {c : Contents} {key value : String}

/-- The file of a key has its value. -/
theorem Shows.get?_fileName (h : Shows e c) (key : String) :
    Table.get? e (fileName key) = (c.get? key).map .text := by
  apply Option.ext
  intro entry
  rw [h, Option.map_eq_some_iff]
  constructor
  · rintro ⟨key', value, hv, hname, rfl⟩
    rw [fileName_inj hname] at hv
    exact ⟨value, hv, rfl⟩
  · rintro ⟨value, hv, rfl⟩
    exact ⟨key, value, hv, rfl, rfl⟩

/-- A name that is not that of the file of a key is not in use. -/
theorem Shows.get?_of_keyOf? (h : Shows e c) {name : String} (hn : keyOf? name = none) :
    Table.get? e name = none := by
  rw [Option.eq_none_iff_forall_ne_some]
  intro entry he
  obtain ⟨key, value, -, rfl, -⟩ := (h name entry).mp he
  rw [keyOf?_fileName] at hn
  contradiction

/-- Under another name than that of the file of a key there is what was there, whatever becomes of
the key. -/
theorem Shows.of_ne (h : Shows e c) {c' : Contents} {name : String} {entry : Entry}
    (hname : fileName key ≠ name) (hc : ∀ key' ≠ key, c'.get? key' = c.get? key') :
    Table.get? e name = some entry ↔
      ∃ key' value, c'.get? key' = some value ∧ fileName key' = name ∧
        Entry.text value = entry := by
  rw [h]
  refine exists₂_congr fun key' value => and_congr_left fun hn => ?_
  have hne : key' ≠ key := by
    rintro rfl
    exact hname hn.1
  rw [hc key' hne]

/-- With a value written to the file of a key, the directory stands for the content with that
value. -/
theorem Shows.insert (h : Shows e c) (key value : String) :
    Shows (Table.insert e (fileName key) (.text value)) (c.insert key value) := by
  intro name entry
  rw [Table.get?_insert]
  split
  · rename_i hname
    subst hname
    constructor
    · rintro ⟨⟩
      exact ⟨key, value, Table.get?_insert_self c key value, rfl, rfl⟩
    · rintro ⟨key', value', hv, hname, rfl⟩
      rw [fileName_inj hname, Table.get?_insert_self] at hv
      cases hv
      rfl
  · rename_i hname
    exact h.of_ne (Ne.symm hname) fun key' hne => Table.get?_insert_of_ne c value hne

/-- With the file of a key removed, the directory stands for the content without it. Different keys
have different files, so no other key loses its value. -/
theorem Shows.erase (h : Shows e c) (key : String) :
    Shows (Table.erase e (fileName key)) (c.erase key) := by
  intro name entry
  rw [Table.get?_erase]
  split
  · rename_i hname
    subst hname
    refine iff_of_false nofun ?_
    rintro ⟨key', value', hv, hname, -⟩
    rw [fileName_inj hname, Table.get?_erase_self] at hv
    contradiction
  · rename_i hname
    exact h.of_ne (Ne.symm hname) fun key' hne => Table.get?_erase_of_ne c hne

/-- The keys of the files are those with a value, each once. A name is that of the file of at most
one key, so no key is listed for two files. -/
theorem Shows.keys (h : Shows e c) :
    (e.keys.filterMap keyOf?).Nodup ∧
      ∀ key, key ∈ e.keys.filterMap keyOf? ↔ ∃ value, c.get? key = some value := by
  have hkey : ∀ name ∈ e.keys, ∃ key value, c.get? key = some value ∧ fileName key = name := by
    intro name hname
    obtain ⟨entry, he⟩ := Table.mem_keys_iff.mp hname
    obtain ⟨key, value, hv, hn, -⟩ := (h name entry).mp he
    exact ⟨key, value, hv, hn⟩
  refine ⟨List.pairwise_filterMap.mpr (e.nodup_keys.imp_of_mem ?_), fun key => ?_⟩
  · intro name name' hm hm' hne k hk k' hk' he
    obtain ⟨key, -, -, rfl⟩ := hkey name hm
    obtain ⟨key', -, -, rfl⟩ := hkey name' hm'
    rw [keyOf?_fileName] at hk hk'
    cases hk
    cases hk'
    exact hne (congrArg fileName he)
  · rw [List.mem_filterMap]
    constructor
    · rintro ⟨name, hm, hk⟩
      obtain ⟨key', value, hv, rfl⟩ := hkey name hm
      rw [keyOf?_fileName] at hk
      cases hk
      exact ⟨value, hv⟩
    · rintro ⟨value, hv⟩
      exact ⟨fileName key, Table.mem_keys_iff.mpr ⟨.text value, (h _ _).mpr ⟨key, value, hv, rfl, rfl⟩⟩,
        keyOf?_fileName key⟩

end Folder

namespace Files

open Folder

/-! ## Temporary names -/

/-- The file of the key `.` begins with the name of the parent directory. -/
theorem fileName_dot : fileName "." = parent ++ "json" := by decide +kernel

/-- The temporary name for the key `.` is that of the parent directory. -/
theorem temporaryName_dot (n : Nat) : temporaryName (fileName ".") n = parent := by
  rw [temporaryName, if_pos fileName_dot]

/-- Any other temporary name has an extension of its own. -/
theorem temporaryName_of_ne {key : String} (h : key ≠ ".") (n : Nat) :
    ∃ stem, temporaryName (fileName key) n = stem ++ ".tmp" := by
  rw [temporaryName, if_neg fun he => h (fileName_inj (he.trans fileName_dot.symm))]
  exact ⟨_, rfl⟩

/-- A name with the extension of temporary files ends in a `p`, as no file of a key does. -/
theorem getLast?_append_tmp (stem : String) : (stem ++ ".tmp").toList.getLast? = some 'p' := by
  rw [String.toList_append, List.getLast?_append]
  rfl

/-- A temporary file is not the file of a key. -/
theorem keyOf?_append_tmp (stem : String) : keyOf? (stem ++ ".tmp") = none := by
  rw [keyOf?, Option.bind_eq_none_iff]
  intro r hr
  have hlast := congrArg (fun s : String => s.toList.getLast?) (Text.eq_append_of_beforeSuffix? hr)
  have hextension : extension.toList.getLast? = some 'n' := by decide
  rw [getLast?_append_tmp, String.toList_append, List.getLast?_append, hextension] at hlast
  exact absurd hlast (by simp)

/-- A name with the extension of temporary files is not that of the parent directory. -/
theorem append_tmp_ne_parent (stem : String) : stem ++ ".tmp" ≠ parent := by
  intro h
  have hlast := congrArg (fun s : String => s.toList.getLast?) h
  rw [getLast?_append_tmp] at hlast
  exact absurd hlast (by decide)

/-- The file of a key is not the parent directory. -/
theorem fileName_ne_parent (key : String) : fileName key ≠ parent := by
  intro h
  have hparent : keyOf? parent = none := by decide
  rw [← h, keyOf?_fileName] at hparent
  contradiction

/-! ## What each operation does -/

/-- A directory on a file system that takes names of any length. -/
def unbounded (e : Folder) : Files := ⟨some e, none⟩

variable {e : Folder} {c : Contents}

/-- The file of a key is not a folder. -/
theorem isFolder_fileName (h : Shows e c) (key : String) : isFolder e (fileName key) = false := by
  rw [isFolder, Bool.or_eq_false_iff, decide_eq_false_iff_not, decide_eq_false_iff_not,
    h.get?_fileName]
  refine ⟨fileName_ne_parent key, ?_⟩
  cases c.get? key <;> nofun

/-- The value of a key is read from its file; where there is no file there is no value. -/
theorem run_get (h : Shows e c) (key : String) :
    (Storage.get key : Op Files _).run (unbounded e) = ⟨.ok (c.get? key), unbounded e, []⟩ := by
  show (get key).run (unbounded e) = _
  simp only [get, unbounded, fits, Op.run_bind, Op.run_state, Op.andThen_ok, if_true,
    h.get?_fileName]
  cases c.get? key <;> rfl

/-- The file of a key is removed, if there is one. -/
theorem run_del (h : Shows e c) (key : String) :
    (Storage.del key : Op Files _).run (unbounded e) =
      ⟨.ok (), unbounded (e.erase (fileName key)), []⟩ := by
  show (del key).run (unbounded e) = _
  simp [del, unbounded, fits, setEntries, isFolder_fileName h]

/-- The keys with a prefix are listed from the names of the files, each once, in whatever order
these come. -/
theorem run_list (h : Shows e c) (keyPrefix : String) :
    ∃ ks, (Storage.list keyPrefix : Op Files _).run (unbounded e) = ⟨.ok ks, unbounded e, []⟩ ∧
      ks.Nodup ∧ ∀ k, k ∈ ks ↔ k ∈ c.keysUnder keyPrefix := by
  obtain ⟨hn, hm⟩ := h.keys
  refine ⟨_, rfl, hn.sublist List.filter_sublist, fun k => ?_⟩
  rw [List.mem_filter, hm, Contents.mem_keysUnder]

/-- A value is not written where its temporary name is that of the parent directory, and nothing is
left behind. -/
theorem run_put_dot (e : Folder) (value : String) :
    (Storage.put "." value : Op Files _).run (unbounded e) =
      ⟨.error (.storage .writeFile), unbounded e, []⟩ := by
  have hname : unusedName e (fileName ".") = parent := temporaryName_dot _
  show (put "." value).run (unbounded e) = _
  simp [put, unbounded, hname, writeFile, isFolder, fits, Storage.fault]

/-- A value is written to a file of no key, which then becomes the file of the key. In between the
directory has a temporary file that no reader takes for a key, and afterwards none. -/
theorem run_put (h : Shows e c) {key : String} (hk : key ≠ ".") (value : String) :
    (Storage.put key value : Op Files _).run (unbounded e) =
      ⟨.ok (), unbounded (e.insert (fileName key) (.text value)), []⟩ := by
  obtain ⟨stem, hname⟩ : ∃ stem, unusedName e (fileName key) = stem ++ ".tmp" :=
    temporaryName_of_ne hk _
  have hkey := keyOf?_append_tmp stem
  have hfree := h.get?_of_keyOf? hkey
  have hfile : isFolder e (stem ++ ".tmp") = false := by
    simp [isFolder, append_tmp_ne_parent, hfree]
  have hne : fileName key ≠ stem ++ ".tmp" := by
    intro he
    rw [← he, keyOf?_fileName] at hkey
    contradiction
  have htarget : isFolder (e.insert (stem ++ ".tmp") (.text value)) (fileName key) = false := by
    have := isFolder_fileName h key
    rw [isFolder, Table.get?_insert_of_ne _ _ hne]
    exact this
  have hback : (e.insert (stem ++ ".tmp") (.text value)).erase (stem ++ ".tmp") = e := by
    refine Table.ext_get? fun name => ?_
    rw [Table.get?_erase, Table.get?_insert]
    split
    · rename_i he
      rw [he, hfree]
    · rfl
  show (put key value).run (unbounded e) = _
  simp [put, unbounded, hname, writeFile, replaceFile, fits, hfile, setEntries, htarget, hback]

/-- The writes of a batch are made up to the first that puts a value under the key `.`, which ends
it. -/
theorem run_writeBatch (h : Shows e c) (ws : List Write) :
    ∃ e', Shows e' (c.applyAll (ws.takeWhile (!·.putsDot))) ∧
      (Storage.writeBatch ws : Op Files _).run (unbounded e) =
        ⟨if ws.any Write.putsDot then .error (.storage .writeFile) else .ok (), unbounded e', []⟩ := by
  show ∃ e', Shows e' _ ∧ (Write.applyEach Storage.put Storage.del ws).run (unbounded e) = _
  induction ws generalizing e c with
  | nil => exact ⟨e, h, rfl⟩
  | cons w ws ih =>
      cases w with
      | put key value =>
          by_cases hk : key = "."
          · subst hk
            refine ⟨e, h, ?_⟩
            rw [Write.applyEach, Op.run_bind, run_put_dot]
            rfl
          · have hw : (Write.put key value).putsDot = false := beq_false_of_ne hk
            obtain ⟨e', he', hr⟩ := ih (h.insert key value)
            rw [List.takeWhile_cons, hw, List.any_cons, hw, Bool.false_or]
            refine ⟨e', he', ?_⟩
            rw [Write.applyEach, Op.run_bind, run_put h hk, Op.andThen_ok, hr]
            rfl
      | del key =>
          obtain ⟨e', he', hr⟩ := ih (h.erase key)
          refine ⟨e', he', ?_⟩
          rw [Write.applyEach, Op.run_bind, run_del h, Op.andThen_ok, hr]
          rfl

/-! ## One request -/

/-- Working on an answer leaves the state and logs nothing. -/
theorem run_answer {σ α : Type} {op : Op σ α} {s s' : σ} {a : α} (answer : α → Reply)
    (h : op.run s = ⟨.ok a, s', []⟩) :
    (op >>= fun a => pure (answer a)).run s = ⟨.ok (answer a), s', []⟩ := by
  rw [Op.run_bind, h]
  rfl

/-- **A directory answers as the content that it stands for**, and stands for the content with the
writes of the request made; a value under the key `.` is refused, and what comes after it in a batch
is left. -/
theorem perform_shows (h : Shows e c) (r : Request) :
    ∃ e', Shows e' (c.applyAll r.admitted) ∧ (r.perform.run (unbounded e)).state = unbounded e' ∧
      if r.putsDot then (r.perform.run (unbounded e)).result = .error (.storage .writeFile)
      else SameResult (r.perform.run (unbounded e)).result
        (r.perform.run (⟨c⟩ : Memory)).result := by
  cases r with
  | get key =>
      have hr : (Request.get key).perform.run (unbounded e) =
          ⟨.ok (.value (c.get? key)), unbounded e, []⟩ := run_answer .value (run_get h key)
      rw [hr]
      exact ⟨e, h, rfl, rfl⟩
  | list keyPrefix =>
      obtain ⟨ks, hlist, hn, hm⟩ := run_list h keyPrefix
      have hr : (Request.list keyPrefix).perform.run (unbounded e) =
          ⟨.ok (.keys ks), unbounded e, []⟩ := run_answer .keys hlist
      rw [hr]
      exact ⟨e, h, rfl, hn, c.nodup_keys.sublist List.filter_sublist, hm⟩
  | del key =>
      have hr : (Request.del key).perform.run (unbounded e) =
          ⟨.ok .done, unbounded (e.erase (fileName key)), []⟩ :=
        run_answer (fun _ => .done) (run_del h key)
      rw [hr]
      exact ⟨_, h.erase key, rfl, trivial⟩
  | put key value =>
      by_cases hk : key = "."
      · have hr : (Request.put "." value).perform.run (unbounded e) =
            ⟨.error (.storage .writeFile), unbounded e, []⟩ := by
          rw [Request.perform, Op.run_bind, run_put_dot]
          rfl
        rw [hk, hr]
        exact ⟨e, h, rfl, rfl⟩
      · have hr : (Request.put key value).perform.run (unbounded e) =
            ⟨.ok .done, unbounded (e.insert (fileName key) (.text value)), []⟩ :=
          run_answer (fun _ => .done) (run_put h hk value)
        have hdot : ¬(Request.put key value).putsDot = true := by
          simp [Request.putsDot, Request.writes, Write.putsDot, hk]
        rw [hr, Request.admitted_of_not_putsDot hdot, if_neg hdot]
        exact ⟨_, h.insert key value, rfl, trivial⟩
  | writeBatch ws =>
      obtain ⟨e', he', hr⟩ := run_writeBatch h ws
      refine ⟨e', he', ?_⟩
      rw [Request.perform, Op.run_bind, hr, Request.putsDot, Request.writes]
      split
      · exact ⟨rfl, rfl⟩
      · exact ⟨rfl, trivial⟩

/-! ## Requests in order -/

/-- Whatever is asked of it, a directory stands for the content with the admitted writes made, by
induction on the requests. -/
theorem after_shows (h : Shows e c) (requests : List Request) :
    ∃ e', Shows e' (c.applyAll (requests.flatMap Request.admitted)) ∧
      after (unbounded e) requests = unbounded e' := by
  induction requests generalizing e c with
  | nil => exact ⟨e, h, rfl⟩
  | cons r requests ih =>
      obtain ⟨e₁, he₁, hs, -⟩ := perform_shows h r
      obtain ⟨e', he', hr⟩ := ih he₁
      refine ⟨e', ?_, ?_⟩
      · rw [List.flatMap_cons, Contents.applyAll_append]
        exact he'
      · rw [after, List.foldl_cons, hs]
        exact hr

/-- A directory and a storage in memory that stand for the same content answer the same for as long
as no value is put under the key `.`. -/
theorem answerAlike_iff (h : Shows e c) (requests : List Request) :
    AnswerAlike (unbounded e) (⟨c⟩ : Memory) requests ↔ ∀ r ∈ requests, ¬r.putsDot = true := by
  induction requests generalizing e c with
  | nil => exact ⟨fun _ => nofun, fun _ => trivial⟩
  | cons r requests ih =>
      obtain ⟨e', he', hs, hr⟩ := perform_shows h r
      obtain ⟨a, ha, hm⟩ := Memory.perform_returns r c
      rw [AnswerAlike, hs, hm, List.forall_mem_cons]
      by_cases hdot : r.putsDot = true
      · rw [if_pos hdot] at hr
        rw [hr, ha]
        exact iff_of_false (fun hsame => hsame.1) fun hall => hall.1 hdot
      · rw [if_neg hdot] at hr
        rw [Request.admitted_of_not_putsDot hdot] at he'
        rw [ih he', and_iff_right hr, and_iff_right hdot]

/-- **A directory and a storage in memory answer the same, one key apart.** From an empty directory
and an empty memory on, any requests are answered the same exactly if none puts a value under the key
`.`, which only the memory takes. Whatever was asked, the directory has one file for each key with a
value and no other, temporary or not; it refuses a value under the key `.` and answers everything
else as a memory with this content would, and so lists the keys that have a value and begin as asked,
each once. -/
theorem answers_as_memory_iff (requests : List Request) :
    (AnswerAlike (unbounded ∅) (⟨∅⟩ : Memory) requests ↔ ∀ r ∈ requests, ¬r.putsDot = true) ∧
    (∀ key key', fileName key = fileName key' → key = key') ∧
    ∃ e c, after (unbounded ∅) requests = unbounded e ∧ Folder.Shows e c ∧
      ((∀ r ∈ requests, ¬r.putsDot = true) → after (⟨∅⟩ : Memory) requests = ⟨c⟩) ∧
      (∀ r : Request,
        if r.putsDot then (r.perform.run (unbounded e)).result = .error (.storage .writeFile)
        else SameResult (r.perform.run (unbounded e)).result
          (r.perform.run (⟨c⟩ : Memory)).result) ∧
      ∀ keyPrefix, ∃ ks, ((Storage.list keyPrefix).run (unbounded e)).result = .ok ks ∧ ks.Nodup ∧
        ∀ k, k ∈ ks ↔ Text.hasPrefix keyPrefix k = true ∧
          ∃ value, ((Storage.get k).run (unbounded e)).result = .ok (some value) := by
  obtain ⟨e, he, hafter⟩ := after_shows Folder.shows_empty requests
  refine ⟨answerAlike_iff Folder.shows_empty requests, fun _ _ => fileName_inj, e, _, hafter, he,
    fun hdot => ?_, fun r => ?_, fun keyPrefix => ?_⟩
  · have hall : requests.map Request.admitted = requests.map Request.writes :=
      List.map_congr_left fun r hr => Request.admitted_of_not_putsDot (hdot r hr)
    rw [Memory.after_eq, List.flatMap_def, List.flatMap_def, hall]
  · obtain ⟨-, -, -, hr⟩ := perform_shows he r
    exact hr
  · obtain ⟨ks, hr, hn, hm⟩ := run_list he keyPrefix
    refine ⟨ks, congrArg Outcome.result hr, hn, fun k => ?_⟩
    rw [hm, Contents.mem_keysUnder, and_comm, run_get he]
    simp

example : ((Storage.put "." "1").run (unbounded ∅)).result = .error (.storage .writeFile) :=
  rfl

end Files

end PeerBook
