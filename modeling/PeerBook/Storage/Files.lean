import PeerBook.Storage.Basic
import PeerBook.Table
import PeerBook.Text.Affix
import PeerBook.Text.Percent

/-!
# PeerBook.Storage.Files

A storage in a directory, one file a key. The name of a file is the key in
percent encoding with the extension `.json`, so different keys have different
files (`fileName_inj`) and the keys are read back from the names (`keyOf?`).

A value is put in two steps, so that no reader sees half of one:

    write the value to  NAME.TAG.tmp      (`temporaryName`, `writeFile`)
    rename it to        NAME              (`replaceFile`)

where the tag is one that no entry has (`unusedName`). A temporary name has
another extension, so no listing shows one. A batch is its writes one after
another, and may stop between two of them.

Names that the file system refuses are part of the model: a name that is too
long (`fits`), one that is a folder, and the parent directory, to which the
temporary name of the key `.` comes down.
-/

namespace PeerBook

/-- What a name in a directory stands for. -/
inductive Entry where
  | text (content : String)
  | binary (content : List UInt8)
  | folder
  deriving DecidableEq

/-- The file of given bytes; they are a text if they are UTF-8. -/
def Entry.ofBytes (bytes : List UInt8) : Entry :=
  match String.fromUTF8? bytes.toByteArray with
  | some s => .text s
  | none => .binary bytes

/-- What a directory holds, by name. -/
abbrev Folder := Table String Entry

/-- A storage in a directory. The directory may have been removed, and its file system may bound
the bytes of a name. -/
structure Files where
  entries : Option Folder
  nameLimit : Option Nat
  deriving DecidableEq

namespace Files

/-! ## Names -/

/-- The extension of the files. -/
def extension : String := ".json"

/-- The name of the file of a key. -/
def fileName (key : String) : String := Text.Percent.encode key ++ extension

/-- The key whose file has a given name. -/
def keyOf? (name : String) : Option String :=
  (Text.beforeSuffix? extension name).bind Text.Percent.decode?

@[simp] theorem keyOf?_fileName (key : String) : keyOf? (fileName key) = some key := by
  simp [keyOf?, fileName]

/-- Different keys have different files. -/
theorem fileName_inj {k l : String} (h : fileName k = fileName l) : k = l := by
  simpa using congrArg keyOf? h

/-- The name that every directory has for the one it is in. -/
def parent : String := ".."

/-- A tag of thirty-two digits. -/
def tag (n : Nat) : String :=
  let digits := Text.Hex.ofNat n
  String.ofList (List.replicate (32 - digits.length) '0') ++ digits

/-- The name of a temporary file: that of the file, a tag and another extension. A name that is
an extension alone gets its extension once more, and the extension is taken off before it is put
on again: for the key `.` this leaves the name of the parent directory, which cannot be written. -/
def temporaryName (name : String) (n : Nat) : String :=
  if name = parent ++ "json" then parent
  else name ++ (if name = extension then extension else "") ++ "." ++ tag n ++ ".tmp"

/-- A temporary name that is not in use. -/
def unusedName (entries : Folder) (name : String) : String :=
  let free := (List.range (entries.size + 1)).find? fun n =>
    !entries.contains (temporaryName name n)
  temporaryName name (free.getD 0)

/-- Whether a name is short enough for the file system. -/
def fits (limit : Option Nat) (name : String) : Bool :=
  match limit with
  | none => true
  | some n => name.utf8ByteSize ≤ n

/-- Whether a name stands for a folder. -/
def isFolder (entries : Folder) (name : String) : Bool :=
  name = parent || entries.get? name = some .folder

/-! ## Operations -/

/-- Replaces what the directory holds. -/
def setEntries (entries : Folder) : Op Files Unit :=
  Op.update fun fs => { fs with entries := some entries }

/-- Writes a file of a given name. -/
def writeFile (name content : String) : Op Files Unit := do
  let fs ← Op.state
  match fs.entries with
  | none => Storage.fault .writeFile
  | some entries =>
    if fits fs.nameLimit name && !isFolder entries name then
      setEntries (entries.insert name (.text content))
    else
      Storage.fault .writeFile

/-- Gives a file another name, in place of the file that had it. If the name stands for a folder
the file is removed and the operation fails. -/
def replaceFile (source target : String) : Op Files Unit := do
  match (← Op.state).entries with
  | none => Storage.fault .replaceFile
  | some entries =>
    match entries.get? source with
    | none => Storage.fault .replaceFile
    | some entry =>
      setEntries (entries.erase source)
      if isFolder entries target then
        Storage.fault .replaceFile
      else
        setEntries ((entries.erase source).insert target entry)

/-- The value of a key. A missing directory has no files. -/
def get (key : String) : Op Files (Option String) := do
  let fs ← Op.state
  match fs.entries with
  | none => return none
  | some entries =>
    if fits fs.nameLimit (fileName key) then
      match entries.get? (fileName key) with
      | none => return none
      | some (.text content) => return some content
      | some _ => Storage.fault .readFile
    else
      Storage.fault .readFile

/-- Writes the value of a key by way of a temporary file. -/
def put (key value : String) : Op Files Unit := do
  let temporary := unusedName ((← Op.state).entries.getD ∅) (fileName key)
  writeFile temporary value
  replaceFile temporary (fileName key)

/-- Removes the file of a key, if there is one. -/
def del (key : String) : Op Files Unit := do
  let fs ← Op.state
  match fs.entries with
  | none => return
  | some entries =>
    if fits fs.nameLimit (fileName key) && !isFolder entries (fileName key) then
      setEntries (entries.erase (fileName key))
    else
      Storage.fault .deleteFile

/-- The keys with a prefix, read from the names in the directory. -/
def list (keyPrefix : String) : Op Files (List String) := do
  match (← Op.state).entries with
  | none => Storage.fault .readDirectory
  | some entries => return (entries.keys.filterMap keyOf?).filter (Text.hasPrefix keyPrefix)

instance : Storage Files where
  get := get
  put := put
  del := del
  list := list

end Files

end PeerBook
