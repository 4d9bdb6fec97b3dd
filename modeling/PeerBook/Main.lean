import PeerBook.Command.Run

/-!
# PeerBook.Main

The program. It reads the arguments and the environment, takes a snapshot of
the data directory, lets `Command.run` carry out the call on it, brings the
directory up to date by the journal, and prints the report.

Nothing is decided here: whatever depends on what was read is in the functions
that this module calls, which are pure. The journal is made in its order, so an
interrupted program leaves a beginning of what it would have written.
-/

namespace PeerBook.Command

/-- What a path stands for, if for anything; what cannot be read as a file counts as a folder. -/
def entryAt? (path : String) : IO (Option Entry) := do
  match ← (IO.FS.readBinFile path).toBaseIO with
  | .ok bytes => return some (.ofBytes bytes.toList)
  | .error (.noFileOrDirectory ..) => return none
  | .error _ => return some .folder

/-- What the directory at a path holds. -/
def folderAt (path : String) : IO Folder := do
  let mut folder : Folder := ∅
  for found in ← (← IO.FS.realPath path).readDir do
    if let some entry ← entryAt? (path ++ "/" ++ found.fileName) then
      folder := folder.insert found.fileName entry
  return folder

/-- The place of the account's storage in a data directory. -/
def accountPath (path : String) : String := path ++ "/account"

/-- The place of the configuration in a data directory. -/
def configPath (path : String) : String := path ++ "/config.json"

/-- A snapshot of a data directory. -/
def snapshot (path : String) : IO DataDirectory := do
  let config ← entryAt? (configPath path)
  match ← entryAt? (accountPath path) with
  | none => return ⟨config, .missing⟩
  | some .folder => return ⟨config, .folder (← folderAt (accountPath path))⟩
  | some _ => return ⟨config, .file⟩

/-- Makes a write in the directory at a path. -/
def makeWrite (path : String) : Write → IO Unit
  | .put key value => do
    let name := Files.fileName key
    let temporary := path ++ "/" ++ Files.temporaryName name (← IO.monoNanosNow)
    IO.FS.writeFile temporary value
    IO.FS.rename temporary (path ++ "/" ++ name)
  | .del key => do
    match ← (IO.FS.removeFile (path ++ "/" ++ Files.fileName key)).toBaseIO with
    | .ok () | .error (.noFileOrDirectory ..) => return
    | .error e => throw e

/-- Makes the writes of a journal in the directory at a path. Whether each succeeded was settled
on the snapshot, so a failure only ends the batch it is part of. -/
def makeWrites (path : String) (journal : List JournalEntry) : IO Unit :=
  journal.forM fun entry => do
    let writes := match entry with
      | .write w => [w]
      | .batch ws => ws
    try writes.forM (makeWrite path) catch _ => pure ()

/-- Brings a data directory up to date. -/
def bringUpToDate (path : String) (report : Report) : IO Unit := do
  if let .folder _ := report.directory.account then
    IO.FS.createDirAll (accountPath path)
  makeWrites (accountPath path) report.journal
  if let some (.text config) := report.directory.config then
    IO.FS.writeFile (configPath path) config

/-- Prints a report. -/
def printReport (report : Report) : IO UInt32 := do
  report.log.forM fun line => IO.eprintln (line.level.name ++ " " ++ line.text)
  IO.print report.stdout
  IO.eprint report.stderr
  return .ofNat report.exitCode

/-- Carries out a call. -/
def carryOut (call : Invocation) : IO UInt32 := do
  match call.dataPath? (← IO.getEnv "XDG_DATA_HOME") (← IO.getEnv "HOME") with
  | none => printReport (failed call "Could not find data directory" [] .empty [])
  | some path =>
    try
      IO.FS.createDirAll path
      let report := run call (← snapshot path)
      bringUpToDate path report
      printReport report
    catch e => printReport (failed call (toString e) [] .empty [])

end PeerBook.Command

open PeerBook.Command in
/-- Reads the arguments and does what they ask for. -/
def main (args : List String) : IO UInt32 := do
  match parse (← IO.getEnv "RECIPIENTCTL_DATA_DIR") args with
  | .ok call => carryOut call
  | .error .help => IO.print helpText; return 0
  | .error .version => IO.print versionText; return 0
  | .error .usage => IO.eprint helpText; return 2
