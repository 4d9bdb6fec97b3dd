import PeerBook.Account.Resolve
import PeerBook.Command.Arguments
import PeerBook.Config
import PeerBook.Storage.Files
import PeerBook.Storage.Journaled
import PeerBook.Stores.All

/-!
# PeerBook.Command.Run

The commands, on a snapshot of a data directory. A data directory holds the
configuration and, in a folder of its own, the storage of the account. A run
answers what is printed, how the directory looks afterwards, and the journal of
the storage, by which the real directory is brought up to date.

A command is an operation whose failure is already a text, since what a user is
told names what was tried (`Command.inContext`). The report has the text for
standard output, that for standard error and the exit code, so that printing is
all that is left to do.
-/

namespace PeerBook.Command

/-! ## Data directories -/

/-- The place of the account's storage. -/
inductive Place where
  | missing
  | file
  | folder (entries : Folder)

/-- What a data directory holds. -/
structure DataDirectory where
  config : Option Entry
  account : Place

/-- The directory of a new account. -/
def DataDirectory.empty : DataDirectory := ⟨none, .missing⟩

/-- Where the data directory of a call is: where it says, or else in the directory that the
environment gives for data of programs, or else in the one below the home directory. -/
def Invocation.dataPath? (call : Invocation) (dataHome home : Option String) : Option String :=
  let given := dataHome.filter (Text.hasPrefix "/")
  call.dataDir.or ((given.or (home.map (· ++ "/.local/share"))).map (· ++ "/recipientctl"))

/-- The storage in a data directory; file systems bound a name to 255 bytes. -/
def DataDirectory.storage (d : DataDirectory) : Except Error Files :=
  match d.account with
  | .missing => .ok ⟨some ∅, some 255⟩
  | .folder entries => .ok ⟨some entries, some 255⟩
  | .file => .error (.storage .createDirectory)

/-- Reads the configuration. -/
def DataDirectory.loadConfig (d : DataDirectory) : Except String Config :=
  match d.config with
  | none => .ok .default
  | some (.text s) =>
    match Json.decode Config.ofJson s with
    | .ok c => .ok c
    | .error _ => .error "Failed to parse config file"
  | some _ => .error "Failed to read config file"

/-! ## Answers -/

/-- A peer as it is shown. -/
def infoJson (p : Peer) : Json :=
  .record
    [("id", some p.id.toJson), ("aci", p.address.aci.map fun a => .text (toString a)),
      ("pni", p.address.pni.map fun p => .text (toString p)),
      ("number", p.address.number.map fun n => .text n.text),
      ("username", p.address.username.map fun u => .text u.text)]

/-- A list, or nothing if it is empty. -/
def nonEmpty (items : List Json) : Option Json :=
  if items.isEmpty then none else some (.array items)

/-- The account as it is shown. -/
def accountJson (number : Option String) (self : Option PeerId) : Json :=
  .record [("account", number.map .text), ("self_recipient", self.map PeerId.toJson)]

/-- What a command answers: its name, the data, and the configuration if it was changed. -/
structure Answer where
  command : String
  data : Json
  config : Option Config := none

/-! ## Commands -/

/-- An error in the context of what was tried. A malformed UUID is not described further. -/
def describe (context : String) : Error → String
  | .uuid => context
  | e => context ++ ": " ++ e.message

/-- An operation whose failure is put into words. -/
abbrev Task (τ α : Type) := ExceptT String (Op τ) α

/-- Runs an operation; its failure is described in a context. -/
def inContext {τ α : Type} (context : String) (op : Op τ α) : Task τ α :=
  ExceptT.mk do
    match ← op.attempt with
    | .ok a => return .ok a
    | .error e => return .error (describe context e)

/-- Reads an optional argument. -/
def readArgument {α : Type} (context : String) (parse : String → Except Error α) :
    Option String → Except String (Option α)
  | none => .ok none
  | some s => ((parse s).map some).mapError (describe context)

/-- The address that the arguments give. -/
def AddressArguments.toAddress (args : AddressArguments) : Except String Address := do
  let aci ← readArgument "Invalid ACI" Aci.parse args.aci
  let pni ← readArgument "Invalid PNI" Pni.parse args.pni
  ((Address.create aci pni args.number args.username).mapError .address).mapError
    (describe "Give at least one of --aci, --pni, --number, --username")

variable {σ : Type} [Storage σ]

/-- The peer of a handle, as it is shown. -/
def info (id : PeerId) : Task (Account σ) Json := do
  let account ← (Op.state : Op (Account σ) _)
  match account.directory.get? id with
  | some p => return infoJson p
  | none => throw ("Recipient " ++ toString id ++ " not found")

/-- Does what is asked for. -/
def perform (config : Config) : Action → Task (Account σ) Answer
  | .resolve args => do
    let address ← args.toAddress
    let r ← inContext "Failed to resolve recipient" (Account.resolve address)
    let recipient ← info r.peer
    return ⟨"resolve", .record
      [("recipient", some recipient), ("merged", nonEmpty (r.merged.map PeerId.toJson)),
        ("cascade_failures",
          nonEmpty (r.failures.map fun f => .text (f.store ++ ": " ++ f.message)))],
      none⟩
  | .lookup args => do
    let address ← args.toAddress
    let id ← inContext "Failed to look up recipient" (Account.lookup address)
    return ⟨"lookup", ← info id, none⟩
  | .show id => do
    let id ← (PeerId.parse id).mapError (describe "Invalid recipient id")
    return ⟨"show", ← info id, none⟩
  | .list => do
    let account ← (Op.state : Op (Account σ) _)
    return ⟨"list",
      .record [("recipients", some (.array (account.directory.all.map infoJson)))], none⟩
  | .setAccount number => do
    let address ← ((Address.fromNumber number).mapError .address).mapError
      (describe "Invalid phone number")
    let r ← inContext "Failed to resolve own recipient" (Account.resolveSelf address)
    let config := { config with account := some number }
    return ⟨"set-account", accountJson config.account (some r.peer), some config⟩
  | .whoami => do
    let account ← (Op.state : Op (Account σ) _)
    return ⟨"whoami", accountJson config.account account.directory.selfId, none⟩

/-! ## Reports -/

/-- What the program answers when asked for its version. -/
def versionText : String := "recipientctl 0.1.0\n"

/-- What the program answers when asked for help. -/
def helpText : String :=
  "Inspect and resolve the recipients of a local messaging account\n\n" ++
  "Usage: recipientctl [OPTIONS] COMMAND\n\n" ++
  "Commands:\n" ++
  "  resolve      Resolve identifiers proven to belong to one peer\n" ++
  "  lookup       Find or create a recipient without merging anything\n" ++
  "  show ID      Show a recipient\n" ++
  "  list         List all recipients\n" ++
  "  set-account NUMBER\n" ++
  "               Set the phone number of the local account\n" ++
  "  whoami       Show the local account\n\n" ++
  "Options:\n" ++
  "  -j, --json            Output in JSON format\n" ++
  "  -v, --verbose         Debug logging\n" ++
  "      --data-dir DIR    Data directory\n" ++
  "      --aci, --pni, --number, --username\n" ++
  "                        Identifiers for resolve and lookup\n" ++
  "  -h, --help            Print help\n" ++
  "  -V, --version         Print version\n"

/-- What a run prints and leaves. -/
structure Report where
  exitCode : Nat
  stdout : String
  stderr : String
  log : List LogLine
  directory : DataDirectory
  journal : List JournalEntry

/-- The text of an answer: one line of JSON, or the data alone in indented form. -/
def showAnswer (json : Bool) (a : Answer) : String :=
  (if json then
    (Json.record [("status", some (.text "ok")), ("command", some (.text a.command)),
      ("data", some a.data)]).compact
  else a.data.pretty) ++ "\n"

/-- The text of a failure. -/
def showFailure (json : Bool) (message : String) : String :=
  (if json then
    (Json.record [("status", some (.text "error")), ("command", some (.text "")),
      ("error", some (.text message))]).compact
  else "Error: " ++ message) ++ "\n"

/-- The report of a failure. -/
def failed (call : Invocation) (message : String) (log : List LogLine) (directory : DataDirectory)
    (journal : List JournalEntry) : Report :=
  ⟨1, "", showFailure call.json message, log, directory, journal⟩

/-- What the storage of a run left. -/
def DataDirectory.after (d : DataDirectory) (storage : Journaled Files) : DataDirectory :=
  { d with account := .folder (storage.inner.entries.getD ∅) }

/-- Carries out a call on a data directory. -/
def run (call : Invocation) (d : DataDirectory) : Report :=
  match d.loadConfig with
  | .error message => failed call message [] d []
  | .ok config =>
    let verbosity := if call.verbose then .debug else config.verbosity
    let visible := List.filter fun line : LogLine => verbosity.shows line.level
    match d.storage with
    | .error e => failed call (describe "Failed to open account storage" e) [] d []
    | .ok files =>
      let opened := (Account.load (allMergers {})).run (⟨files, []⟩ : Journaled Files)
      match opened.result with
      | .error e =>
        failed call (describe "Failed to load recipients" e) (visible opened.log)
          (d.after opened.state) opened.state.journal
      | .ok account =>
        let done := (perform config call.action).run.run account
        let storage := done.state.storage
        let log := visible (opened.log ++ done.log)
        match done.result with
        | .ok (.ok answer) =>
          let d := d.after storage
          let d :=
            match answer.config with
            | some c => { d with config := some (.text c.toJson.pretty) }
            | none => d
          ⟨0, showAnswer call.json answer, "", log, d, storage.journal⟩
        | .ok (.error message) => failed call message log (d.after storage) storage.journal
        | .error e => failed call e.message log (d.after storage) storage.journal

end PeerBook.Command
