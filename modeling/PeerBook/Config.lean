import PeerBook.Json.Decoder
import PeerBook.Operation

/-!
# PeerBook.Config

The configuration of the command line: the number of the local account and how
much is logged. It is written as indented JSON.

A verbosity is given by its name in any case, or by its number as loggers count
them. The text is kept as it was given; one that names no verbosity counts as
`info` and does not stop the program.
-/

namespace PeerBook

/-- How much of the log is shown. -/
inductive Verbosity where
  | error
  | warn
  | info
  | debug
  | trace
  deriving DecidableEq, Repr

namespace Verbosity

/-- All verbosities, the quietest first. -/
def all : List Verbosity := [error, warn, info, debug, trace]

/-- The name of a verbosity. -/
def name : Verbosity → String
  | error => "error"
  | warn => "warn"
  | info => "info"
  | debug => "debug"
  | trace => "trace"

/-- Reads a verbosity from its name in any case, or from its number, counted from one. -/
def parse? (s : String) : Option Verbosity :=
  match Text.readUInt64 s with
  | .ok n => if n = 0 then none else all[n.toNat - 1]?
  | .error _ => all.find? (·.name == String.ofList (s.toList.map Char.toLower))

/-- Whether lines of a level are shown. -/
def shows : Verbosity → Level → Bool
  | error, _ => false
  | warn, level => level == .warn
  | info, level => level != .debug
  | debug, _ => true
  | trace, _ => true

end Verbosity

/-- The configuration. -/
structure Config where
  account : Option String
  logLevel : String
  deriving DecidableEq

namespace Config

/-- The configuration of a new data directory. -/
def default : Config := ⟨none, "info"⟩

/-- The configured verbosity; an unknown one counts as `info`. -/
def verbosity (c : Config) : Verbosity := (Verbosity.parse? c.logLevel).getD .info

open Json

/-- The record of the configuration. -/
def toJson (c : Config) : Json :=
  .record [("account", c.account.map .text), ("log_level", some (.text c.logLevel))]

/-- Reads a configuration. -/
def ofJson : Decoder Config := fun j => do
  let fs ← asFields [field "account" (asOptional asText), fieldOr "log_level" asText] j
  let account ← fs.getD "account" (asOptional asText) none
  let logLevel ← fs.getD "log_level" asText default.logLevel
  return ⟨account, logLevel⟩

end Config

end PeerBook
