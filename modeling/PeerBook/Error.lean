import PeerBook.Kind
import PeerBook.PeerId
import PeerBook.Text.Quoted

/-!
# PeerBook.Error

What can go wrong, as causes, and the one function that puts them into words.
A fault in a JSON text is not described further: `<json>` stands for it unless
the text was well formed and one of this library's own rules refused its
content.

Operations fail with causes, not with texts, so two failures are alike when
their causes are. `Error.message` is for whoever is shown a failure, and for the
failures of stores, which are collected while a merge goes on.
-/

namespace PeerBook

/-- Why a text or a number is no identifier. -/
inductive IdentifierFault where
  | nilAci
  | nilPni
  | notANumber (text : String)
  | blankUsername
  | notAPeerId (text : String)
  deriving DecidableEq, Repr

/-- The wording of a fault. -/
def IdentifierFault.message : IdentifierFault → String
  | .nilAci => "unknown ACI"
  | .nilPni => "unknown PNI"
  | .notANumber text => "phone number must be in +E.164 form: " ++ Text.quote text
  | .blankUsername => "empty username"
  | .notAPeerId text => "recipient id " ++ Text.quote text

/-- Why a storage did not do what it was asked. -/
inductive StorageFault where
  | createDirectory
  | readDirectory
  | readFile
  | writeFile
  | replaceFile
  | deleteFile
  | alreadyOwned (kind : Kind) (newcomer owner : PeerId)
  | refused (reason : String)
  deriving DecidableEq, Repr

/-- The wording of a fault. -/
def StorageFault.message : StorageFault → String
  | .createDirectory => "Failed to create directory"
  | .readDirectory => "Failed to read directory"
  | .readFile => "Failed to read file"
  | .writeFile => "Failed to write file"
  | .replaceFile => "Failed to replace file"
  | .deleteFile => "Failed to delete file"
  | .alreadyOwned kind newcomer owner =>
    toString kind ++ " of recipient " ++ toString newcomer ++ " is already owned by recipient " ++
      toString owner
  | .refused reason => reason

/-- Why a merge of two peers failed in one of the stores that follow it. -/
structure CascadeFailure where
  store : String
  surviving : PeerId
  absorbed : PeerId
  message : String
  deriving DecidableEq, Repr

/-- Why the content of an address was refused. -/
inductive AddressFault where
  | empty
  | identifier (fault : IdentifierFault)
  deriving DecidableEq, Repr

/-- The wording of a fault. -/
def AddressFault.message : AddressFault → String
  | .empty => "Recipient address must carry at least one identifier"
  | .identifier fault => "Invalid identifier: " ++ fault.message

/-- Why a JSON text does not stand for a value: it is no JSON or of another shape, or a rule
about addresses refuses what it says. -/
inductive JsonFault where
  | malformed
  | rejected (fault : AddressFault)
  deriving DecidableEq, Repr

/-- The wording of a fault. -/
def JsonFault.message : JsonFault → String
  | .malformed => "<json>"
  | .rejected fault => fault.message

/-- The causes of failure of the operations of this library. -/
inductive Error where
  | address (fault : AddressFault)
  | unknownPeer (id : PeerId)
  | counter (fault : Text.NumeralFault)
  | storage (fault : StorageFault)
  | cascade (failure : CascadeFailure)
  | json (fault : JsonFault)
  | uuid
  | base64
  deriving DecidableEq, Repr

namespace Error

/-- The error of an address without identifiers. -/
abbrev emptyAddress : Error := .address .empty

/-- The error of an invalid identifier. -/
abbrev invalidIdentifier (fault : IdentifierFault) : Error := .address (.identifier fault)

/-- The wording of an error. -/
def message : Error → String
  | .address fault => fault.message
  | .unknownPeer id => "Unknown recipient: " ++ toString id
  | .counter fault => "Serialization error: recipient id counter: " ++ fault.message
  | .storage fault => "Storage error: " ++ fault.message
  | .cascade f =>
    "Merge of " ++ toString f.absorbed ++ " into " ++ toString f.surviving ++ " failed in " ++
      f.store ++ ": " ++ f.message
  | .json fault => fault.message
  | .uuid => "malformed UUID"
  | .base64 => "malformed base 64"

end Error

/-- Reads a handle from a numeral. -/
def PeerId.parse (s : String) : Except Error PeerId :=
  match PeerId.parse? s with
  | some id => .ok id
  | none => .error (.invalidIdentifier (.notAPeerId s))

/-! ## Errors in other words -/

/-- A value is not touched where only the error is told in other words; the simp set needs the fact
for readers that rename the faults of the ones they call. -/
@[simp] theorem mapError_ok {ε ε' α : Type} (f : ε → ε') (a : α) :
    (Except.ok a : Except ε α).mapError f = .ok a := rfl

/-- An error is told in the other words, and nothing else changes. -/
@[simp] theorem mapError_error {ε ε' α : Type} (f : ε → ε') (e : ε) :
    (Except.error e : Except ε α).mapError f = .error (f e) := rfl

end PeerBook
