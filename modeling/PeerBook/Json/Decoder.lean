import PeerBook.Error
import PeerBook.Json.Parser
import PeerBook.Json.Printer

/-!
# PeerBook.Json.Decoder

From JSON values to the values they stand for. A decoder walks a value in the
order of its text, so the first fault in the text is the one that is reported.
A record is an object whose members may come in any order, or an array of its
fields in their order; members of other names are passed over, a repeated one
is refused.

- `Json.asFields` reads the fields that are there, each with its own decoder.
- `Json.Fields.required` and `Json.Fields.getD` then take them one by one, and
  say what a field that is not there means.
- `Json.decode` starts from a text and refuses anything but blanks behind it.
-/

namespace PeerBook.Json

/-- What stands for values of a type. -/
abbrev Decoder (α : Type) := Json → Except JsonFault α

/-! ## Simple values -/

/-- A natural number below a bound. -/
def asNatBelow (bound : Nat) : Decoder Nat
  | number (some n) => if n < bound then .ok n else .error .malformed
  | _ => .error .malformed

/-- A number of 64 bits. -/
def asUInt64 : Decoder UInt64 := fun j => (asNatBelow UInt64.size j).map UInt64.ofNat

/-- A number of 32 bits. -/
def asUInt32 : Decoder UInt32 := fun j => (asNatBelow UInt32.size j).map UInt32.ofNat

/-- A truth value. -/
def asBool : Decoder Bool
  | bool b => .ok b
  | _ => .error .malformed

/-- A string. -/
def asText : Decoder String
  | string (some s) => .ok s
  | _ => .error .malformed

/-- A value that may be absent: `null` stands for none. -/
def asOptional {α : Type} (decode : Decoder α) : Decoder (Option α)
  | null => .ok none
  | j => (decode j).map some

/-- The items of an array. -/
def asList {α : Type} (decode : Decoder α) : Decoder (List α)
  | array items => items.mapM decode
  | _ => .error .malformed

/-- A value given by its name, alone or as the only member of an object, with `null`. -/
def asNamed {α : Type} (ofName? : String → Option α) : Decoder α
  | string (some s) | object [(some s, null)] =>
    match ofName? s with
    | some a => .ok a
    | none => .error .malformed
  | _ => .error .malformed

/-! ## Records -/

/-- A field of a record. -/
structure Field where
  name : String
  accepts : Decoder Unit
  hasDefault : Bool

/-- A field that has to be there when a record is an array. -/
def field {α : Type} (name : String) (decode : Decoder α) : Field :=
  ⟨name, fun j => (decode j).map fun _ => (), false⟩

/-- A field that an array may leave out at its end. -/
def fieldOr {α : Type} (name : String) (decode : Decoder α) : Field :=
  ⟨name, fun j => (decode j).map fun _ => (), true⟩

/-- The fields of a record that are present. -/
abbrev Fields := List (String × Json)

/-- Goes through the members of an object in order. -/
def fieldsOfMembers (fields : List Field) :
    List (Option String × Json) → Fields → Except JsonFault Fields
  | [], found => .ok found
  | (none, _) :: _, _ => .error .malformed
  | (some name, j) :: ms, found =>
    match fields.find? (·.name == name) with
    | none => if j.isIntact then fieldsOfMembers fields ms found else .error .malformed
    | some f =>
      if (found.lookup name).isSome then
        .error .malformed
      else
        match f.accepts j with
        | .error fault => .error fault
        | .ok () => fieldsOfMembers fields ms (found ++ [(name, j)])

/-- Goes through the items of an array in order. -/
def fieldsOfItems : List Field → List Json → Except JsonFault Fields
  | fields, [] => if fields.all (·.hasDefault) then .ok [] else .error .malformed
  | [], _ :: _ => .error .malformed
  | f :: fields, j :: js =>
    match f.accepts j with
    | .error fault => .error fault
    | .ok () => (fieldsOfItems fields js).map ((f.name, j) :: ·)

/-- The fields that a value gives to a record. -/
def asFields (known : List Field) : Decoder Fields
  | object members => fieldsOfMembers known members []
  | array items => fieldsOfItems known items
  | _ => .error .malformed

/-- The value of a field that has to be there. -/
def Fields.required {α : Type} (fs : Fields) (name : String) (decode : Decoder α) :
    Except JsonFault α :=
  match fs.lookup name with
  | some j => decode j
  | none => .error .malformed

/-- The value of a field, or another value if it is not there. -/
def Fields.getD {α : Type} (fs : Fields) (name : String) (decode : Decoder α) (default : α) :
    Except JsonFault α :=
  match fs.lookup name with
  | some j => decode j
  | none => .ok default

/-! ## Texts -/

/-- The value that a text stands for; only blanks may follow its JSON. -/
def decode {α : Type} (decoder : Decoder α) (s : String) : Except JsonFault α :=
  match parse s with
  | (j, rest) =>
    match decoder j, rest.map skipSpace with
    | .error fault, _ => .error fault
    | .ok a, some [] => .ok a
    | .ok _, _ => .error .malformed

end PeerBook.Json
