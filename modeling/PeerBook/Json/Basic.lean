/-!
# PeerBook.Json.Basic

JSON values as this library reads and writes them. The members of an object
keep their order and may repeat a name. Two literals have no value in the
library's terms: a string whose escapes name half a surrogate pair, and a
number with a sign, a fraction or an exponent; both are allowed where a member
is passed over. A text that breaks off or goes wrong still has a tree: what was
read before the fault, and `broken` at its place, so a reader that walks the
tree in order meets faults in the order of the text.

`Json.isIntact` tells a tree without a fault. `Json.isPlain` asks more: that
every literal has a value, too, which holds of everything that the library
writes and is what `Json.parse_compact` needs to read it back.
-/

namespace PeerBook

/-- A JSON value, possibly of a text that breaks off. -/
inductive Json where
  | null
  | bool (b : Bool)
  | number (value : Option Nat)
  | string (value : Option String)
  | array (items : List Json)
  | object (members : List (Option String × Json))
  | broken

namespace Json

instance : Inhabited Json := ⟨null⟩

/-- A natural number. -/
def nat (n : Nat) : Json := number (some n)

/-- A string. -/
def text (s : String) : Json := string (some s)

/-- An object of the named members that are present. -/
def record (members : List (String × Option Json)) : Json :=
  object (members.filterMap fun (name, value) => value.map fun j => (some name, j))

mutual

/-- Whether no part of the tree is broken. -/
def isIntact : Json → Bool
  | broken => false
  | array items => areIntact items
  | object members => membersAreIntact members
  | _ => true

/-- Whether no part of any item is broken. -/
def areIntact : List Json → Bool
  | [] => true
  | j :: js => isIntact j && areIntact js

/-- Whether no part of any member is broken. -/
def membersAreIntact : List (Option String × Json) → Bool
  | [] => true
  | (_, j) :: ms => isIntact j && membersAreIntact ms

end

mutual

/-- Whether every string has a text and every number a value, and nothing is broken. -/
def isPlain : Json → Bool
  | null => true
  | bool _ => true
  | number n => n.isSome
  | string s => s.isSome
  | array items => arePlain items
  | object members => membersArePlain members
  | broken => false

/-- Whether all items are plain. -/
def arePlain : List Json → Bool
  | [] => true
  | j :: js => isPlain j && arePlain js

/-- Whether all members are plain. -/
def membersArePlain : List (Option String × Json) → Bool
  | [] => true
  | (name, j) :: ms => name.isSome && isPlain j && membersArePlain ms

end

end Json

end PeerBook
