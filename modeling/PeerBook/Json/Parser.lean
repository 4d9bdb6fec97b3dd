import PeerBook.Json.Basic
import PeerBook.Text.Hex

/-!
# PeerBook.Json.Parser

Reading JSON text. Blanks are the space, the tab, the line feed and the
carriage return. Numbers have no leading zeros; strings hold no control
character below the space. Reading never fails as a whole: where a text goes
wrong its tree has `broken`, and no rest is given back.

The readers of literals are structurally recursive in the text. Values nest, so
their readers have an argument that bounds the depth; `Json.parse` gives them
the length of the text, and `Json.depth_le_length` shows that this is enough for
everything that was written here.
-/

namespace PeerBook.Json

/-! ## Literals -/

/-- Whether a character may stand between the parts of a value. -/
def isSpace (c : Char) : Bool := c == ' ' || c == '\n' || c == '\t' || c == '\r'

/-- What follows the blanks at the front. -/
def skipSpace (cs : List Char) : List Char := cs.dropWhile isSpace

/-- The code unit that four hexadecimal digits name. -/
def codeUnit? (a b c d : Char) : Option Nat := do
  let a ← Text.Hex.digit? a
  let b ← Text.Hex.digit? b
  let c ← Text.Hex.digit? c
  let d ← Text.Hex.digit? d
  return ((a.val * 16 + b.val) * 16 + c.val) * 16 + d.val

/-- Whether a code unit is the first half of a surrogate pair. -/
def isHighSurrogate (u : Nat) : Bool := 0xD800 ≤ u && u ≤ 0xDBFF

/-- Whether a code unit is the second half of a surrogate pair. -/
def isLowSurrogate (u : Nat) : Bool := 0xDC00 ≤ u && u ≤ 0xDFFF

/-- The character of a surrogate pair. -/
def ofSurrogates (high low : Nat) : Char :=
  Char.ofNat (0x10000 + (high - 0xD800) * 0x400 + (low - 0xDC00))

/-- The character that a letter after a backslash stands for. -/
def unescape? (c : Char) : Option Char :=
  if c = '"' then some '"'
  else if c = '\\' then some '\\'
  else if c = '/' then some '/'
  else if c = 'b' then some '\x08'
  else if c = 'f' then some '\x0c'
  else if c = 'n' then some '\n'
  else if c = 'r' then some '\r'
  else if c = 't' then some '\t'
  else none

/-- A piece of a string literal: a character, or the code unit of an escape. -/
inductive Piece where
  | char (c : Char)
  | unit (u : Nat)

/-- Reads the pieces of a string after its opening quote. -/
def pieces : List Char → Option (List Piece × List Char)
  | [] => none
  | '"' :: cs => some ([], cs)
  | '\\' :: 'u' :: a :: b :: c :: d :: cs =>
    match codeUnit? a b c d with
    | none => none
    | some u => (pieces cs).map fun (ps, rest) => (.unit u :: ps, rest)
  | '\\' :: c :: cs =>
    match unescape? c with
    | none => none
    | some c => (pieces cs).map fun (ps, rest) => (.char c :: ps, rest)
  | c :: cs =>
    if c.toNat < 0x20 then none else (pieces cs).map fun (ps, rest) => (.char c :: ps, rest)

/-- The characters of the pieces; half a surrogate pair has none. -/
def assemble : List Piece → Option (List Char)
  | [] => some []
  | .char c :: ps => (assemble ps).map (c :: ·)
  | .unit u :: .unit v :: ps =>
    if isHighSurrogate u then
      if isLowSurrogate v then (assemble ps).map (ofSurrogates u v :: ·) else none
    else if isLowSurrogate u then none
    else (assemble (.unit v :: ps)).map (Char.ofNat u :: ·)
  | .unit u :: ps =>
    if isHighSurrogate u || isLowSurrogate u then none else (assemble ps).map (Char.ofNat u :: ·)

/-- Reads a string after its opening quote, and its text if it has one. -/
def stringValue (cs : List Char) : Option (Option String × List Char) :=
  (pieces cs).map fun (ps, rest) => ((assemble ps).map String.ofList, rest)

/-- Reads at least one digit. -/
def digits? (cs : List Char) : Option (List Char × List Char) :=
  match cs.takeWhile Char.isDigit with
  | [] => none
  | ds => some (ds, cs.dropWhile Char.isDigit)

/-- Reads digits without a leading zero. -/
def integer? (cs : List Char) : Option (Nat × List Char) :=
  match digits? cs with
  | some ('0' :: _ :: _, _) => none
  | some (ds, rest) => some (Nat.ofDigitChars 10 ds 0, rest)
  | none => none

/-- Reads a fraction, if there is one, and tells whether there was. -/
def fraction? : List Char → Option (Bool × List Char)
  | '.' :: cs => (digits? cs).map fun (_, rest) => (true, rest)
  | cs => some (false, cs)

/-- What follows a sign, if there is one. -/
def skipSign : List Char → List Char
  | '+' :: cs => cs
  | '-' :: cs => cs
  | cs => cs

/-- Reads an exponent, if there is one, and tells whether there was. -/
def exponent? : List Char → Option (Bool × List Char)
  | 'e' :: cs => (digits? (skipSign cs)).map fun (_, rest) => (true, rest)
  | 'E' :: cs => (digits? (skipSign cs)).map fun (_, rest) => (true, rest)
  | cs => some (false, cs)

/-- Reads a number without a minus sign. -/
def unsigned? (cs : List Char) : Option (Option Nat × List Char) := do
  let (n, cs) ← integer? cs
  let (hasFraction, cs) ← fraction? cs
  let (hasExponent, cs) ← exponent? cs
  return (if hasFraction || hasExponent then none else some n, cs)

/-- Reads a number. -/
def number? : List Char → Option (Option Nat × List Char)
  | '-' :: cs => (unsigned? cs).map fun (_, rest) => (none, rest)
  | cs => unsigned? cs

/-! ## Values -/

/-- A part of a text that was read, and what follows it unless the text went wrong. -/
abbrev Parsed (α : Type) := α × Option (List Char)

/-- Reads the rest of a word. -/
def word (rest : String) (value : Json) (cs : List Char) : Parsed Json :=
  if rest.toList.isPrefixOf cs then (value, some (cs.drop rest.toList.length)) else (broken, none)

/-- A value that was read, or a broken one. -/
def valueOf {α : Type} (make : α → Json) : Option (α × List Char) → Parsed Json
  | some (a, rest) => (make a, some rest)
  | none => (broken, none)

mutual

/-- Reads a value. The first argument bounds the depth; the length of the text is enough. -/
def value : Nat → List Char → Parsed Json
  | 0, _ => (broken, none)
  | n + 1, cs =>
    match skipSpace cs with
    | 'n' :: cs => word "ull" null cs
    | 't' :: cs => word "rue" (bool true) cs
    | 'f' :: cs => word "alse" (bool false) cs
    | '"' :: cs => valueOf string (stringValue cs)
    | '[' :: cs =>
      match skipSpace cs with
      | ']' :: cs => (array [], some cs)
      | cs => let (items, rest) := items n cs; (array items, rest)
    | '{' :: cs =>
      match skipSpace cs with
      | '}' :: cs => (object [], some cs)
      | cs => let (members, rest) := members n cs; (object members, rest)
    | cs => valueOf number (number? cs)

/-- Reads the items of an array from the first one on. -/
def items : Nat → List Char → Parsed (List Json)
  | 0, _ => ([broken], none)
  | n + 1, cs =>
    match value n cs with
    | (j, none) => ([j], none)
    | (j, some cs) =>
      match skipSpace cs with
      | ',' :: cs => let (js, rest) := items n cs; (j :: js, rest)
      | ']' :: cs => ([j], some cs)
      | _ => ([j, broken], none)

/-- Reads the members of an object from the first one on. -/
def members : Nat → List Char → Parsed (List (Option String × Json))
  | 0, _ => ([(none, broken)], none)
  | n + 1, cs =>
    match skipSpace cs with
    | '"' :: cs =>
      match stringValue cs with
      | none => ([(none, broken)], none)
      | some (name, cs) =>
        match skipSpace cs with
        | ':' :: cs =>
          match value n cs with
          | (j, none) => ([(name, j)], none)
          | (j, some cs) =>
            match skipSpace cs with
            | ',' :: cs => let (ms, rest) := members n cs; ((name, j) :: ms, rest)
            | '}' :: cs => ([(name, j)], some cs)
            | _ => ([(name, j), (none, broken)], none)
        | _ => ([(name, broken)], none)
    | _ => ([(none, broken)], none)

end

/-- Reads a value from the front of a text. -/
def parse (s : String) : Parsed Json :=
  value (2 * s.length + 2) s.toList

end PeerBook.Json
