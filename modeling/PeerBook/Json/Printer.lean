import PeerBook.Json.Basic
import PeerBook.Text.Hex

/-!
# PeerBook.Json.Printer

The two written forms of a JSON value: the compact one, without any blank, and
the indented one, two spaces a level. In strings the quote, the backslash and
the control characters below the space are escaped, five of these by a letter;
everything else stands for itself.

Records in the storage have the compact form, the configuration and what a user
is shown the indented one. The functions on character lists do the work, since
the proofs of `PeerBook.Json.ReadBack` go through a text character by character.
-/

namespace PeerBook.Json

/-- How a character is written in a string. -/
def escapeChar (c : Char) : List Char :=
  if c = '"' then ['\\', '"']
  else if c = '\\' then ['\\', '\\']
  else if c = '\x08' then ['\\', 'b']
  else if c = '\x0c' then ['\\', 'f']
  else if c = '\n' then ['\\', 'n']
  else if c = '\r' then ['\\', 'r']
  else if c = '\t' then ['\\', 't']
  else if c.toNat < 0x20 then
    '\\' :: 'u' :: '0' :: '0' :: Text.Hex.encodeChars [UInt8.ofNat c.toNat]
  else [c]

/-- A string literal. -/
def stringChars (s : String) : List Char :=
  '"' :: (s.toList.flatMap escapeChar ++ ['"'])

/-- A string literal; half a surrogate pair stands for all that have no text. -/
def literalChars : Option String → List Char
  | some s => stringChars s
  | none => ['"', '\\', 'u', 'd', '8', '0', '0', '"']

/-- A number; minus zero stands for all that are no natural numbers. -/
def numberChars : Option Nat → List Char
  | some n => (toString n).toList
  | none => ['-', '0']

/-! ## The compact form -/

mutual

/-- A value without blanks. -/
def compactChars : Json → List Char
  | null => "null".toList
  | bool b => (if b then "true" else "false").toList
  | number n => numberChars n
  | string s => literalChars s
  | array items => '[' :: (compactItems items ++ [']'])
  | object members => '{' :: (compactMembers members ++ ['}'])
  | broken => []

/-- Items with commas between them. -/
def compactItems : List Json → List Char
  | [] => []
  | [j] => compactChars j
  | j :: js => compactChars j ++ ',' :: compactItems js

/-- Members with commas between them. -/
def compactMembers : List (Option String × Json) → List Char
  | [] => []
  | [(name, j)] => literalChars name ++ ':' :: compactChars j
  | (name, j) :: ms => literalChars name ++ ':' :: (compactChars j ++ ',' :: compactMembers ms)

end

/-- The compact form of a value. -/
def compact (j : Json) : String := String.ofList (compactChars j)

/-! ## The indented form -/

/-- A line break and the indentation of a level. -/
def newLine (level : Nat) : List Char := '\n' :: List.replicate (2 * level) ' '

mutual

/-- A value whose parts stand on lines of their own. -/
def prettyChars (level : Nat) : Json → List Char
  | array [] => ['[', ']']
  | array items => '[' :: (prettyItems (level + 1) items ++ newLine level ++ [']'])
  | object [] => ['{', '}']
  | object members => '{' :: (prettyMembers (level + 1) members ++ newLine level ++ ['}'])
  | null => "null".toList
  | bool b => (if b then "true" else "false").toList
  | number n => numberChars n
  | string s => literalChars s
  | broken => []

/-- Items on lines of their own, with commas between them. -/
def prettyItems (level : Nat) : List Json → List Char
  | [] => []
  | [j] => newLine level ++ prettyChars level j
  | j :: js => newLine level ++ prettyChars level j ++ ',' :: prettyItems level js

/-- Members on lines of their own, with commas between them. -/
def prettyMembers (level : Nat) : List (Option String × Json) → List Char
  | [] => []
  | [(name, j)] => newLine level ++ literalChars name ++ ':' :: ' ' :: prettyChars level j
  | (name, j) :: ms =>
    newLine level ++ literalChars name ++ ':' :: ' ' ::
      (prettyChars level j ++ ',' :: prettyMembers level ms)

end

/-- The indented form of a value. -/
def pretty (j : Json) : String := String.ofList (prettyChars 0 j)

end PeerBook.Json
