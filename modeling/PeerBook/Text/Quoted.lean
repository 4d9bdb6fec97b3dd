import PeerBook.Text.Unprintable
import PeerBook.Text.Hex

/-!
# PeerBook.Text.Quoted

Texts between double quotes, as error messages cite what they refuse. Quotes
and backslashes are escaped, four control characters have short escapes, and
every other character that would not show is given by its code point.

Which characters would not show is in `PeerBook.Text.Unprintable`. Messages are
part of what an operation answers, so a text that was refused is cited the same
way wherever it is refused.
-/

namespace PeerBook.Text

/-- How a character is written inside quotes. -/
def quoteChar (c : Char) : String :=
  if c = '"' then "\\\""
  else if c = '\\' then "\\\\"
  else if c = '\n' then "\\n"
  else if c = '\r' then "\\r"
  else if c = '\t' then "\\t"
  else if c = '\x00' then "\\0"
  else if isUnprintable c then "\\u\x7b" ++ Hex.ofNat c.toNat ++ "\x7d"
  else c.toString

/-- The text between double quotes. -/
def quote (s : String) : String :=
  "\"" ++ String.join (s.toList.map quoteChar) ++ "\""

end PeerBook.Text
