import Recency.Text.Hex
import Recency.Text.Unprintable
/-
  Recency.Text.Quoted — text between double quotes, with escapes.
-/

namespace Recency.Text

/-- Line ends, tabs, NUL, the quote and the backslash have short escapes; other characters
    without a shape of their own are written by their number. -/
def escape (c : Char) : String :=
  if c = '"' then "\\\""
  else if c = '\\' then "\\\\"
  else if c = '\n' then "\\n"
  else if c = '\t' then "\\t"
  else if c = '\r' then "\\r"
  else if c = '\x00' then "\\0"
  else if unprintable c then "\\u\x7b" ++ hex c.toNat ++ "\x7d"
  else c.toString

def quote (text : String) : String := "\"" ++ String.join (text.toList.map escape) ++ "\""

end Recency.Text
