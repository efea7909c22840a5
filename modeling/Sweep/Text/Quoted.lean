import Sweep.Text
import Sweep.Text.Printable
/-!
# Quoted text

How a text stands between double quotes in a message: the quote and the backslash are escaped, four
control characters have a letter, and every other character that is not printable is given by its
number.
-/

namespace Sweep.Text

/-- One character as it stands between quotes. -/
def quotedChar (c : Char) : Text :=
  if c = '\x00' then ['\\', '0']
  else if c = '\t' then ['\\', 't']
  else if c = '\r' then ['\\', 'r']
  else if c = '\n' then ['\\', 'n']
  else if c = '"' then ['\\', '"']
  else if c = '\\' then ['\\', '\\']
  else if isPrintable c then [c]
  else ['\\', 'u', '\x7b'] ++ Nat.toDigits 16 c.toNat ++ ['\x7d']

/-- The text between double quotes. -/
def quoted (t : Text) : Text :=
  '"' :: (t.flatMap quotedChar ++ ['"'])

end Sweep.Text
