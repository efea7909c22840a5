import Sweep.Text.Search
import Sweep.Toml.Literal
/-!
# Written strings and lists

How a string is written: between double quotes if it can stand there as it is, else between single
quotes, else over several lines, and with escapes only if nothing else will do.
-/

namespace Sweep.Toml.Written

/-- What the choice of quotes hangs on. -/
def hasBreak (t : Text) : Bool := t.contains '\n'

/-- Whether the text holds a control character that only an escape can write. -/
def hasControl (t : Text) : Bool := t.any fun c => isControl c && c != '\t' && c != '\n'

/-- Whether the text holds a run of three of these quotes. -/
def hasTriple (quote : Char) (t : Text) : Bool := Text.isWithin [quote, quote, quote] t

/-- Four hexadecimal digits of a number. -/
def fourDigits (n : Nat) : Text :=
  [n / 4096 % 16, n / 256 % 16, n / 16 % 16, n % 16].map fun d => (Nat.digitChar d).toUpper

/-- A character between double quotes, quotes and line breaks apart. -/
def escaped (c : Char) : Text :=
  if c = '\x08' then ['\\', 'b']
  else if c = '\t' then ['\\', 't']
  else if c = '\x0c' then ['\\', 'f']
  else if c = '\r' then ['\\', 'r']
  else if c = '\\' then ['\\', '\\']
  else if isControl c then '\\' :: 'u' :: fourDigits c.toNat
  else [c]

/-- The text between double quotes on one line. -/
def onOneLine : Text → Text
  | [] => []
  | c :: t =>
    (if c = '"' then ['\\', '"'] else if c = '\n' then ['\\', 'n'] else escaped c) ++ onOneLine t

/-- The text between three double quotes, when `run` quotes stand directly before it: the third quote
of a run is escaped. -/
def onLines (run : Nat) : Text → Text
  | [] => []
  | c :: t =>
    if c = '"' then
      if run < 2 then c :: onLines (run + 1) t else '\\' :: '"' :: onLines 0 t
    else (if c = '\n' then [c] else escaped c) ++ onLines 0 t

/-- A line break after three opening quotes, if the text itself has one. -/
def opening (t : Text) : Text := if hasBreak t then ['\n'] else []

/-- Three of these quotes. -/
def triple (quote : Char) : Text := [quote, quote, quote]

/-- The string as it is written. -/
def string (t : Text) : Text :=
  if !hasBreak t && !hasControl t && !t.contains '"' && !t.contains '\\' then
    '"' :: (onOneLine t ++ ['"'])
  else if !hasBreak t && !hasControl t && !t.contains '\'' then
    '\'' :: (t ++ ['\''])
  else if !hasControl t && !t.contains '\\' && !hasTriple '"' t then
    triple '"' ++ opening t ++ onLines 0 t ++ triple '"'
  else if !hasControl t && !hasTriple '\'' t then
    triple '\'' ++ opening t ++ t ++ triple '\''
  else if hasBreak t then
    triple '"' ++ opening t ++ onLines 0 t ++ triple '"'
  else '"' :: (onOneLine t ++ ['"'])

/-- A list of strings: up to one on one line, more on a line each. -/
def strings : List Text → Text
  | [] => ['[', ']']
  | [t] => '[' :: (string t ++ [']'])
  | ts => ['[', '\n'] ++ ts.flatMap (fun t => "    ".toList ++ string t ++ [',', '\n']) ++ [']']

/-- A truth value. -/
def boolean (b : Bool) : Text := if b then "true".toList else "false".toList

/-- A key with its value, on a line of its own. -/
def line (key : String) (value : Text) : Text := key.toList ++ " = ".toList ++ value ++ ['\n']

/-- The header of a table, on a line of its own. -/
def header (key : String) : Text := '[' :: (key.toList ++ [']', '\n'])

end Sweep.Toml.Written
