import Sweep.Text
/-!
# Strings of a TOML document

A string stands between double quotes, with escapes, or between single quotes, as it is. Three quotes
in place of one let it go over several lines; a line break right after them does not count, and up
to two quotes may stand directly before those that end it.
-/

namespace Sweep.Toml

/-- A space or a tab. -/
def isBlank (c : Char) : Bool := c == ' ' || c == '\t'

/-- A control character of ASCII. -/
def isControl (c : Char) : Bool := c.toNat < 0x20 || c.toNat == 0x7F

/-- A character that may stand for itself in a string or comment on one line. -/
def isPlain (c : Char) : Bool := !isControl c || c == '\t'

/-- What follows the line break at the start of the text. -/
def afterBreak? : Text → Option Text
  | '\n' :: t => some t
  | '\r' :: '\n' :: t => some t
  | _ => none

/-- The text without a line break at its start. -/
def dropBreak (t : Text) : Text := (afterBreak? t).getD t

namespace Literal

/-- Puts a character in front of a string that was read. -/
def prepend (c : Char) (r : Option (Text × Text)) : Option (Text × Text) :=
  r.map fun (s, rest) => (c :: s, rest)

/-! ## Escapes -/

/-- The character of an escape of one letter. -/
def letter? (c : Char) : Option Char :=
  if c = 'b' then some '\x08'
  else if c = 't' then some '\t'
  else if c = 'n' then some '\n'
  else if c = 'f' then some '\x0c'
  else if c = 'r' then some '\r'
  else if c = 'e' then some '\x1b'
  else if c = '"' then some '"'
  else if c = '\\' then some '\\'
  else none

/-- How many digits an escape by number has. -/
def digitsAfter? (c : Char) : Option Nat :=
  if c = 'x' then some 2 else if c = 'u' then some 4 else if c = 'U' then some 8 else none

/-- The value of a hexadecimal digit. -/
def hexDigit? (c : Char) : Option Nat :=
  if '0' ≤ c ∧ c ≤ '9' then some (c.toNat - 48)
  else if 'a' ≤ c ∧ c ≤ 'f' then some (c.toNat - 87)
  else if 'A' ≤ c ∧ c ≤ 'F' then some (c.toNat - 55)
  else none

/-- The character of a number. -/
def charOf? (n : Nat) : Option Char := if n.isValidChar then some (Char.ofNat n) else none

/-! ## Between double quotes -/

/-- Where the reader stands between double quotes. -/
inductive Mode where
  /-- Outside an escape. -/
  | plain
  /-- After a backslash. -/
  | escape
  /-- In an escape by number, with this many digits to come and this number so far. -/
  | number (left : Nat) (code : Nat)
  /-- After a backslash and blanks, which a line break has to end. -/
  | lineEnd
  /-- After a backslash at the end of a line: blanks and line breaks are dropped. -/
  | trim
  deriving DecidableEq, Repr

/-- Whether the character and what follows begin a line break. -/
def isBreak (c : Char) (t : Text) : Bool :=
  c == '\n' || (c == '\r' && t.head? == some '\n')

/-- The quotes that end a string of several lines when its first is followed by `t`: how many more
quotes belong to the string, and what follows the end. -/
def closing? (quote : Char) (t : Text) : Option (Text × Text) :=
  match t with
  | a :: b :: t =>
    if a = quote ∧ b = quote then
      let extra := min 2 (t.takeWhile (· == quote)).length
      some (List.replicate extra quote, t.drop extra)
    else none
  | _ => none

/-- Reads up to the end of a string between double quotes: the string, and what follows it. -/
def quoted (multiline : Bool) : Mode → Text → Option (Text × Text)
  | _, [] => none
  | .escape, c :: t =>
    match letter? c, digitsAfter? c with
    | some d, _ => prepend d (quoted multiline .plain t)
    | none, some n => quoted multiline (.number n 0) t
    | none, none =>
      if !multiline then none
      else if c == '\n' then quoted multiline .trim t
      else if isBlank c || isBreak c t then quoted multiline .lineEnd t
      else none
  | .number left code, c :: t =>
    match hexDigit? c with
    | none => none
    | some d =>
      if 1 < left then quoted multiline (.number (left - 1) (code * 16 + d)) t
      else
        match charOf? (code * 16 + d) with
        | some e => prepend e (quoted multiline .plain t)
        | none => none
  | .lineEnd, c :: t =>
    if c == '\n' then quoted multiline .trim t
    else if isBlank c || isBreak c t then quoted multiline .lineEnd t
    else none
  | mode, c :: t =>
    if mode = .trim ∧ (isBlank c ∨ isBreak c t) then quoted multiline .trim t
    else if c == '\\' then quoted multiline .escape t
    else if c == '"' then
      if multiline then
        match closing? '"' t with
        | some r => some r
        | none => prepend c (quoted multiline .plain t)
      else some ([], t)
    else if isPlain c || (multiline && isBreak c t) then prepend c (quoted multiline .plain t)
    else none

/-! ## Between single quotes -/

/-- Reads up to the end of a string between single quotes: the string, and what follows it. -/
def verbatim (multiline : Bool) : Text → Option (Text × Text)
  | [] => none
  | c :: t =>
    if c == '\'' then
      if multiline then
        match closing? '\'' t with
        | some r => some r
        | none => prepend c (verbatim multiline t)
      else some ([], t)
    else if isPlain c || (multiline && isBreak c t) then prepend c (verbatim multiline t)
    else none

/-- Reads a string in any of its notations. -/
def read? : Text → Option (Text × Text)
  | '"' :: '"' :: '"' :: t => quoted true .plain (dropBreak t)
  | '"' :: t => quoted false .plain t
  | '\'' :: '\'' :: '\'' :: t => verbatim true (dropBreak t)
  | '\'' :: t => verbatim false t
  | _ => none

/-- Reads a string that may stand for a key. -/
def readKey? : Text → Option (Text × Text)
  | '"' :: t => quoted false .plain t
  | '\'' :: t => verbatim false t
  | _ => none

end Literal

end Sweep.Toml
