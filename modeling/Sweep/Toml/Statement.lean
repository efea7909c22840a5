import Sweep.Toml.Literal
import Sweep.Toml.Scalar
/-!
# Statements of a TOML document

A document is a list of statements, each on lines of its own: headers, which say in what table the
next keys are, and assignments of values to keys. `Statement.list?` reads a document.
-/

namespace Sweep.Toml

/-- What stands on a line. Keys with dots are paths. -/
inductive Statement where
  /-- The keys that follow are in the table of this path. -/
  | header (path : List Key)
  /-- The keys that follow are in a new table at the end of the list at this path. -/
  | element (path : List Key)
  | assign (path : List Key) (v : Value)
  deriving Repr

/-! ## Space between the parts -/

/-- The text without blanks at its start. -/
def skipBlanks (t : Text) : Text := t.dropWhile isBlank

/-- The text without a comment at its start. -/
def skipComment : Text → Text
  | '#' :: t => t.dropWhile isPlain
  | t => t

/-- What follows the end of a line, which blanks and a comment may precede. -/
def afterLine? (t : Text) : Option Text :=
  match skipComment (skipBlanks t) with
  | [] => some []
  | t => afterBreak? t

/-- The text without blanks, line breaks and comments at its start; `inComment` tells that it starts
inside a comment. -/
def skipGapsFrom (inComment : Bool) : Text → Text
  | [] => []
  | c :: t =>
    if inComment && isPlain c then skipGapsFrom true t
    else if isBlank c || Literal.isBreak c t then skipGapsFrom false t
    else if c == '#' then skipGapsFrom true t
    else c :: t

/-- The text without blanks, line breaks and comments at its start. -/
def skipGaps (t : Text) : Text := skipGapsFrom false t

/-! ## Keys -/

/-- A character of a key without quotes. -/
def isBareKeyChar (c : Char) : Bool := c.isAlphanum || c == '_' || c == '-'

/-- Reads one key. -/
def key? (t : Text) : Option (Key × Text) :=
  match t.takeWhile isBareKeyChar with
  | [] => (Literal.readKey? t).map fun (k, t) => (String.ofList k, t)
  | k => some (String.ofList k, t.dropWhile isBareKeyChar)

/-- Reads keys with dots between them, and the blanks after them; there is a key for each character
of `bound` at most. -/
def keys? (bound t : Text) : Option (List Key × Text) :=
  match bound with
  | [] => none
  | _ :: bound =>
    match key? (skipBlanks t) with
    | none => none
    | some (k, t) =>
      match skipBlanks t with
      | '.' :: t => (keys? bound t).map fun (ks, t) => (k :: ks, t)
      | t => some ([k], t)

/-- Reads a path of keys, each of which has a character. -/
def path? (t : Text) : Option (List Key × Text) := keys? t t

/-! ## Values -/

/-- Reads items with commas between them up to a closing character; a comma may follow the last.
There is an item, or the closing character, for each character of `bound` at most. -/
def items? {α : Type} (close : Char) (item : Text → Option (α × Text)) (bound t : Text) :
    Option (List α × Text) :=
  match bound with
  | [] => none
  | _ :: bound =>
    match skipGaps t with
    | [] => none
    | c :: t =>
      if c = close then some ([], t)
      else
        match item (c :: t) with
        | none => none
        | some (x, t) =>
          match skipGaps t with
          | [] => none
          | d :: t =>
            if d = ',' then (items? close item bound t).map fun (xs, t) => (x :: xs, t)
            else if d = close then some ([x], t)
            else none

/-- Reads a path of keys, an equals sign and a value; `skip` drops what may stand around the
sign. -/
def pair? (skip : Text → Text) (value : Text → Option (Value × Text)) (t : Text) :
    Option ((List Key × Value) × Text) :=
  match path? t with
  | none => none
  | some (path, t) =>
    match skip t with
    | '=' :: t => (value (skip t)).map fun (v, t) => ((path, v), t)
    | _ => none

/-- Reads a value whose brackets and braces are nested no deeper than `depth`. -/
def valueWithin? (depth : Nat) (t : Text) : Option (Value × Text) :=
  match depth, t with
  | depth + 1, '[' :: t =>
    (items? ']' (valueWithin? depth) t t).map fun (vs, t) => (.array vs, t)
  | depth + 1, '\x7b' :: t =>
    match items? '\x7d' (pair? skipGaps (valueWithin? depth)) t t with
    | some (pairs, t) => (Value.ofPairs? pairs).map fun v => (v, t)
    | none => none
  | _, '"' :: t => (Literal.read? ('"' :: t)).map fun (s, t) => (.string s, t)
  | _, '\'' :: t => (Literal.read? ('\'' :: t)).map fun (s, t) => (.string s, t)
  | _, t => Scalar.read? t
termination_by structural depth

/-- Reads a value. -/
def value? (t : Text) : Option (Value × Text) := valueWithin? depthLimit t

/-! ## Statements -/

namespace Statement

/-- Reads one statement. -/
def read? (t : Text) : Option (Statement × Text) :=
  match t with
  | '[' :: '[' :: t =>
    match path? t with
    | some (path, ']' :: ']' :: t) => some (.element path, t)
    | _ => none
  | '[' :: t =>
    match path? t with
    | some (path, ']' :: t) => some (.header path, t)
    | _ => none
  | t => (pair? skipBlanks value? t).map fun ((path, v), t) => (.assign path v, t)

/-- Reads statements, each on lines of its own, up to the end of the text; there is a line for each
character of `bound` at most. -/
def lines? (bound t : Text) : Option (List Statement) :=
  match t, bound with
  | [], _ => some []
  | _, [] => none
  | t, _ :: bound =>
    match afterLine? t with
    | some t => lines? bound t
    | none =>
      match read? (skipBlanks t) with
      | none => none
      | some (s, t) =>
        match afterLine? t with
        | some t => (lines? bound t).map (s :: ·)
        | none => none

/-- The statements of a document, which a byte order mark may precede. -/
def list? (t : Text) : Option (List Statement) :=
  let t := if t.head? = some '\uFEFF' then t.tail else t
  lines? t t

end Statement

end Sweep.Toml
