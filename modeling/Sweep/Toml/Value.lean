import Sweep.Text
/-!
# Values of a TOML document

Numbers with a fraction and points of time are kept as they are written, as nothing here computes
with them.
-/

namespace Sweep.Toml

/-- What an entry of a table is found by. -/
abbrev Key := String

/-- A value that stands behind a key. -/
inductive Value where
  | string (t : Text)
  | integer (n : Int)
  | float (spelling : Text)
  | boolean (b : Bool)
  | moment (spelling : Text)
  | array (vs : List Value)
  /-- A table between braces; `dotted` tells that keys with dots made it, so they may add to it. -/
  | table (dotted : Bool) (entries : List (Key × Value))
  deriving Repr

/-- How many keys a path has at most, and how deep brackets and braces may be nested. -/
def depthLimit : Nat := 80

/-- The path without its last key, and that key, unless the path is too long. -/
def splitPath? (path : List Key) : Option (List Key × Key) :=
  if path.length ≤ depthLimit then path.getLast?.map fun key => (path.dropLast, key) else none

/-- What is written of a key in a list of entries. -/
def lookup {α : Type} (key : Key) : List (Key × α) → Option α
  | [] => none
  | (k, x) :: es => if k = key then some x else lookup key es

/-- Puts what `f` makes of the entry of a key in its place, or at the end if there was none. -/
def alter {α : Type} (key : Key) (f : Option α → Option α) :
    List (Key × α) → Option (List (Key × α))
  | [] => (f none).map fun x => [(key, x)]
  | (k, x) :: es =>
    if k = key then (f (some x)).map fun y => (k, y) :: es
    else (alter key f es).map ((k, x) :: ·)

namespace Value

/-- Adds a value at a path of keys to a table between braces. A key is given once, and only tables
that keys with dots made take further keys. -/
def addEntry (path : List Key) (key : Key) (v : Value) (es : List (Key × Value)) :
    Option (List (Key × Value)) :=
  match path with
  | [] => alter key (fun old => if old.isNone then some v else none) es
  | k :: path => alter k (fun old => match old with
      | none => (addEntry path key v []).map (.table true)
      | some (.table true sub) => (addEntry path key v sub).map (.table true)
      | some _ => none) es

/-- Adds values at their paths of keys, one after the other. -/
def addEntries (es : List (Key × Value)) : List (List Key × Value) → Option (List (Key × Value))
  | [] => some es
  | (path, v) :: pairs =>
    match splitPath? path with
    | none => none
    | some (path, key) =>
      match addEntry path key v es with
      | none => none
      | some es => addEntries es pairs

/-- The table between braces that holds these values at their paths of keys. -/
def ofPairs? (pairs : List (List Key × Value)) : Option Value :=
  (addEntries [] pairs).map (.table false)

end Value

end Sweep.Toml
