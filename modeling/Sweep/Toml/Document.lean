import Sweep.Toml.Statement
/-!
# TOML documents

A document is a table of items: values, tables and lists of tables. `ofStatements?` puts it together
from statements. A table is made by its own header, by a header of something in it, or by keys with
dots; which of these decides what may still be added to it. Each table that a header made remembers
which header of the document it was.
-/

namespace Sweep.Toml

/-- How a table came about. -/
inductive Origin where
  /-- By a header of its own. -/
  | header
  /-- By the header of something in it. -/
  | implied
  /-- By keys with dots, or by the header of something in it and then used by keys with dots. -/
  | dotted
  deriving DecidableEq, Repr

/-- What stands behind a key of a document. -/
inductive Item where
  | value (v : Value)
  /-- A table, the number of its header if it has one, and its entries. -/
  | table (origin : Origin) (place : Option Nat) (entries : List (Key × Item))
  /-- A list of tables, each with the number of its header; the latest comes first. -/
  | tables (elements : List (Nat × List (Key × Item)))
  deriving Repr

/-- The entries of a table in the order in which they were added. -/
abbrev Entries := List (Key × Item)

/-- The document itself is a table. -/
abbrev Document := Entries

namespace Document

/-- Changes the entries of the latest table of a list. -/
def alterLatest (f : Entries → Option Entries) :
    List (Nat × Entries) → Option (List (Nat × Entries))
  | [] => none
  | (place, es) :: ts => (f es).map fun es => (place, es) :: ts

/-- Changes the entries of the table at a path that a header gives. Tables on the way are made; of a
list of tables the latest is meant. -/
def within (path : List Key) (f : Entries → Option Entries) (es : Entries) : Option Entries :=
  match path with
  | [] => f es
  | k :: path => alter k (fun old => match old with
      | none => (within path f []).map (.table .implied none)
      | some (.table origin place sub) => (within path f sub).map (.table origin place)
      | some (.tables ts) => (alterLatest (within path f) ts).map .tables
      | some (.value _) => none) es

/-- Makes the table of a header. A table that headers inside it made before is taken over; any other
item in its place is a fault. -/
def openTable (place : Nat) (key : Key) (es : Entries) : Option Entries :=
  alter key (fun old => match old with
    | none => some (.table .header (some place) [])
    | some (.table .implied _ sub) => some (.table .header (some place) sub)
    | some _ => none) es

/-- Makes a new table in a list of tables. -/
def openElement (place : Nat) (key : Key) (es : Entries) : Option Entries :=
  alter key (fun old => match old with
    | none => some (.tables [(place, [])])
    | some (.tables ts) => some (.tables ((place, []) :: ts))
    | some _ => none) es

/-- Assigns a value at a path of keys in the table of the last header. A key is given once. Keys
with dots lead into tables without a header, which from then on are theirs, and on through the
latest table of a list; a table with a header takes no value from them. -/
def assign (path : List Key) (key : Key) (v : Value) (es : Entries) : Option Entries :=
  match path with
  | [] => alter key (fun old => if old.isNone then some (.value v) else none) es
  | k :: path => alter k (fun old => match old with
      | none => (assign path key v []).map (.table .dotted none)
      | some (.table .header _ _) => none
      | some (.table _ place sub) => (assign path key v sub).map (.table .dotted place)
      | some (.tables ts) =>
        if path = [] then none else (alterLatest (assign path key v) ts).map .tables
      | some (.value _) => none) es

/-- Adds statements to a document in which the last header, the `place`-th, gave the path. -/
def addStatements (path : List Key) (place : Nat) (doc : Document) :
    List Statement → Option Document
  | [] => some doc
  | .header p :: rest =>
    match splitPath? p with
    | none => none
    | some (way, key) =>
      match within way (openTable (place + 1) key) doc with
      | none => none
      | some doc => addStatements p (place + 1) doc rest
  | .element p :: rest =>
    match splitPath? p with
    | none => none
    | some (way, key) =>
      match within way (openElement (place + 1) key) doc with
      | none => none
      | some doc => addStatements p (place + 1) doc rest
  | .assign p v :: rest =>
    match splitPath? p with
    | none => none
    | some (way, key) =>
      match within path (assign way key v) doc with
      | none => none
      | some doc => addStatements path place doc rest

/-- The document of some statements, unless a key or table is given twice or a path is too long. -/
def ofStatements? (ss : List Statement) : Option Document := addStatements [] 0 [] ss

/-- Reads a document. -/
def parse? (t : Text) : Option Document := (Statement.list? t).bind ofStatements?

end Document

/-! ## Items as values -/

mutual

/-- The item as a value: tables become tables between braces. -/
def Item.toValue : Item → Value
  | .value v => v
  | .table _ _ es => .table false (entriesToValues es)
  | .tables ts => .array (elementsToValues ts).reverse

/-- The entries with values in place of items. -/
def entriesToValues : Entries → List (Key × Value)
  | [] => []
  | (k, item) :: es => (k, item.toValue) :: entriesToValues es

/-- The tables of a list as values, in the order of the list. -/
def elementsToValues : List (Nat × Entries) → List Value
  | [] => []
  | (_, es) :: ts => .table false (entriesToValues es) :: elementsToValues ts

end

/-- The document as a value. -/
def Document.toValue (doc : Document) : Value := .table false (entriesToValues doc)

end Sweep.Toml
