import Sweep.Toml.Document
/-!
# Merging documents

A later document is laid over an earlier one. Tables are merged key by key and lists of tables are
joined; everything else, tables between braces too, takes the place of what was there.
-/

namespace Sweep.Toml

/-- Puts an item in the place of a key, or at the end. -/
def putItem (key : Key) (item : Item) : Entries → Entries
  | [] => [(key, item)]
  | (k, old) :: es => if k = key then (k, item) :: es else (k, old) :: putItem key item es

mutual

/-- The item that comes of laying a later one over the earlier `old`. -/
def Item.over (old : Option Item) : Item → Item
  | .value v => .value v
  | .table origin place es =>
    match old with
    | some (.table o p olds) => .table o p (overEntries olds es)
    | _ => .table origin place es
  | .tables ts =>
    match old with
    | some (.tables olds) => .tables (ts ++ olds)
    | _ => .tables ts

/-- The entries that come of laying later ones over the earlier `olds`. -/
def overEntries (olds : Entries) : Entries → Entries
  | [] => olds
  | (k, item) :: es => overEntries (putItem k (item.over (lookup k olds)) olds) es

end

/-- The document with a later one laid over it. -/
def Document.merge (doc later : Document) : Document := overEntries doc later

end Sweep.Toml
