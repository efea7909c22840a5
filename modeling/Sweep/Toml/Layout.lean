import Sweep.Toml.Document
/-!
# Layout of documents

The statements that write a document down: first the values of the document itself, then each table
with the values in it. Tables stand in the order of the numbers of their headers; one without a
number follows the table before it. Values that keys with dots made are written with these keys. A
table that is only implied is left out unless it has values of its own.
-/

namespace Sweep.Toml

mutual

/-- The assignments that write the values of some entries, with the keys so far in front. -/
def Item.assignments (keys : List Key) : Item → List Statement
  | .value v => [.assign keys v]
  | .table .dotted _ es => entryAssignments keys es
  | .table _ _ _ | .tables _ => []

/-- The assignments of all entries. -/
def entryAssignments (keys : List Key) : Entries → List Statement
  | [] => []
  | (k, item) :: es => item.assignments (keys ++ [k]) ++ entryAssignments keys es

end

/-- Statements that belong together, and where they stand among others. -/
structure Section where
  place : Nat
  statements : List Statement

namespace Section

/-- The section of a table at a path. -/
def ofTable (place : Nat) (path : List Key) (origin : Origin) (es : Entries) : Section :=
  let values := entryAssignments [] es
  if origin = .implied ∧ values.isEmpty then ⟨place, []⟩ else ⟨place, .header path :: values⟩

/-- The section of a table in a list of tables. -/
def ofElement (place : Nat) (path : List Key) (es : Entries) : Section :=
  ⟨place, .element path :: entryAssignments [] es⟩

end Section

mutual

/-- The sections of an item at a path, when the section before stands at `last`, and where the last
of them stands. -/
def Item.sections (path : List Key) (last : Nat) : Item → List Section × Nat
  | .value _ => ([], last)
  | .table .dotted _ es => entrySections path last es
  | .table origin place es =>
    -- A table without a number stands where the table before it does.
    let here := place.getD last
    let (below, last) := entrySections path here es
    (Section.ofTable here path origin es :: below, last)
  | .tables [] => ([], last)
  | .tables ((place, es) :: earlier) =>
    let (below, last) := entrySections path place es
    (earlierSections path earlier (Section.ofElement place path es :: below), last)

/-- The sections of all entries of a table at a path. -/
def entrySections (path : List Key) (last : Nat) : Entries → List Section × Nat
  | [] => ([], last)
  | (k, item) :: es =>
    let (first, last) := item.sections (path ++ [k]) last
    let (others, last) := entrySections path last es
    (first ++ others, last)

/-- The sections of the earlier tables of a list at a path, in front of those of later ones. -/
def earlierSections (path : List Key) : List (Nat × Entries) → List Section → List Section
  | [], later => later
  | (place, es) :: earlier, later =>
    let below := (entrySections path place es).1
    earlierSections path earlier (Section.ofElement place path es :: (below ++ later))

end

namespace Document

/-- The sections of a document in the order in which they are written. -/
def sections (doc : Document) : List Section :=
  (⟨0, entryAssignments [] doc⟩ :: (entrySections [] 0 doc).1).mergeSort
    fun a b => a.place ≤ b.place

/-- The statements that write a document down. -/
def statements (doc : Document) : List Statement := doc.sections.flatMap (·.statements)

/-- The document that comes back when it is written down and read again. -/
def reread? (doc : Document) : Option Document := ofStatements? doc.statements

end Document

end Sweep.Toml
