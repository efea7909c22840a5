import Sweep.Machine
/-!
# Surveys

A survey describes a machine, a fact on each line. The fields of a line are separated by blanks, as
in a table of mounts; a byte that does not fit into a field is written as a backslash and three octal
digits. Facts are `directory PATH`, `locked PATH` for a directory that may not be opened,
`file PATH`, `file PATH CONTENT`, `link PATH TARGET`, `here PATH` for the directory that the program
runs in, `mount DEVICE POINT TYPE` and, for removable devices, `removable DEVICE POINT TYPE`. Other
lines are passed over.
-/

namespace Sweep.Survey

/-- The texts between the blanks. -/
def fields : Text → List Text
  | [] => [[]]
  | c :: t =>
    if c = ' ' then [] :: fields t
    else match fields t with
      | [] => [[c]]
      | f :: fs => (c :: f) :: fs

/-- An octal digit. -/
def octal? (c : Char) : Option Nat :=
  if '0' ≤ c ∧ c ≤ '7' then some (c.toNat - '0'.toNat) else none

/-- The byte of three octal digits. -/
def octalByte? (a b c : Char) : Option UInt8 := do
  let high ← octal? a
  let middle ← octal? b
  let low ← octal? c
  let n := high * 64 + middle * 8 + low
  if n < 256 then some (UInt8.ofNat n) else none

/-- The bytes that a field stands for. -/
def value : Text → List UInt8
  | '\\' :: a :: b :: c :: t =>
    match octalByte? a b c with
    | some byte => byte :: value t
    | none => Text.bytes ['\\'] ++ value (a :: b :: c :: t)
  | c :: t => Text.bytes [c] ++ value t
  | [] => []

/-- The path that a field stands for. -/
def path (field : Text) : Path := ⟨value field⟩

/-- The text that a field stands for. -/
def text (field : Text) : Text := Utf8.lenient (value field)

/-- The machine with one more fact. -/
def learn (m : Machine) (line : Text) : Machine :=
  match fields line with
  | [] => m
  | kind :: rest =>
    match String.ofList kind, rest with
    | "directory", [p] => { m with tree := m.tree.putAt (path p) .empty }
    | "locked", [p] => { m with tree := m.tree.putAt (path p) .locked }
    | "file", [p] => { m with tree := m.tree.putAt (path p) (.file []) }
    | "file", [p, content] => { m with tree := m.tree.putAt (path p) (.file (value content)) }
    | "link", [p, target] => { m with tree := m.tree.putAt (path p) (.link (path target)) }
    | "here", [p] => { m with tree := m.tree.putAt (path p) .empty, directory := path p }
    | "mount", [device, point, type] =>
      { m with mounts := m.mounts ++ [.classified (text device) (path point) (text type) false] }
    | "removable", [device, point, type] =>
      { m with mounts := m.mounts ++ [.classified (text device) (path point) (text type) true] }
    | _, _ => m

/-- The machine that the lines of a survey describe. -/
def machine (lines : List Text) : Machine := lines.foldl learn {}

end Sweep.Survey
