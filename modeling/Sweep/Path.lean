import Sweep.Text.Quoted
import Sweep.Text.Utf8
/-!
# Paths

A path is the bytes it is written with. Two paths are the same when their components are: repeated
and trailing separators and inner dots do not count, a step upward and a leading dot do. `normal` is
the shortest spelling with the same components, and one path is under another when the components
of the second begin those of the first.
-/

namespace Sweep

/-- A component of a path: the root, a leading dot, or a name. -/
inductive Component where
  | root
  | here
  | name (bytes : List UInt8)
  deriving DecidableEq, Repr

/-- What a component contributes to a spelling; the root is the empty name in front. -/
def Component.spelling : Component → List UInt8
  | .root => []
  | .here => [0x2E]
  | .name n => n

/-- A file path in one of its spellings. -/
structure Path where
  bytes : List UInt8
  deriving DecidableEq, Repr

namespace Path

/-- The separator of names. -/
def slash : UInt8 := 0x2F

/-- The name of a directory in itself. -/
def dot : List UInt8 := [0x2E]

/-- The name of the parent of a directory. -/
def dotDot : List UInt8 := [0x2E, 0x2E]

/-- The path that a text spells. -/
def ofText (t : Text) : Path := ⟨t.bytes⟩

/-- The top of the file tree. -/
def root : Path := ⟨[slash]⟩

/-- Whether the path starts at the root. -/
def isAbsolute (p : Path) : Bool := p.bytes.head? == some slash

/-- The bytes between the separators. -/
def segments : List UInt8 → List (List UInt8)
  | [] => [[]]
  | b :: bs =>
    if b = slash then [] :: segments bs
    else match segments bs with
      | [] => [[b]]
      | s :: ss => (b :: s) :: ss

/-- The segments that name something. -/
def names (ss : List (List UInt8)) : List Component :=
  (ss.filter fun s => s ≠ [] && s ≠ dot).map .name

/-- The components of a path. -/
def components (p : Path) : List Component :=
  let ss := segments p.bytes
  if p.isAbsolute then .root :: names ss
  else if ss.head? = some dot then .here :: names ss
  else names ss

/-- The names with a separator between each two of them. -/
def joinNames : List (List UInt8) → List UInt8
  | [] => []
  | [n] => n
  | n :: m :: ns => n ++ slash :: joinNames (m :: ns)

/-- The shortest spelling of a list of components. -/
def ofComponents (cs : List Component) : Path :=
  if cs = [.root] then root else ⟨joinNames (cs.map Component.spelling)⟩

/-- The shortest spelling of the same path. -/
def normal (p : Path) : Path := ofComponents p.components

/-- Whether two spellings have the same components. -/
def same (p q : Path) : Bool := p.components == q.components

/-- Whether the path is the other one or lies below it. -/
def isUnder (p q : Path) : Bool := q.components.isPrefixOf p.components

/-- The path of an entry of the directory. -/
def child (p : Path) (name : List UInt8) : Path :=
  if p.bytes = [] then ⟨name⟩
  else if p.bytes.getLast? = some slash then ⟨p.bytes ++ name⟩
  else ⟨p.bytes ++ slash :: name⟩

/-- The path as it is meant in a directory; the empty path means nothing there. -/
def within (p dir : Path) : Path :=
  if p.isAbsolute || p.bytes.isEmpty then p else dir.child p.bytes

/-- Length of the spelling in bytes. -/
def byteLength (p : Path) : Nat := p.bytes.length

/-- How many bytes of a path the system takes. -/
def lengthLimit : Nat := 4095

/-- Whether the system takes the path; it counts the spelling, not what the spelling means. -/
def fits (p : Path) : Bool := p.byteLength ≤ lengthLimit

/-- The lenient reading of the spelling. -/
def text (p : Path) : Text := Utf8.lenient p.bytes

/-- The strict reading of the spelling. -/
def text? (p : Path) : Option Text := Utf8.strict? p.bytes

/-- A byte given by its number. -/
def quotedByte (b : UInt8) : Text :=
  ['\\', 'x'] ++ [b.toNat / 16, b.toNat % 16].map fun d => (Nat.digitChar d).toUpper

/-- The path between double quotes; bytes that are no text are given by number. -/
def quoted (p : Path) : Text :=
  let shown : Utf8.Piece → Text
    | .char c => Text.quotedChar c
    | .broken bs => bs.flatMap quotedByte
  '"' :: ((Utf8.pieces p.bytes).flatMap shown ++ ['"'])

@[simp] theorem same_self (p : Path) : p.same p = true := by simp [same]

theorem same_iff {p q : Path} : p.same q = true ↔ p.components = q.components := by simp [same]

theorem isUnder_iff {p q : Path} : p.isUnder q = true ↔ q.components <+: p.components := by
  simp [isUnder]

theorem fits_iff {p : Path} : p.fits = true ↔ p.bytes.length ≤ lengthLimit :=
  decide_eq_true_iff

@[simp] theorem isUnder_self (p : Path) : p.isUnder p = true := by simp [isUnder_iff]

end Path

end Sweep
