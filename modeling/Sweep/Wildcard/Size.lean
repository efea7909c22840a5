import Sweep.Wildcard.Mark
/-!
# Sizes of compiled patterns

A pattern is compiled part by part, and its size is the sum of the sizes of its parts. Patterns
that are matched together share the parts that all of them begin with, so these count once.
-/

namespace Sweep.Wildcard

/-- The largest size that a compiled pattern may have. -/
def sizeLimit : Nat := 1048576

/-- A part of a compiled pattern. -/
inductive Part where
  /-- Characters that stand for themselves, as many as stand together. -/
  | plain (t : Text)
  /-- One character other than the separator. -/
  | one
  /-- Any run of characters. -/
  | run
  /-- Nothing at all, or a separator and any run of characters. -/
  | below
  deriving DecidableEq, Repr

/-- A wildcard counts 1003, every other character 32 for each of its bytes. -/
def Part.size : Part → Nat
  | .plain t => 32 * t.byteLength
  | .one | .run => 1003
  | .below => 32 + 1003

/-- The parts with one more mark in front of them. -/
def consMark : Mark → List Part → List Part
  | .run, ps => .run :: ps
  | .one, ps => .one :: ps
  | .char c, .plain t :: ps => .plain (c :: t) :: ps
  | .char c, ps => .plain [c] :: ps

/-- The parts that the marks are compiled to. -/
def parts (ms : List Mark) : List Part := ms.foldr consMark []

/-- Size of the parts of one pattern. -/
def size : List Part → Nat
  | [] => 0
  | p :: ps => p.size + size ps

/-! ## Patterns that are matched together -/

/-- The parts that both patterns begin with. -/
def shared : List Part → List Part → List Part
  | p :: ps, q :: qs => if p = q then p :: shared ps qs else []
  | _, _ => []

/-- The parts that all patterns begin with. -/
def sharedByAll : List (List Part) → List Part
  | [] => []
  | ps :: others => others.foldl shared ps

/-- Size of one matcher for all the patterns: the parts that all of them begin with, and what each
of them goes on with. -/
def sizeTogether (patterns : List (List Part)) : Nat :=
  let start := sharedByAll patterns
  size start + size (patterns.flatMap (·.drop start.length))

end Sweep.Wildcard
