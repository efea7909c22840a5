import Sweep.Wildcard.Mark
/-!
# Expressions of several patterns

Several patterns are matched together as one expression in which they are alternatives. `Matches`
says which texts an expression stands for. An expression has no repetition but the runs of its
marks, so it can be written out as the lists of marks that it may stand for, its ways.
-/

namespace Sweep.Wildcard

/-- What patterns that are matched together are put together to. -/
inductive Expression where
  /-- Nothing at all. -/
  | empty
  | mark (m : Mark)
  | andThen (e f : Expression)
  | either (e f : Expression)
  /-- The expression, or nothing at all. -/
  | optional (e : Expression)
  deriving DecidableEq, Repr

namespace Expression

/-- The texts that an expression stands for. -/
def Matches : Expression → Text → Prop
  | empty, t => t = []
  | mark m, t => Accepts [m] t
  | andThen e f, t => ∃ u v, t = u ++ v ∧ e.Matches u ∧ f.Matches v
  | either e f, t => e.Matches t ∨ f.Matches t
  | optional e, t => t = [] ∨ e.Matches t

/-- One mark after the other. -/
def ofMarks : List Mark → Expression
  | [] => empty
  | m :: ms => andThen (mark m) (ofMarks ms)

/-- The expressions as alternatives. -/
def oneOf (e : Expression) : List Expression → Expression
  | [] => e
  | f :: es => either e (oneOf f es)

/-- The lists of marks that the expression may stand for. -/
def ways : Expression → List (List Mark)
  | empty => [[]]
  | mark m => [[m]]
  | andThen e f => e.ways.flatMap fun way => f.ways.map (way ++ ·)
  | either e f => e.ways ++ f.ways
  | optional e => [] :: e.ways

end Expression

end Sweep.Wildcard
