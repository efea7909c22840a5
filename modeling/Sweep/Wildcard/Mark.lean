import Sweep.Text
/-!
# Wildcard patterns

A pattern is a text in which `*` stands for any run of characters, `?` for one character other than
the separator, and every other character for itself. `Accepts` says which texts a pattern stands
for.
-/

namespace Sweep.Wildcard

/-- A mark of a pattern. -/
inductive Mark where
  /-- The character itself. -/
  | char (c : Char)
  /-- One character other than the separator. -/
  | one
  /-- Any run of characters. -/
  | run
  deriving DecidableEq, Repr

/-- What a character of a pattern stands for. -/
def Mark.ofChar (c : Char) : Mark :=
  if c = '*' then .run else if c = '?' then .one else .char c

/-- The marks of a pattern text. -/
def marks (pattern : Text) : List Mark := pattern.map Mark.ofChar

/-- The texts that a list of marks stands for. -/
inductive Accepts : List Mark → Text → Prop where
  | nil : Accepts [] []
  | char {c ms t} : Accepts ms t → Accepts (.char c :: ms) (c :: t)
  | one {c ms t} : c ≠ '/' → Accepts ms t → Accepts (.one :: ms) (c :: t)
  | run {ms t} (u : Text) : Accepts ms t → Accepts (.run :: ms) (u ++ t)

/-- Whether a mark that is no run takes the character. -/
def Mark.takes : Mark → Char → Bool
  | .char d, c => d == c
  | .one, c => c != '/'
  | .run, _ => false

/-- What follows the piece at the start of the text. -/
def strip? : List Mark → Text → Option Text
  | [], t => some t
  | _ :: _, [] => none
  | m :: ms, c :: t => if m.takes c then strip? ms t else none

end Sweep.Wildcard
