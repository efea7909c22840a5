import Sweep.Text.Quoted
import Sweep.Text.Search
import Sweep.Wildcard
import Sweep.Wildcard.Expression
import Sweep.Wildcard.Size
/-!
# Exclusion rules

The shape of a rule's text decides how it matches the text of a path:

* `/var/cache/` excludes what is below the directory, `/etc/shadow` exactly that path;
* `core` excludes paths whose last name it is, `lib/x.so` paths that end with these names;
* `build/` excludes what is below any directory of that name;
* `*.log` excludes paths with that ending, as an extension token does;
* any other text with `*` or `?` is a wildcard pattern, tried at any depth unless it is absolute.

A rule may cover a directory, which means that it excludes all that is in it.
-/

namespace Sweep

/-- The text of a path as rules look at it: from its start, and from its end. -/
structure Candidate where
  text : Text
  /-- The text from its end to its start. -/
  backward : Text
  backward_eq : backward = text.reverse

namespace Candidate

/-- The candidate with this text. -/
def ofText (t : Text) : Candidate := ⟨t, t.reverse, rfl⟩

/-- Whether the tail ends the text. -/
def endsWith (c : Candidate) (tail : Text) : Bool := tail.reverse.isPrefixOf c.backward

/-- Whether the tail ends the text and starts after the first separator. -/
def endsAfterSlash (c : Candidate) (tail : Text) : Bool :=
  c.endsWith tail && (c.backward.drop tail.length).contains '/'

theorem endsWith_iff {c : Candidate} {tail : Text} : c.endsWith tail = true ↔ tail <:+ c.text := by
  rw [endsWith, List.isPrefixOf_iff_prefix, c.backward_eq, List.reverse_prefix]

end Candidate

/-- A wildcard rule in its full form, which starts with `/` or with a run and `/`. -/
structure Glob where
  full : Text
  deriving DecidableEq, Repr

/-- What a rule compares paths with. -/
inductive Pattern where
  /-- Exactly this absolute path. -/
  | exact (path : Text)
  /-- All that starts with this absolute directory, which ends with a separator. -/
  | stem (dir : Text)
  /-- Paths that end with this name, which starts with a separator. -/
  | fileName (tail : Text)
  /-- Paths that end with this text after their first separator. -/
  | ending (tail : Text)
  /-- Paths that end with these names, the first after a separator. -/
  | relativePath (tail : Text)
  /-- Paths in which this directory occurs, between two separators. -/
  | relativeStem (dir : Text)
  /-- A wildcard pattern from the root. -/
  | glob (g : Glob)
  /-- A wildcard pattern at any depth. -/
  | relativeGlob (g : Glob)
  /-- Nothing at all. -/
  | void
  deriving DecidableEq, Repr

namespace Glob

/-- Whether the pattern starts at the root. -/
def isAnchored (g : Glob) : Bool := g.full.head? == some '/'

/-- Whether the pattern names directories, and so what is in them. -/
def namesDirectory (g : Glob) : Bool := g.full.getLast? == some '/'

/-- The marks after those of its text: a pattern that names directories goes on with any run. -/
def ending (g : Glob) : List Wildcard.Mark := if g.namesDirectory then [.run] else []

/-- The marks of the pattern. -/
def marks (g : Glob) : List Wildcard.Mark := Wildcard.marks g.full ++ g.ending

/-- Whether the pattern stands for the whole path. -/
def matchesWhole (g : Glob) (path : Text) : Bool := Wildcard.acceptsAny [g.ending] g.full path

/-- Whether the pattern stands for the path, or, if it starts at the root, for something above
it. -/
def matchesTree (g : Glob) (path : Text) : Bool :=
  let below := if g.isAnchored then [g.ending ++ [.char '/', .run]] else []
  Wildcard.acceptsAny (g.ending :: below) g.full path

/-- A concrete file must be matched whole; a path met on the way down may lie below a match. -/
def applies (g : Glob) (path : Text) (concrete : Bool) : Bool :=
  if concrete then g.matchesWhole path else g.matchesTree path

/-- Whether all that is in the directory is matched too. -/
def covers (g : Glob) (dir : Text) : Bool :=
  (g.isAnchored && g.matchesTree dir) || (g.namesDirectory && g.matchesWhole (dir ++ ['/']))

/-- The pattern as an expression. -/
def body (g : Glob) : Wildcard.Expression := .ofMarks g.marks

/-- The pattern as an expression for what is met on the way down. One that starts at the root may go
on with whatever lies below a match. -/
def treeBody (g : Glob) : Wildcard.Expression :=
  if g.isAnchored then .andThen g.body (.optional (.ofMarks [.char '/', .run])) else g.body

/-- The parts of the compiled pattern. A pattern that starts at the root goes on with whatever lies
below a match. -/
def parts (g : Glob) : List Wildcard.Part :=
  Wildcard.parts g.marks ++ if g.isAnchored then [.below] else []

/-- Size of the compiled pattern. -/
def size (g : Glob) : Nat := Wildcard.size g.parts

end Glob

namespace Pattern

/-- Place of the shape in the order of rules: narrow and literal shapes first. -/
def rank : Pattern → Nat
  | .exact _ => 0
  | .stem _ => 1
  | .fileName _ => 2
  | .ending _ => 3
  | .relativePath _ => 4
  | .relativeStem _ => 5
  | .glob _ => 6
  | .relativeGlob _ => 7
  | .void => 8

/-- The text that rules of one shape are told apart by. -/
def key : Pattern → Text
  | .exact t | .stem t | .fileName t | .ending t | .relativePath t | .relativeStem t => t
  | .glob g | .relativeGlob g => g.full
  | .void => []

/-- Rules are ordered by shape, then by text. -/
def order (p q : Pattern) : Ordering := (compare p.rank q.rank).then (compare p.key q.key)

/-- The wildcard pattern, if it is one. -/
def glob? : Pattern → Option Glob
  | .glob g | .relativeGlob g => some g
  | _ => none

/-- The directory that an absolute rule without wildcards stands for, with a separator at its
end. -/
def stem? : Pattern → Option Text
  | .stem dir => some dir
  | .exact path => some (path ++ ['/'])
  | _ => none

/-- The directory without the separator at its end. -/
def withoutSlash (dir : Text) : Text :=
  if dir.getLast? = some '/' then dir.dropLast else dir

/-- Whether the pattern excludes the path. A stem excludes the directory that it names only if the
path is known to be one; a wildcard pattern must match a concrete file whole. -/
def applies (p : Pattern) (path : Candidate) (isDirectory concrete : Bool) : Bool :=
  match p with
  | .exact full => path.text == full
  | .stem dir => dir.isPrefixOf path.text || (isDirectory && path.text == withoutSlash dir)
  | .relativeStem dir =>
    (isDirectory && path.endsWith (withoutSlash dir)) || dir.isWithin path.text
  | .fileName tail | .relativePath tail => path.endsWith tail
  | .ending tail => path.endsAfterSlash tail
  | .glob g | .relativeGlob g => g.applies path.text concrete
  | .void => false

/-- Whether the pattern excludes the directory with all that is in it. -/
def covers (p : Pattern) (dir : Candidate) : Bool :=
  match p with
  | .stem _ | .relativeStem _ => p.applies dir true false
  | .glob g | .relativeGlob g => g.covers dir.text
  | .exact _ | .fileName _ | .ending _ | .relativePath _ | .void => false

/-- The pattern that a rule's text stands for. -/
def ofText (t : Text) : Pattern :=
  if t = [] then .void
  else
    let absolute := t.head? == some '/'
    let closed := t.getLast? == some '/'
    if Wildcard.occursIn t then
      if absolute then .glob ⟨t⟩
      else if t.head? == some '*' && t.tail ≠ [] && !Wildcard.occursIn t.tail && !closed then
        .ending t.tail
      else .relativeGlob ⟨'*' :: '/' :: t⟩
    else if absolute then if closed then .stem t else .exact t
    else if closed then .relativeStem ('/' :: t)
    else if t.contains '/' then .relativePath ('/' :: t)
    else .fileName ('/' :: t)

end Pattern

/-- A rule: the text it was written as, and what it compares paths with. -/
structure Rule where
  written : Text
  pattern : Pattern
  deriving DecidableEq, Repr

namespace Rule

/-- A wildcard rule that is too large to be compiled. -/
structure TooLarge where
  written : Text
  deriving DecidableEq, Repr

/-- What is said about a rule that is too large. -/
def TooLarge.message (e : TooLarge) : Text :=
  "Invalid exclusion pattern ".toList ++ e.written.quoted ++
    ": Compiled regex exceeds size limit of ".toList ++ Text.ofNat Wildcard.sizeLimit ++
    " bytes.".toList

/-- The rule of a text, unless it is a wildcard pattern that is too large. -/
def parse (t : Text) : Except TooLarge Rule :=
  let pattern := Pattern.ofText t
  match pattern.glob? with
  | some g => if g.size ≤ Wildcard.sizeLimit then .ok ⟨t, pattern⟩ else .error ⟨t⟩
  | none => .ok ⟨t, pattern⟩

/-- The rule of an extension token: the ending after a dot, which the token may begin with. -/
def ofExtension (token : Text) : Rule :=
  let bare := if token.head? = some '.' then token.tail else token
  ⟨token, if bare = [] then .void else .ending ('.' :: bare)⟩

/-- Whether the rule can match at all. -/
def isValid (r : Rule) : Bool := r.pattern != .void

/-- Whether two rules compare paths with the same. -/
def same (r s : Rule) : Bool := r.pattern == s.pattern

/-- Whether the rule excludes the path. -/
def applies (r : Rule) (path : Text) (isDirectory concrete : Bool) : Bool :=
  r.pattern.applies (.ofText path) isDirectory concrete

/-- Whether the rule excludes the directory with all that is in it. -/
def covers (r : Rule) (dir : Text) : Bool := r.pattern.covers (.ofText dir)

end Rule

end Sweep
