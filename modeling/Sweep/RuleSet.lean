import Sweep.Policy
import Sweep.Notice
import Sweep.Wildcard.Matcher
/-!
# Sets of rules

A set of rules keeps its valid rules in order, each pattern once and under the text that came first.
It excludes a path if a member does. Its wildcard members are the alternatives of one matcher when
they are small enough together; the other members are tried one by one.
-/

namespace Sweep

/-- Several wildcard patterns as alternatives: for concrete files, which must be matched whole, and
for what is met on the way down. -/
structure Combined where
  whole : Wildcard.Matcher
  tree : Wildcard.Matcher
  deriving DecidableEq, Repr

namespace Combined

/-- A wildcard pattern and others. -/
def ofGlobs (g : Glob) (gs : List Glob) : Combined where
  whole := .ofExpression (.oneOf g.body (gs.map Glob.body))
  tree := .ofExpression (.oneOf g.treeBody (gs.map Glob.treeBody))

/-- Whether one of the patterns excludes the path. -/
def applies (globs : Combined) (path : Text) (concrete : Bool) : Bool :=
  if concrete then globs.whole.accepts path else globs.tree.accepts path

end Combined

namespace Rule

/-- The wildcard patterns of some rules. -/
def globs (rs : List Rule) : List Glob := rs.filterMap (·.pattern.glob?)

/-- Whether there are wildcard patterns to be matched together. -/
def haveSeveralGlobs (rs : List Rule) : Bool := 2 ≤ (globs rs).length

/-- The wildcard patterns in one, if there are several and their matcher keeps to a limit. -/
def combined? (limit : Nat) (rs : List Rule) : Option Combined :=
  match globs rs with
  | g :: h :: gs =>
    if Wildcard.sizeTogether ((g :: h :: gs).map Glob.parts) ≤ limit then
      some (.ofGlobs g (h :: gs))
    else none
  | _ => none

/-- Whether one of the rules excludes the path, when the wildcard patterns in one are given. They
are tried first then, and the other rules one by one. -/
def excludeWith (combined : Option Combined) (rs : List Rule) (path : Text)
    (isDirectory concrete : Bool) : Bool :=
  let candidate := Candidate.ofText path
  match combined with
  | some globs =>
    globs.applies path concrete ||
      rs.any fun r =>
        r.pattern.glob?.isNone && r.pattern.applies candidate isDirectory concrete
  | none => rs.any (·.pattern.applies candidate isDirectory concrete)

end Rule

/-- Rules in the order of their patterns, each pattern once. -/
structure RuleSet where
  members : List Rule := []
  /-- The wildcard patterns, if they are matched together. -/
  combined : Option Combined := Rule.combined? Wildcard.sizeLimit members
  combined_eq : combined = Rule.combined? Wildcard.sizeLimit members := by rfl
  deriving DecidableEq, Repr

namespace RuleSet

/-- Whether the first rule may stand in front of the second. -/
def inOrder (r s : Rule) : Bool := (r.pattern.order s.pattern).isLE

/-- The first of each run of rules with one pattern. -/
def dropRepeats : List Rule → List Rule
  | [] => []
  | r :: rs =>
    match dropRepeats rs with
    | [] => [r]
    | s :: kept => if r.same s then r :: kept else r :: s :: kept

/-- The set of the valid rules of a list. -/
def ofList (rs : List Rule) : RuleSet :=
  { members := dropRepeats ((rs.filter Rule.isValid).mergeSort inOrder) }

/-- The rules of the texts, without those that are too large. -/
def parseAll (ts : List Text) : List Rule :=
  ts.filterMap fun t => (Rule.parse t).toOption

/-- The set of the rules of some texts. -/
def ofTexts (ts : List Text) : RuleSet := ofList (parseAll ts)

/-- The set of all rules and extensions of a policy. -/
def ofPolicy (p : Policy) : RuleSet :=
  ofList ((ofTexts p.excludes).members ++ p.extensions.map Rule.ofExtension)

/-- Number of members. -/
def size (s : RuleSet) : Nat := s.members.length

/-- Whether the set has no members. -/
def isEmpty (s : RuleSet) : Bool := s.members.isEmpty

/-- Whether a member excludes the path. -/
def applies (s : RuleSet) (path : Text) (isDirectory concrete : Bool) : Bool :=
  Rule.excludeWith s.combined s.members path isDirectory concrete

/-- Whether a member excludes the directory with all that is in it. -/
def covers (s : RuleSet) (dir : Text) : Bool :=
  let candidate := Candidate.ofText dir
  s.members.any (·.pattern.covers candidate)

/-- Whether two sets have the same patterns. -/
def same (s t : RuleSet) : Bool := s.members.map Rule.pattern == t.members.map Rule.pattern

/-- The patterns with a bar between each two of them. -/
def summary (s : RuleSet) : Text := Text.join ['|'] (s.members.map (·.pattern.key))

/-! ## What is told while a set is made -/

/-- The notice about a text whose rule is too large. -/
def parseNotice? (t : Text) : Option Notice :=
  match Rule.parse t with
  | .ok _ => none
  | .error e => some (.droppedRule e)

/-- What is told when the set is made: that its wildcard rules are too large together. -/
def notices (s : RuleSet) : List Notice :=
  if Rule.haveSeveralGlobs s.members && s.combined.isNone then [.rulesKeptApart] else []

/-- What is told while the set of some texts is made. -/
def noticesOfTexts (ts : List Text) : List Notice :=
  ts.filterMap parseNotice? ++ (ofTexts ts).notices

/-- What is told while the set of a policy is made. -/
def noticesOfPolicy (p : Policy) : List Notice :=
  noticesOfTexts p.excludes ++ (ofPolicy p).notices

end RuleSet

end Sweep
