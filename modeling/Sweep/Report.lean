import Sweep.Walk
import Sweep.Memo
/-!
# Reports

The lines that are printed about a plan, a walk and the verdicts on single files. Paths are shown in
their lenient reading.
-/

namespace Sweep.Report

/-- The texts, each on a line of its own. -/
def lines (ts : List Text) : Text := ts.flatMap (· ++ ['\n'])

/-- The line of a decision. -/
def decisionLine : Decision → Text
  | .includeDirectory p => "include        ".toList ++ p.text
  | .excludeDirectory t => "exclude        ".toList ++ t
  | .includeMount p => "include mount  ".toList ++ p.text
  | .excludeMount p => "exclude mount  ".toList ++ p.text

/-- The line of a root. -/
def rootLine (r : Root) : Text :=
  let kind := match r.kind with
    | .mount => "mount".toList
    | .explicit => "path".toList
  Text.padded 6 kind ++ r.path.text

/-- The roots of a plan in their order, after the decisions that led to them and an empty line if
these are asked for. -/
def ofPlan (plan : Plan) (decisions : Option (List Decision)) : Text :=
  let explanation := match decisions with
    | some ds => lines (ds.map decisionLine ++ [[]])
    | none => []
  explanation ++ lines (plan.roots.map rootLine)

/-- The line of counts at the end of a walk. -/
def summaryLine (roots : Nat) (t : Tally) : Text :=
  Text.ofNat roots ++ " roots, ".toList ++ Text.ofNat t.visited.length ++ " files, ".toList ++
    Text.ofNat t.excluded ++ " excluded, ".toList ++ Text.ofNat t.errors ++ " errors".toList

/-- The files that a walk visited, and the line of counts. -/
def ofWalk (plan : Plan) (tree : FileTree) : Text :=
  let (roots, tally) := plan.walk tree
  lines (tally.visited.map Path.text ++ [summaryLine roots tally])

/-- The line of a verdict. -/
def verdictLine (p : Path) (excluded : Bool) : Text :=
  Text.padded 9 (if excluded then "excluded".toList else "scan".toList) ++ p.text

/-- The verdicts on some files, asked for one after the other at one time. -/
def ofChecks (m : Memo) (now : Nat) : List Path → Text
  | [] => []
  | p :: ps =>
    let (excluded, m) := m.check now p
    verdictLine p excluded ++ '\n' :: ofChecks m now ps

end Sweep.Report
