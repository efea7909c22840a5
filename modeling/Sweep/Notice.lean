import Sweep.Rule
import Sweep.Path
/-!
# Notices

What is told while a scan is planned and carried out: the decisions that make up the plan, and
warnings about what was set aside.
-/

namespace Sweep

/-- A decision of the plan about a directory or a mount. -/
inductive Decision where
  | includeDirectory (path : Path)
  | excludeDirectory (pattern : Text)
  | includeMount (path : Path)
  | excludeMount (path : Path)
  deriving DecidableEq, Repr

/-- Something worth telling. -/
inductive Notice where
  | decided (d : Decision)
  /-- An include path that does not start at the root is passed over. -/
  | relativeInclude (path : Path)
  /-- A rule that is too large is passed over. -/
  | droppedRule (e : Rule.TooLarge)
  /-- The wildcard rules together are too large for one matcher. -/
  | rulesKeptApart
  /-- A root is not there or leads nowhere, or a directory cannot be opened. -/
  | unreadable (path : Path)
  deriving DecidableEq, Repr

/-- The decisions among the notices. -/
def Notice.decisions : List Notice → List Decision
  | [] => []
  | .decided d :: ns => d :: decisions ns
  | _ :: ns => decisions ns

/-- The notices that are no decisions. -/
def Notice.warnings : List Notice → List Notice
  | [] => []
  | .decided _ :: ns => warnings ns
  | n :: ns => n :: warnings ns

end Sweep
