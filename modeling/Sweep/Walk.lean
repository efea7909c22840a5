import Sweep.Plan.Admission
import Sweep.Tree
/-!
# Walking the roots

The roots of a plan are walked one after the other, each depth first and in the order of the names.
A root itself is taken as it is; below it, files and directories are asked for, and links are left
alone. A root that is a link to a directory is entered; one that is not there, or a link that leads
nowhere, is an error, and so is a directory that may not be opened or whose path is too long for it.
-/

namespace Sweep

/-- What came of walking a root. -/
structure Tally where
  visited : List Path := []
  /-- Number of files that were not scanned and of directories that were not entered. -/
  excluded : Nat := 0
  errors : Nat := 0
  notices : List Notice := []
  deriving DecidableEq, Repr

namespace Tally

/-- Nothing came of it. -/
def none : Tally := {}

/-- One tally after another. -/
def append (a b : Tally) : Tally :=
  ⟨a.visited ++ b.visited, a.excluded + b.excluded, a.errors + b.errors, a.notices ++ b.notices⟩

instance : Append Tally := ⟨append⟩

/-- A file that is scanned. -/
def visit (p : Path) : Tally := { visited := [p] }

/-- A file or directory that is left out. -/
def exclude : Tally := { excluded := 1 }

/-- A root or directory that cannot be read. -/
def fail (p : Path) : Tally := { errors := 1, notices := [.unreadable p] }

end Tally

mutual

/-- What comes of an entry below the current root. -/
def Node.walk (plan : Plan) (p : Path) : Node → Tally
  | .file _ => if plan.admitsFile p then Tally.visit p else Tally.exclude
  | .link _ => Tally.none
  | .locked => if plan.admitsDirectory p then Tally.fail p else Tally.exclude
  | .directory es =>
    if plan.admitsDirectory p then
      -- Its entries need no look-up of their own, so only the directory has to fit.
      if p.fits then walkEntries plan p es else Tally.fail p
    else Tally.exclude

/-- What comes of the entries of a directory. -/
def Node.walkEntries (plan : Plan) (p : Path) : List (List UInt8 × Node) → Tally
  | [] => Tally.none
  | (name, node) :: es => node.walk plan (p.child name) ++ walkEntries plan p es

end

namespace Plan

/-- What comes of walking the current root. -/
def walkRoot (plan : Plan) (tree : FileTree) (p : Path) : Tally :=
  match tree.find? p false with
  | none | some .locked => Tally.fail p
  | some (.file _) => Tally.visit p
  | some (.directory es) => Node.walkEntries plan p (Node.sortedEntries es)
  | some (.link _) =>
    -- Only a link at the root itself is followed.
    match tree.find? p true with
    | none | some .locked => Tally.fail p
    | some (.directory es) => Node.walkEntries plan p (Node.sortedEntries es)
    | some _ => Tally.none

/-- What comes of each root that is still to be handed out. -/
def walks (plan : Plan) (tree : FileTree) : List Tally :=
  plan.stages.map fun (root, stage) => stage.walkRoot tree root.path

/-- What comes of walking all roots, and how many there are. -/
def walk (plan : Plan) (tree : FileTree) : Nat × Tally :=
  (plan.stages.length, (plan.walks tree).foldr Tally.append Tally.none)

end Plan

end Sweep
