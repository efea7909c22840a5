import Sweep.Plan
/-!
# What a plan lets in

While a root is scanned, the plan says of each file below it whether it is scanned, and of each
directory whether the scan goes down into it. Nothing that a rule, an exact path or a stem excludes
is let in, except that an explicit root may lie below a shorter stem. Nothing that is a root of its
own is let in, as it is scanned from there. Below a mount, barred mounts are left out.
-/

namespace Sweep.Plan

/-- Whether a rule excludes the entry: a directory must be covered with all that is in it. -/
def rulesExclude (plan : Plan) (path : Text) (isDirectory : Bool) : Bool :=
  if isDirectory then plan.rules.covers path else plan.rules.applies path false false

/-- Length in bytes of the current root, zero if there is none. -/
def rootLength (plan : Plan) : Nat :=
  match plan.current with
  | some root => root.path.byteLength
  | none => 0

/-- Whether the current root is an include path. -/
def rootIsExplicit (plan : Plan) : Bool :=
  match plan.current with
  | some root => root.isExplicit
  | none => false

/-- Whether a stem counts at the current root: an explicit root goes through shorter stems. -/
def stemCounts (plan : Plan) (stem : Text) : Bool :=
  !plan.rootIsExplicit || plan.rootLength ≤ stem.byteLength

/-- Whether a stem excludes the entry. -/
def stemsExclude (plan : Plan) (path : Text) (isDirectory : Bool) : Bool :=
  plan.stemExclusions.any fun stem => stemCovers stem path isDirectory && plan.stemCounts stem

/-- Whether the path is another root than the current one: pending, or handed out before. -/
def isOtherRoot (plan : Plan) (p : Path) : Bool :=
  let location := p.location
  plan.pendingMounts.contains location || plan.pendingIncludes.contains location ||
    (plan.wasHandedOut location &&
      match plan.current with
      | some root => !root.path.same p
      | none => false)

/-- Whether the path is on a mount that is barred at the current root. -/
def isOnBarredMount (plan : Plan) (p : Path) : Bool :=
  let location := p.location
  plan.barredMounts.any fun point =>
    location.isUnder point && plan.rootLength < point.path.byteLength

/-- Whether the entry is let in. -/
def admits (plan : Plan) (p : Path) (isDirectory : Bool) : Bool :=
  let text := p.text
  !plan.rulesExclude text isDirectory &&
  !plan.exactExclusions.contains text &&
  !plan.stemsExclude text isDirectory &&
  !plan.isOtherRoot p &&
  (plan.rootIsExplicit || !plan.isOnBarredMount p)

/-- Whether a file below the current root is scanned. -/
def admitsFile (plan : Plan) (p : Path) : Bool := plan.admits p false

/-- Whether the scan goes down into a directory below the current root. -/
def admitsDirectory (plan : Plan) (p : Path) : Bool := plan.admits p true

end Sweep.Plan
