import Sweep.RuleSet
import Sweep.Duration
import Sweep.Path.Location
/-!
# Remembered verdicts

Whether a file that is opened is excluded is asked again and again, so verdicts are remembered. They
are all dropped when the rules change, and when the oldest may be as old as the lifetime. They are
kept by the location of a path, so all spellings of one path share a verdict. Times are nanoseconds
on a clock that may also go back.
-/

namespace Sweep

/-- A set of rules with the verdicts that were given since the last drop. -/
structure Memo where
  lifetime : Duration
  rules : RuleSet := {}
  /-- Verdicts by the locations of paths. -/
  verdicts : List (Location × Bool) := []
  /-- When the verdicts were last dropped. -/
  droppedAt : Nat
  deriving DecidableEq, Repr

namespace Memo

/-- A memo without rules. -/
def new (lifetime : Duration) (now : Nat) : Memo := { lifetime, droppedAt := now }

/-- Puts other rules in place, and says whether they differ from those before. -/
def setRules (m : Memo) (now : Nat) (rules : RuleSet) : Bool × Memo :=
  if m.rules.same rules then (false, m)
  else (true, { m with rules, verdicts := [], droppedAt := now })

/-- Whether the verdicts are too old; a clock that went back counts as standing still. -/
def isExpired (m : Memo) (now : Nat) : Bool := m.lifetime.nanoseconds ≤ now - m.droppedAt

/-- Drops the verdicts if they are too old. -/
def refresh (m : Memo) (now : Nat) : Memo :=
  if m.isExpired now then { m with verdicts := [], droppedAt := now } else m

/-- The verdict that is remembered for a path. -/
def remembered? (m : Memo) (p : Path) : Option Bool :=
  let location := p.location
  (m.verdicts.find? fun v => v.1 == location).map Prod.snd

/-- Whether the file is excluded, by memory or by the rules. -/
def check (m : Memo) (now : Nat) (p : Path) : Bool × Memo :=
  if m.rules.isEmpty then (false, m)
  else
    let m := m.refresh now
    match m.remembered? p with
    | some verdict => (verdict, m)
    | none =>
      -- The spelling that comes first decides for all spellings of the path.
      let verdict := m.rules.applies p.text false true
      (verdict, { m with verdicts := m.verdicts ++ [(p.location, verdict)] })

/-- Number of remembered verdicts. -/
def size (m : Memo) : Nat := m.verdicts.length

/-- One line about the memo. -/
def text (m : Memo) : Text :=
  "ExclusionCache \x7b lifetime: ".toList ++ m.lifetime.text ++
    ", exclusions: ".toList ++ Text.ofNat m.rules.size ++
    ", cached: ".toList ++ Text.ofNat m.size ++ " \x7d".toList

end Memo

end Sweep
