import Sweep.Path
/-!
# Command lines

What a command line asks for: a task, the file of settings, and how much is logged. Instead of a task
it may call for a word on usage, because it asks for help or the version, or because its arguments
are refused.
-/

namespace Sweep

/-- How much is logged. -/
inductive Verbosity where
  | off
  | error
  | warn
  | info
  | debug
  | trace
  deriving DecidableEq, Repr

/-- The level that stands as many steps above silence as flags for more and for less leave, from
warnings on. -/
def Verbosity.ofFlags (more less : Nat) : Verbosity :=
  match 2 + more - less with
  | 0 => .off
  | 1 => .error
  | 2 => .warn
  | 3 => .info
  | 4 => .debug
  | _ => .trace

/-- What the program is to do. -/
inductive Task where
  /-- Show the roots of a scan. -/
  | plan (explain : Bool)
  /-- Show the files that a scan visits. -/
  | walk
  /-- Show the verdicts on some files. -/
  | check (paths : List Path)
  deriving DecidableEq, Repr

/-- What a command line asks for. -/
structure CommandLine where
  settingsFile : Option Path
  verbosity : Verbosity
  task : Task
  deriving DecidableEq, Repr

/-- Why there is a word on usage instead of a task. -/
inductive CommandLine.Usage where
  | help
  | version
  /-- Nothing is asked for at all. -/
  | nothingGiven
  /-- There are flags, but no task. -/
  | missingTask
  | unknownTask
  | unknownArgument
  /-- A value is given to a flag that takes none. -/
  | needlessValue
  | missingValue
  /-- A value is not UTF-8. -/
  | notText
  /-- A value does not name what it should. -/
  | unfitValue
  /-- Two arguments cannot stand together. -/
  | conflict
  | missingPath
  deriving DecidableEq, Repr

end Sweep
