import Sweep.Policy
import Sweep.Duration
import Sweep.Toml.Document
/-!
# Settings

The policy of scans and how long verdicts are remembered, as a document gives them. A group of
settings is a table, or a list of its members in their order; what is not given has its default, and
what is not known is passed over.
-/

namespace Sweep

/-- All that can be set. -/
structure Settings where
  policy : Policy := {}
  lifetime : Duration := Duration.ofSeconds 60
  deriving DecidableEq, Repr

namespace Settings

open Toml (Value)

/-- What is given for a member of a group, by its name or its place; none at all if the value is no
group. A point of time counts as a group without members that are known. -/
def member? (group : Value) (place : Nat) (name : Toml.Key) : Option (Option Value) :=
  match group with
  | .table _ es => some (Toml.lookup name es)
  | .array vs => some vs[place]?
  | .moment _ => some none
  | _ => none

/-- A member of a group, or its default if it is not given. -/
def member {α : Type} (group : Value) (place : Nat) (name : Toml.Key) (default : α)
    (read : Value → Option α) : Option α :=
  match member? group place name with
  | none => none
  | some none => some default
  | some (some v) => read v

/-- A truth value. -/
def flag? : Value → Option Bool
  | .boolean b => some b
  | _ => none

/-- A string. -/
def text? : Value → Option Text
  | .string t => some t
  | _ => none

/-- A list of strings. -/
def texts? : Value → Option (List Text)
  | .array vs => vs.mapM text?
  | _ => none

/-- A list of strings that are paths. -/
def paths? (v : Value) : Option (List Path) := (texts? v).map fun ts => ts.map Path.ofText

/-- A number of seconds, which is whole and not negative. -/
def seconds? : Value → Option Duration
  | .integer n => if 0 ≤ n then some (Duration.ofSeconds n.toNat) else none
  | _ => none

/-- The policy that a group gives. -/
def policy? (group : Value) : Option Policy := do
  let includes ← member group 0 "include_paths" [] paths?
  let excludes ← member group 1 "exclude_paths" [] texts?
  let extensions ← member group 2 "exclude_extensions" [] texts?
  let hardDiscs ← member group 3 "hard_drives" false flag?
  let opticalDiscs ← member group 4 "optical_drives" false flag?
  let removableDevices ← member group 5 "removable_drives" false flag?
  let networkShares ← member group 6 "network_drives" false flag?
  return {
    includes, excludes, extensions, hardDiscs, opticalDiscs, removableDevices, networkShares }

/-- The lifetime of verdicts that a group gives. -/
def lifetime? (group : Value) : Option Duration :=
  member group 0 "lifetime" ({} : Settings).lifetime seconds?

/-- The settings that a value gives. -/
def ofValue? (v : Value) : Option Settings := do
  let policy ← member v 0 "scan" ({} : Settings).policy policy?
  let lifetime ← member v 1 "cache" ({} : Settings).lifetime lifetime?
  return { policy, lifetime }

/-- The settings that a document gives, each include path only where it comes first. -/
def ofDocument? (doc : Toml.Document) : Option Settings :=
  (ofValue? doc.toValue).map fun s => { s with policy := s.policy.withDistinctIncludes }

/-- Whether two lists of paths are the same one by one. -/
def samePaths : List Path → List Path → Bool
  | [], [] => true
  | p :: ps, q :: qs => p.same q && samePaths ps qs
  | _, _ => false

/-- Whether the settings mean the same: paths may be spelled in different ways. -/
def same (s t : Settings) : Bool :=
  samePaths s.policy.includes t.policy.includes &&
    { s with policy.includes := [] } == { t with policy.includes := [] }

end Settings

end Sweep
