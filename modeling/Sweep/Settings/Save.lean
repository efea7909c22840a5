import Sweep.Settings.Load
import Sweep.Toml.Written
/-!
# Saving settings

Every setting is written, in the order of the members of its group. Paths must be text, and the
lifetime, in whole seconds, must fit into a number of a document.
-/

namespace Sweep.Settings

open Toml (Written.line Written.header Written.strings Written.boolean)

/-- The policy as it is written; none if an include path is no text. -/
def writtenPolicy? (p : Policy) : Option Text :=
  (p.includes.mapM Path.text?).map fun includes =>
    Written.header "scan" ++
    Written.line "include_paths" (Written.strings includes) ++
    Written.line "exclude_paths" (Written.strings p.excludes) ++
    Written.line "exclude_extensions" (Written.strings p.extensions) ++
    Written.line "hard_drives" (Written.boolean p.hardDiscs) ++
    Written.line "optical_drives" (Written.boolean p.opticalDiscs) ++
    Written.line "removable_drives" (Written.boolean p.removableDevices) ++
    Written.line "network_drives" (Written.boolean p.networkShares)

/-- The lifetime as it is written; none if it is too long. -/
def writtenLifetime? (d : Duration) : Option Text :=
  (Toml.Scalar.fitting? d.roundedSeconds).map fun _ =>
    Written.header "cache" ++ Written.line "lifetime" (Text.ofNat d.roundedSeconds)

/-- The settings as they are written. -/
def written? (s : Settings) : Option Text := do
  let policy ← writtenPolicy? s.policy
  let lifetime ← writtenLifetime? s.lifetime
  return policy ++ '\n' :: lifetime

/-- The content of the file that the settings are saved to, in a directory that may not be there. -/
def save (s : Settings) (directoryExists : Bool) : Except Fault Text :=
  match s.written? with
  | none => .error .unwritable
  | some t => if directoryExists then .ok t else .error .missing

end Sweep.Settings
