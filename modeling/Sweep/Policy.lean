import Sweep.Path.Location
/-!
# Scan policies

What a scan looks at: the paths that are always scanned, the rules and extensions that are left out,
and the kinds of device that are scanned wherever they are mounted.
-/

namespace Sweep

/-- The kinds of device a file system can be on. -/
inductive DeviceKind where
  | hardDisc
  | network
  | optical
  | removable
  /-- No device at all: the kernel makes the files up. -/
  | special
  deriving DecidableEq, Repr

/-- What a scan looks at. -/
structure Policy where
  includes : List Path := []
  excludes : List Text := []
  extensions : List Text := []
  hardDiscs : Bool := false
  opticalDiscs : Bool := false
  removableDevices : Bool := false
  networkShares : Bool := false
  deriving DecidableEq, Repr

namespace Policy

/-- Whether mounts of the kind are asked for. -/
def requests (p : Policy) : DeviceKind → Bool
  | .hardDisc => p.hardDiscs
  | .optical => p.opticalDiscs
  | .removable => p.removableDevices
  | .network => p.networkShares
  | .special => false

/-- Whether mounts of any kind are asked for. -/
def requestsDevices (p : Policy) : Bool :=
  p.hardDiscs || p.opticalDiscs || p.removableDevices || p.networkShares

/-- The policy with each include path only where it comes first. -/
def withDistinctIncludes (p : Policy) : Policy :=
  { p with includes := Path.distinct p.includes }

end Policy

end Sweep
