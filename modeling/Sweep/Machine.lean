import Sweep.Tree
import Sweep.Mount
import Sweep.Settings.Load
/-!
# Machines

What the program finds around it: the file tree, the directory that it runs in, and the mounts.
`layers` are the files of settings that count when none is named.
-/

namespace Sweep

/-- What the program finds around it. -/
structure Machine where
  tree : Node := .empty
  /-- Where relative paths start. -/
  directory : Path := .root
  mounts : List Mount := []

namespace Machine

/-- The files of the machine as the program sees them from where it runs. -/
def files (m : Machine) : FileTree := ⟨m.tree, m.directory⟩

/-- The node at a path, through links. -/
def node? (m : Machine) (p : Path) : Option Node := m.files.find? p true

/-- What there is to read at a path. -/
def source (m : Machine) (p : Path) : Settings.Source :=
  match m.node? p with
  | some (.file bytes) => .content bytes
  | some (.directory _) | some .locked => .directory
  | _ => .missing

/-- Whether there is anything at a path. -/
def hasFile (m : Machine) (p : Path) : Bool := m.source p != .missing

/-- The file of settings of the whole system. -/
def systemFile : Path := .ofText "/etc/scanscope/config.toml".toList

/-- The directory of further files of settings. -/
def systemDirectory : Path := .ofText "/etc/scanscope/config.d".toList

/-- How the names of further files of settings end. -/
def settingsEnding : List UInt8 := Text.bytes ".toml".toList

/-- The further files of settings, in the order of their names. -/
def furtherFiles (m : Machine) : List Path :=
  match m.node? systemDirectory with
  | some (.directory es) =>
    ((Node.sortedEntries es).filter fun e => settingsEnding.isSuffixOf e.1).map fun e =>
      systemDirectory.child e.1
  | _ => []

/-- The files of settings that count when none is named, later ones over earlier ones. -/
def layers (m : Machine) : List Settings.Source := (systemFile :: m.furtherFiles).map m.source

end Machine

end Sweep
