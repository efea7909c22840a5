import Sweep.Policy
/-!
# Mounts

A mounted file system: the device, the directory where it is mounted, its type, and the kinds of
device that it counts as. A mount of one kind is `ofKind`; `DeviceKind.ofFileSystem` finds the kind
by the type of the file system.
-/

namespace Sweep

/-- A mounted file system. -/
structure Mount where
  device : Text
  point : Path
  fileSystem : Text
  kinds : List DeviceKind
  deriving DecidableEq, Repr

namespace DeviceKind

/-- Types of file systems that the kernel makes up. -/
def specialFileSystems : List String :=
  ["proc", "sysfs", "devtmpfs", "devpts", "securityfs", "cgroup", "cgroup2", "pstore", "bpf",
    "debugfs", "tracefs", "configfs", "fusectl", "mqueue", "hugetlbfs", "autofs", "binfmt_misc",
    "rpc_pipefs", "efivarfs", "selinuxfs", "nsfs", "ramfs"]

/-- Types of file systems that are served over a network. -/
def networkFileSystems : List String :=
  ["nfs", "nfs4", "cifs", "smb3", "smbfs", "ncpfs", "afs", "9p", "ceph", "glusterfs", "sshfs",
    "fuse.sshfs", "davfs", "fuse.davfs2"]

/-- Types of file systems of optical discs. -/
def opticalFileSystems : List String := ["iso9660", "udf"]

/-- The kind of a file system of this type, on a device that may be removable. -/
def ofFileSystem (fileSystem : Text) (removable : Bool) : DeviceKind :=
  let isOneOf (types : List String) := (types.map String.toList).contains fileSystem
  if isOneOf specialFileSystems then .special
  else if isOneOf networkFileSystems then .network
  else if isOneOf opticalFileSystems then .optical
  else if removable then .removable
  else .hardDisc

end DeviceKind

namespace Mount

/-- Whether the mount counts as one of this kind. -/
def is (m : Mount) (kind : DeviceKind) : Bool := m.kinds.contains kind

/-- A typical hard disc. -/
def hardDisc (point : Path) : Mount := ⟨"/dev/sda1".toList, point, "ext4".toList, [.hardDisc]⟩

/-- A typical network share. -/
def network (point : Path) : Mount :=
  ⟨"server:/export".toList, point, "nfs4".toList, [.network]⟩

/-- A typical optical disc. -/
def optical (point : Path) : Mount := ⟨"/dev/sr0".toList, point, "iso9660".toList, [.optical]⟩

/-- A typical removable device. -/
def removable (point : Path) : Mount := ⟨"/dev/sdb1".toList, point, "vfat".toList, [.removable]⟩

/-- A file system that the kernel makes up; its type stands for the device. -/
def special (point : Path) (fileSystem : Text) : Mount :=
  ⟨fileSystem, point, fileSystem, [.special]⟩

/-- A mount whose kind is found by its type. -/
def classified (device : Text) (point : Path) (fileSystem : Text) (removable : Bool) : Mount :=
  ⟨device, point, fileSystem, [DeviceKind.ofFileSystem fileSystem removable]⟩

/-- Whether the policy asks for one of the mount's kinds. -/
def isRequested (m : Mount) (policy : Policy) : Bool := m.kinds.any policy.requests

/-- The text that begins every path below the mount point. -/
def stem (m : Mount) : Text :=
  let t := m.point.normal.text
  if t.getLast? = some '/' then t else t ++ ['/']

end Mount

end Sweep
