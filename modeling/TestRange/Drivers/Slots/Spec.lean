/-
What the orchestrator hands to the `create_vm` of a driver.

* `VMSpec` — the hardware of a VM;
* `Staged` — a VM with its staged volumes and its networks;
* `Staged.media` — its disks and optical media, in order.
-/
import TestRange.Orchestrator.BuildNic

namespace TestRange.Slots

/-- The controllers a disk can be attached to. -/
inductive Bus
  | virtio | scsi | sata | ide | nvme
  deriving DecidableEq

def Bus.text : Bus → String
  | .virtio => "virtio"
  | .scsi => "scsi"
  | .sata => "sata"
  | .ide => "ide"
  | .nvme => "nvme"

/-- The class of a disk.  Those of one driver offer the buses of that driver. -/
inductive DriveClass
  | portable
  | libvirt (bus : Bus) (offered : bus ≠ .nvme)
  | proxmox (bus : Bus) (offered : bus ≠ .nvme)
  | esxi (bus : Bus) (offered : bus ≠ .virtio)

structure Drive where
  sort : DriveClass
  sizeGb : ℕ
  sizeGb_pos : 1 ≤ sizeGb

/-- A declared NIC; one of the libvirt variant names the model it emulates. -/
structure Iface where
  network : String
  model : Option String

inductive Firmware
  | bios | uefi
  deriving DecidableEq

structure VMSpec where
  name : String
  cpuCount : ℕ
  memoryMb : ℕ
  osDrive : Drive
  dataDrives : List Drive
  nics : List Iface
  firmware : Firmware

/-- What the orchestrator hands to `create_vm`. -/
structure Staged where
  backendName : String
  spec : VMSpec
  planName : String
  osDiskRef : String
  seedIsoRef : Option String
  networkRefs : String → Option String
  dataDiskRefs : List String
  buildNic : Option BuildNic
  bootMediaRef : Option String

inductive CreateError
  | indexError
  | keyError (key : String)
  | noVolume (ref : String)
  | tooManyDevices (family : String)
  | tooManyDisks (count : ℕ)

/-- `network_refs[network]` -/
def Staged.networkRef (a : Staged) (network : String) : Except CreateError String :=
  match a.networkRefs network with
  | some ref => .ok ref
  | none => .error (.keyError network)

/-- A disk or an optical medium of a VM. -/
inductive Medium
  | disk | cdrom
  deriving DecidableEq

/-- What is inserted: the OS disk, the data disks, the seed and the boot medium, where
`optical` gives the order of the last two. -/
def Staged.media (a : Staged) (optical : List String) : List (Medium × String) :=
  (.disk, a.osDiskRef) :: (a.dataDiskRefs.map fun ref => (.disk, ref)) ++
    optical.map fun ref => (.cdrom, ref)

end TestRange.Slots
