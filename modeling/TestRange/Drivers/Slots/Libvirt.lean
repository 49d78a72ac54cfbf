/-
Where the devices of a VM sit on libvirt.

Device names are letters counted for each family of controllers, over disks and optical
media alike.

* `Lv.createVm` — the domain that is defined;
* `Lv.Placed` — every disk and medium has a device name of its own, and the OS disk boots;
* `Lv.placed` — that it always holds.
-/
import TestRange.Drivers.Slots.Spec
import TestRange.Lib.Counters
import TestRange.Lib.Untyped

namespace TestRange.Slots

-- `compose_mac` of the driver.
variable (composeMac : String → String → ℤ → String)

namespace Lv

/-! ### The domain -/

/-- The letters of the device names on a bus; the classes that libvirt knows have no other. -/
def busPrefix : Bus → Option String
  | .virtio => some "vd"
  | .sata => some "sd"
  | .scsi => some "sd"
  | .ide => some "hd"
  | .nvme => none

/-- The bus of a disk: that of the libvirt variant, or `virtio`. -/
def diskBus (drive : Drive) : Bus :=
  match drive.sort with
  | .libvirt bus _ => bus
  | _ => .virtio

/-- The bus of the optical media. -/
def cdromBus (firmware : Firmware) : Bus := if firmware = .uefi then .sata else .ide

/-- `f"{prefix}{chr(ord('a') + idx)}"` -/
def devText (family : String) (idx : ℕ) : String :=
  family ++ String.singleton (Char.ofNat ('a'.toNat + idx))

structure DiskElement where
  device : Medium
  path : String
  dev : String
  bus : Bus
  bootOrder : Option ℕ

/-- The devices so far, with the counters of their names. -/
structure Devices where
  counters : String → ℕ
  disks : List DiskElement

/-- One more disk or medium, under the next free name of its bus. -/
def Devices.attach (s : Devices) (device : Medium) (path : String) (bus : Bus)
    (bootOrder : Option ℕ) : Except CreateError Devices :=
  match busPrefix bus with
  | none => .error (.keyError bus.text)
  | some family =>
    if 26 ≤ s.counters family then .error (.tooManyDevices family)
    else .ok {
      counters := Counters.move s.counters family (s.counters family)
      disks := s.disks ++ [⟨device, path, devText family (s.counters family), bus, bootOrder⟩] }

structure Interface where
  mac : String
  network : String
  model : String

structure Domain where
  name : String
  memoryMb : ℕ
  vcpu : ℕ
  firmware : Firmware
  /-- `<boot dev='hd'/>`, in place of an order of the devices. -/
  bootHd : Bool
  disks : List DiskElement
  interfaces : List Interface

/-- The bus of the data disk with index `i`. -/
def dataBus (spec : VMSpec) (i : ℕ) : Bus := (spec.dataDrives[i]?.map diskBus).getD .virtio

/-- An optical medium, if there is one. -/
def attachOptical (firmware : Firmware) (bootOrder : Option ℕ) (path : Option String)
    (s : Devices) : Except CreateError Devices :=
  match path with
  | none => .ok s
  | some path => s.attach .cdrom path (cdromBus firmware) bootOrder

def domainXml (backendName : String) (spec : VMSpec) (osPath : String) (dataPaths : List String)
    (seedPath bootMediaPath : Option String) (nics : List Interface) :
    Except CreateError Domain := do
  let installer := bootMediaPath.isSome
  let s ← Devices.attach ⟨fun _ => 0, []⟩ .disk osPath (diskBus spec.osDrive)
    (if installer then some 1 else none)
  if 25 < dataPaths.length then throw (.tooManyDisks dataPaths.length)
  let s ← dataPaths.zipIdx.foldlM
    (fun (s : Devices) x => s.attach .disk x.1 (dataBus spec x.2) none) s
  let s ← attachOptical spec.firmware none seedPath s
  let s ← attachOptical spec.firmware (some 2) bootMediaPath s
  pure ⟨backendName, spec.memoryMb, spec.cpuCount, spec.firmware, !installer, s.disks, nics⟩

-- The host path of a volume, if the pool has it.
variable (lookupVolume : String → Option String)

def volPath (ref : String) : Except CreateError String :=
  match lookupVolume ref with
  | some path => .ok path
  | none => .error (.noVolume ref)

def optVolPath (ref : Option String) : Except CreateError (Option String) :=
  match ref with
  | none => .ok none
  | some ref => (volPath lookupVolume ref).map some

/-- The model of the build NIC: that of the first NIC of the libvirt variant. -/
def buildNicModel (spec : VMSpec) : String := (spec.nics.findSome? (·.model)).getD "virtio"

def nicElements (a : Staged) : Except CreateError (List Interface) :=
  match a.buildNic with
  | some nic => do
    let network ← a.networkRef nic.network
    pure [⟨nic.mac, network, buildNicModel a.spec⟩]
  | none => a.spec.nics.zipIdx.mapM fun x => do
    let network ← a.networkRef x.1.network
    pure ⟨composeMac a.planName a.spec.name x.2, network, x.1.model.getD "virtio"⟩

def createVm (a : Staged) : Except CreateError Domain := do
  let osPath ← volPath lookupVolume a.osDiskRef
  let dataPaths ← a.dataDiskRefs.mapM (volPath lookupVolume)
  let seedPath ← optVolPath lookupVolume a.seedIsoRef
  let bootMediaPath ← optVolPath lookupVolume a.bootMediaRef
  let nics ← nicElements composeMac a
  domainXml a.backendName a.spec osPath dataPaths seedPath bootMediaPath nics

/-! ### The slots -/

open Counters Untyped

variable {composeMac}

theorem devText_inj {f f' : String} {n n' : ℕ} (hn : n < 26) (hn' : n' < 26)
    (h : devText f n = devText f' n') : (f, n) = (f', n') := by
  have hlist : f.toList ++ [Char.ofNat ('a'.toNat + n)] = f'.toList ++ [Char.ofNat ('a'.toNat + n')] := by
    simpa [devText] using congrArg String.toList h
  obtain ⟨hf, hc⟩ := List.append_inj' hlist rfl
  have hval : ∀ m < 26, (Char.ofNat ('a'.toNat + m)).toNat = 97 + m := by decide
  have heq : 97 + n = 97 + n' := by
    rw [← hval n hn, ← hval n' hn', (List.cons.inj hc).1]
  rw [String.toList_inj.mp hf, Nat.add_left_cancel heq]

/-- What the devices so far are, under names of their own. -/
structure Inserted (s : Devices) (expected : List (Medium × String × Option ℕ)) : Prop where
  media : s.disks.map (fun d => (d.device, d.path, d.bootOrder)) = expected
  names : ∃ used, Handed s.counters used ∧
    s.disks.map (·.dev) = used.map (fun p => devText p.1 p.2) ∧ ∀ p ∈ used, p.2 < 26

theorem Inserted.start : Inserted ⟨fun _ => 0, []⟩ [] := ⟨rfl, [], .nil _, rfl, by simp⟩

theorem Inserted.attach {s s' : Devices} {expected : List (Medium × String × Option ℕ)}
    {device : Medium} {path : String} {bus : Bus} {order : Option ℕ} (hs : Inserted s expected)
    (h : s.attach device path bus order = .ok s') :
    Inserted s' (expected ++ [(device, path, order)]) := by
  rw [Devices.attach] at h
  split at h
  · cases h
  · rename_i family _
    split at h
    · cases h
    · rename_i hlt
      cases h
      obtain ⟨used, hused, htexts, hbound⟩ := hs.names
      refine ⟨by simp [hs.media], used ++ [(family, s.counters family)], hused.move (Nat.le_refl _),
        by simp [htexts], ?_⟩
      intro p hp
      rcases List.mem_append.mp hp with hp | hp
      · exact hbound p hp
      · obtain rfl : p = (family, s.counters family) := by simpa using hp
        show s.counters family < 26
        omega

theorem Inserted.optical {firmware : Firmware} {s s' : Devices}
    {expected : List (Medium × String × Option ℕ)} {order : Option ℕ} {path : Option String}
    (hs : Inserted s expected) (h : attachOptical firmware order path s = .ok s') :
    Inserted s' (expected ++ path.toList.map fun p => (.cdrom, p, order)) := by
  cases path with
  | none =>
    cases h
    simpa using hs
  | some path => exact hs.attach h

theorem Inserted.nodup {s : Devices} {expected : List (Medium × String × Option ℕ)}
    (hs : Inserted s expected) : (s.disks.map (·.dev)).Nodup := by
  obtain ⟨used, hused, htexts, hbound⟩ := hs.names
  rw [htexts]
  exact hused.nodup.map_on fun p hp q hq heq => devText_inj (hbound p hp) (hbound q hq) heq

/-- The disks and media of a domain, with their places in the boot order. -/
def elements (osPath : String) (dataPaths : List String) (seedPath bootMediaPath : Option String) :
    List (Medium × String × Option ℕ) :=
  (.disk, osPath, if bootMediaPath.isSome then some 1 else none) ::
    (dataPaths.map fun path => (.disk, path, none)) ++
      (seedPath.toList.map fun path => (.cdrom, path, none)) ++
        bootMediaPath.toList.map fun path => (.cdrom, path, some 2)

theorem domainXml_spec {backendName : String} {spec : VMSpec} {osPath : String}
    {dataPaths : List String} {seedPath bootMediaPath : Option String} {nics : List Interface}
    {dom : Domain}
    (h : domainXml backendName spec osPath dataPaths seedPath bootMediaPath nics = .ok dom) :
    dom.disks.map (fun d => (d.device, d.path, d.bootOrder)) =
        elements osPath dataPaths seedPath bootMediaPath ∧
      (dom.disks.map (·.dev)).Nodup ∧ dom.bootHd = !bootMediaPath.isSome := by
  obtain ⟨s₁, hos, h⟩ := bind_eq_ok.mp h
  simp only at h
  split at h
  · obtain ⟨_, hthrow, _⟩ := bind_eq_ok.mp h
    cases hthrow
  obtain ⟨s₂, hdata, h⟩ := bind_eq_ok.mp h
  obtain ⟨s₃, hseed, h⟩ := bind_eq_ok.mp h
  obtain ⟨s₄, hboot, h⟩ := bind_eq_ok.mp h
  cases h
  have h₁ := Inserted.start.attach hos
  have h₂ := loop_invariant (fun (done : List (String × ℕ)) s => Inserted s
      ((Medium.disk, osPath, if bootMediaPath.isSome then some 1 else none) ::
        done.map fun x => (.disk, x.1, none)))
    (fun done x s s' hs hx => by simpa using hs.attach hx) dataPaths.zipIdx [] h₁ hdata
  have h₄ := (h₂.optical hseed).optical hboot
  have hfst : (dataPaths.zipIdx.map fun x => (Medium.disk, x.1, (none : Option ℕ))) =
      dataPaths.map fun path => (.disk, path, none) := by
    rw [← List.zipIdx_map_fst 0 dataPaths, List.map_map, List.zipIdx_map_fst]
    rfl
  refine ⟨?_, h₄.nodup, rfl⟩
  rw [h₄.media, elements, List.nil_append, hfst]

variable {lookupVolume : String → Option String}

theorem volPath_eq_ok {ref path : String} :
    volPath lookupVolume ref = .ok path ↔ lookupVolume ref = some path := by
  rw [volPath]
  cases lookupVolume ref <;> simp

theorem map_mapM_volPath {refs paths : List String}
    (h : refs.mapM (volPath lookupVolume) = .ok paths) : paths.map some = refs.map lookupVolume :=
  map_mapM h fun _ _ hpath => (volPath_eq_ok.mp hpath).symm

theorem toList_optVolPath {ref path : Option String} (h : optVolPath lookupVolume ref = .ok path) :
    path.toList.map some = ref.toList.map lookupVolume ∧ path.isSome = ref.isSome := by
  cases ref with
  | none =>
    cases h
    exact ⟨rfl, rfl⟩
  | some ref =>
    rw [optVolPath] at h
    cases hpath : volPath lookupVolume ref with
    | error e => rw [hpath] at h; cases h
    | ok path' =>
      rw [hpath] at h
      cases h
      exact ⟨by simp [volPath_eq_ok.mp hpath], rfl⟩

/-- Every disk and every medium is in the domain once, from its own volume and under its own
device name, and the OS disk comes first: before the boot medium, or as the one that boots. -/
structure Placed (lookupVolume : String → Option String) (a : Staged) (dom : Domain) : Prop where
  media : dom.disks.map (fun d => (d.device, some d.path)) =
    (a.media (a.seedIsoRef.toList ++ a.bootMediaRef.toList)).map fun m => (m.1, lookupVolume m.2)
  devs : (dom.disks.map (·.dev)).Nodup
  bootOrder : dom.disks.map (·.bootOrder) =
    (if a.bootMediaRef.isSome then some 1 else none) :: (a.dataDiskRefs.map fun _ => none) ++
      (a.seedIsoRef.toList.map fun _ => none) ++ a.bootMediaRef.toList.map fun _ => some 2
  bootHd : dom.bootHd = !a.bootMediaRef.isSome

/-- The device names of a libvirt domain never collide. -/
theorem placed {a : Staged} {dom : Domain} (h : createVm composeMac lookupVolume a = .ok dom) :
    Placed lookupVolume a dom := by
  obtain ⟨osPath, hos, h⟩ := bind_eq_ok.mp h
  obtain ⟨dataPaths, hdata, h⟩ := bind_eq_ok.mp h
  obtain ⟨seedPath, hseed, h⟩ := bind_eq_ok.mp h
  obtain ⟨bootPath, hboot, h⟩ := bind_eq_ok.mp h
  obtain ⟨nics, -, h⟩ := bind_eq_ok.mp h
  obtain ⟨helements, hdevs, hhd⟩ := domainXml_spec h
  have hos := volPath_eq_ok.mp hos
  have hdata := map_mapM_volPath hdata
  obtain ⟨hseed, -⟩ := toList_optVolPath hseed
  obtain ⟨hboot, hinstaller⟩ := toList_optVolPath hboot
  have hmedia := congrArg (List.map fun m => (m.1, some m.2.1)) helements
  have horder := congrArg (List.map fun m => m.2.2) helements
  rw [List.map_map, elements] at hmedia horder
  refine ⟨?_, hdevs, ?_, hhd.trans (by rw [hinstaller])⟩
  · have hpair : ∀ (m : Medium) {paths refs : List String},
        paths.map some = refs.map lookupVolume →
        paths.map (fun p => (m, some p)) = refs.map fun r => (m, lookupVolume r) := by
      intro m paths refs heq
      simpa [Function.comp_def] using congrArg (List.map fun p => (m, p)) heq
    refine hmedia.trans ?_
    simp [Staged.media, hos, Function.comp_def, hpair _ hdata, hpair _ hseed, hpair _ hboot]
  · have hconst : ∀ {paths refs : List String} (c : Option ℕ),
        paths.map some = refs.map lookupVolume → paths.map (fun _ => c) = refs.map fun _ => c := by
      intro paths refs c heq
      simpa [List.map_const'] using congrArg List.length heq
    refine horder.trans ?_
    simp only [List.map_append, List.map_cons, List.map_map, Function.comp_def, hinstaller,
      hconst _ hdata, hconst _ hseed, hconst _ hboot]

end Lv

end TestRange.Slots
