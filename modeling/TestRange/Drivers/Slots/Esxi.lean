/-
Where the devices of a VM sit on ESXi.

Every bus has a controller with units of its own, of which SCSI keeps one for itself; the
keys of the devices are numbered from fixed places on.

* `Esx.createVm` — the `ConfigSpec` that is submitted;
* `Esx.Placed` — every disk and medium has a place and a key of its own, and the OS disk boots;
* `Esx.placed_iff` — when that holds;
* `Esx.keys_nodup_iff` — when the keys of all devices are distinct.
-/
import TestRange.Drivers.Slots.Spec
import TestRange.Lib.Counters
import TestRange.Lib.Untyped

namespace TestRange.Slots

-- `compose_mac` of the driver.
variable (composeMac : String → String → ℤ → String)

namespace Esx

/-! ### The device changes -/

def scsiKey : ℤ := 1000

def sataKey : ℤ := 15000

def nvmeKey : ℤ := 31000

def ide0Key : ℤ := 200

def ide1Key : ℤ := 201

def scsiReservedUnit : ℕ := 7

/-- The controller of the disks of a bus. -/
def busControllerKey : Bus → Option ℤ
  | .scsi => some scsiKey
  | .sata => some sataKey
  | .nvme => some nvmeKey
  | .ide => some ide1Key
  | .virtio => none

/-- `getattr(drive, "bus", "scsi")` -/
def bus (drive : Drive) : Bus :=
  match drive.sort with
  | .portable => .scsi
  | .libvirt bus _ => bus
  | .proxmox bus _ => bus
  | .esxi bus _ => bus

/-- A device to add. -/
inductive Device
  | controller (key : ℤ)
  | disk (key controllerKey : ℤ) (unit : ℕ) (fileName : String)
  | cdrom (key controllerKey : ℤ) (unit : ℕ) (fileName : String)
  | nic (key : ℤ) (portgroup mac : String)
  | serial (key : ℤ) (fileName : String)

/-- The devices of the data disks so far. -/
structure Loop where
  out : List Device
  added : List Bus
  nextUnit : Bus → ℕ

/-- SCSI starts behind the OS disk. -/
def Loop.start : Loop := ⟨[], [], fun bus => if bus = .scsi then 1 else 0⟩

/-- The unit that the next disk of a bus takes. -/
def Loop.unit (s : Loop) (bus : Bus) : ℕ :=
  if bus = .scsi ∧ s.nextUnit bus = scsiReservedUnit then s.nextUnit bus + 1 else s.nextUnit bus

/-- A `sata` or `nvme` controller comes with the first disk of its bus. -/
def Loop.addOn (s : Loop) (bus : Bus) : Bool := (bus = .sata || bus = .nvme) && bus ∉ s.added

/-- One round of `_data_disk_devices`: the disk with the reference `x.1` and the index `x.2`. -/
def Loop.attach (spec : VMSpec) (s : Loop) (x : String × ℕ) : Except CreateError Loop :=
  match spec.dataDrives[x.2]? with
  | none => .error .indexError
  | some drive =>
    match busControllerKey (bus drive) with
    | none => .error (.keyError (bus drive).text)
    | some key => .ok {
        out := s.out ++ (if s.addOn (bus drive) then [.controller key] else []) ++
          [.disk (-(110 + x.2)) key (s.unit (bus drive)) x.1]
        added := if s.addOn (bus drive) then bus drive :: s.added else s.added
        nextUnit := Counters.move s.nextUnit (bus drive) (s.unit (bus drive)) }

def dataDiskDevices (a : Staged) : Except CreateError (List Device) :=
  (a.dataDiskRefs.zipIdx.foldlM (Loop.attach a.spec) Loop.start).map (·.out)

/-- What the firmware may boot from. -/
inductive Bootable
  | disk (deviceKey : ℤ)
  | cdrom
  deriving DecidableEq

structure ConfigSpec where
  name : String
  memoryMb : ℕ
  numCpus : ℕ
  firmware : String
  vmPathName : String
  deviceChange : List Device
  bootOrder : List Bootable

def osKey : ℤ := -101

/-- The boot medium takes the master of the first IDE controller, the seed what is left. -/
def opticalDevices (a : Staged) : List Device :=
  (a.bootMediaRef.toList.map fun ref => .cdrom (-301) ide0Key 0 ref) ++
    a.seedIsoRef.toList.map fun ref =>
      .cdrom (-302) ide0Key (if a.bootMediaRef.isSome then 1 else 0) ref

def nicDevices (a : Staged) : Except CreateError (List Device) :=
  match a.buildNic with
  | some nic => do
    let portgroup ← a.networkRef nic.network
    pure [.nic (-200) portgroup nic.mac]
  | none => a.spec.nics.zipIdx.mapM fun x => do
    let portgroup ← a.networkRef x.1.network
    pure (.nic (-(200 + x.2)) portgroup (composeMac a.planName a.spec.name x.2))

/-- What is submitted to a host with the datastore `datastore`. -/
def createVm (datastore : String) (a : Staged) : Except CreateError ConfigSpec := do
  let disks ← dataDiskDevices a
  let nics ← nicDevices composeMac a
  pure {
    name := a.backendName
    memoryMb := a.spec.memoryMb
    numCpus := a.spec.cpuCount
    firmware := if a.spec.firmware = .uefi then "efi" else "bios"
    vmPathName := "[" ++ datastore ++ "] " ++ a.backendName
    deviceChange := [.controller scsiKey, .disk osKey scsiKey 0 a.osDiskRef] ++ disks ++
      opticalDevices a ++ nics ++
        [.serial (-400) ("[" ++ datastore ++ "] " ++ a.backendName ++ "/serial0.log")]
    bootOrder := .disk osKey :: if a.bootMediaRef.isSome then [.cdrom] else [] }

/-! ### The slots -/

open Counters Untyped

variable {composeMac}

/-- What a device holds, if it is a disk or an optical medium. -/
def Device.medium : Device → Option (Medium × String)
  | .disk _ _ _ fileName => some (.disk, fileName)
  | .cdrom _ _ _ fileName => some (.cdrom, fileName)
  | _ => none

/-- The controller and the unit of a disk or an optical medium. -/
def Device.place : Device → Option (ℤ × ℕ)
  | .disk _ controllerKey unit _ => some (controllerKey, unit)
  | .cdrom _ controllerKey unit _ => some (controllerKey, unit)
  | _ => none

def Device.key : Device → ℤ
  | .controller key => key
  | .disk key _ _ _ => key
  | .cdrom key _ _ _ => key
  | .nic key _ _ => key
  | .serial key _ => key

/-- The key of a disk or an optical medium. -/
def Device.mediumKey : Device → Option ℤ
  | .disk key _ _ _ => some key
  | .cdrom key _ _ _ => some key
  | _ => none

/-- Every disk and every medium is submitted once, at a place and under a key of its own;
the reserved unit stays free; and the disk that boots first is the OS disk. -/
structure Placed (a : Staged) (spec : ConfigSpec) : Prop where
  media : spec.deviceChange.filterMap Device.medium =
    a.media (a.bootMediaRef.toList ++ a.seedIsoRef.toList)
  places : (spec.deviceChange.filterMap Device.place).Nodup
  reserved : (scsiKey, scsiReservedUnit) ∉ spec.deviceChange.filterMap Device.place
  keys : (spec.deviceChange.filterMap Device.mediumKey).Nodup
  osDisk : .disk osKey scsiKey 0 a.osDiskRef ∈ spec.deviceChange
  bootOrder : spec.bootOrder = .disk osKey :: if a.bootMediaRef.isSome then [.cdrom] else []

theorem busControllerKey_inj {b b' : Bus} {key : ℤ} (h : busControllerKey b = some key)
    (h' : busControllerKey b' = some key) : b = b' := by
  cases b <;> cases b' <;>
    simp only [busControllerKey, scsiKey, sataKey, nvmeKey, ide1Key, Option.some.injEq,
      reduceCtorEq] at h h' ⊢ <;> omega

/-- What the loop has added for the references read so far. -/
structure Attached (done : List (String × ℕ)) (s : Loop) : Prop where
  media : s.out.filterMap Device.medium = done.map fun x => (.disk, x.1)
  keys : s.out.filterMap Device.mediumKey = done.map fun x => -(110 + (x.2 : ℤ))
  places : ∃ used, Handed s.nextUnit ((.scsi, 0) :: used) ∧
    (s.out.filterMap Device.place).map (fun p => (some p.1, p.2)) =
      used.map (fun p => (busControllerKey p.1, p.2)) ∧ (.scsi, scsiReservedUnit) ∉ used
  /-- A controller of its own for every bus that needs one. -/
  controllers : s.added.Nodup ∧ (∀ b ∈ s.added, b = .sata ∨ b = .nvme) ∧
    (s.out.map Device.key).Perm
      (s.added.filterMap busControllerKey ++ s.out.filterMap Device.mediumKey)

theorem Attached.start : Attached [] Loop.start :=
  ⟨rfl, rfl, ⟨[], ⟨by simp, by simp [Loop.start]⟩, rfl, by simp⟩, by simp [Loop.start]⟩

/-- Whether a controller comes along makes no difference to the disks. -/
theorem filterMap_controllers {β : Type} (f : Device → Option β) (hf : ∀ key, f (.controller key) = none)
    (b : Bool) (key : ℤ) : (if b then [Device.controller key] else []).filterMap f = [] := by
  cases b <;> simp [hf]

theorem Attached.controllers_attach {done : List (String × ℕ)} {s : Loop} (hs : Attached done s)
    {b : Bus} {key : ℤ} (hkey : busControllerKey b = some key) {k : ℤ} {unit : ℕ} {ref : String} :
    (if s.addOn b then b :: s.added else s.added).Nodup ∧
      (∀ b' ∈ if s.addOn b then b :: s.added else s.added, b' = .sata ∨ b' = .nvme) ∧
      ((s.out ++ (if s.addOn b then [Device.controller key] else []) ++
          [Device.disk k key unit ref]).map Device.key).Perm
        ((if s.addOn b then b :: s.added else s.added).filterMap busControllerKey ++
          (s.out ++ (if s.addOn b then [Device.controller key] else []) ++
            [Device.disk k key unit ref]).filterMap Device.mediumKey) := by
  obtain ⟨hnodup, hbuses, hperm⟩ := hs.controllers
  have hcount := fun x => hperm.count_eq x
  by_cases hadd : s.addOn b = true
  · have hneeds : (b = .sata ∨ b = .nvme) ∧ b ∉ s.added := by
      simpa [Loop.addOn] using hadd
    simp only [hadd, if_true]
    refine ⟨List.nodup_cons.mpr ⟨hneeds.2, hnodup⟩,
      List.forall_mem_cons.mpr ⟨hneeds.1, hbuses⟩, List.perm_iff_count.mpr fun x => ?_⟩
    have hx := hcount x
    simp only [List.map_append, List.map_cons, List.map_nil, List.filterMap_append,
      List.filterMap_cons, List.filterMap_nil, hkey, Device.key, Device.mediumKey,
      List.count_append, List.count_cons, List.count_nil] at hx ⊢
    omega
  · simp only [hadd, if_false, Bool.false_eq_true, List.append_nil]
    refine ⟨hnodup, hbuses, List.perm_iff_count.mpr fun x => ?_⟩
    have hx := hcount x
    simp only [List.map_append, List.map_cons, List.map_nil, List.filterMap_append,
      List.filterMap_cons, List.filterMap_nil, Device.key, Device.mediumKey,
      List.count_append] at hx ⊢
    omega

theorem Attached.attach {spec : VMSpec} {done : List (String × ℕ)} {s s' : Loop} {x : String × ℕ}
    (hs : Attached done s) (h : s.attach spec x = .ok s') : Attached (done ++ [x]) s' := by
  rw [Loop.attach] at h
  split at h
  · cases h
  rename_i drive _
  split at h
  · cases h
  rename_i key hkey
  cases h
  obtain ⟨used, hused, hplaces, hreserved⟩ := hs.places
  have hunit : s.nextUnit (bus drive) ≤ s.unit (bus drive) := by
    rw [Loop.unit]
    split <;> omega
  refine ⟨?_, ?_, ⟨used ++ [(bus drive, s.unit (bus drive))], hused.move hunit, ?_, ?_⟩,
    hs.controllers_attach hkey⟩
  · simp only [List.filterMap_append, filterMap_controllers Device.medium fun _ => rfl, hs.media,
      List.map_append, List.append_nil]
    rfl
  · simp only [List.filterMap_append, filterMap_controllers Device.mediumKey fun _ => rfl, hs.keys,
      List.map_append, List.append_nil]
    rfl
  · simp only [List.filterMap_append, filterMap_controllers Device.place fun _ => rfl, hplaces,
      List.map_append, List.append_nil, List.map_cons, List.map_nil, hkey]
    rfl
  · rw [List.mem_append]
    rintro (hmem | hmem)
    · exact hreserved hmem
    · obtain ⟨hbus, hseven⟩ : .scsi = bus drive ∧ scsiReservedUnit = s.unit (bus drive) := by
        simpa using hmem
      rw [Loop.unit, ← hbus] at hseven
      split at hseven <;> simp_all

theorem nodup_of_places {used : List (Bus × ℕ)} {places : List (ℤ × ℕ)} (hused : used.Nodup)
    (h : places.map (fun p => (some p.1, p.2)) =
      used.map (fun p => (busControllerKey p.1, p.2))) : places.Nodup := by
  refine List.Nodup.of_map (fun p => (some p.1, p.2)) ?_
  rw [h]
  refine hused.map_on fun p hp q hq heq => ?_
  obtain ⟨hfst, hsnd⟩ := Prod.mk.inj heq
  obtain ⟨place, -, hplace⟩ : ∃ place ∈ places, (some place.1, place.2) = (busControllerKey p.1, p.2) := by
    rw [← List.mem_map, h]
    exact List.mem_map_of_mem hp
  have hkey := (Prod.mk.inj hplace).1.symm
  exact Prod.ext (busControllerKey_inj hkey (hfst ▸ hkey)) hsnd

theorem place_controller_ne {used : List (Bus × ℕ)} {places : List (ℤ × ℕ)}
    (h : places.map (fun p => (some p.1, p.2)) = used.map (fun p => (busControllerKey p.1, p.2)))
    {p : ℤ × ℕ} (hp : p ∈ places) : p.1 ≠ ide0Key := by
  intro hide
  have hmem : (some p.1, p.2) ∈ used.map (fun q => (busControllerKey q.1, q.2)) := by
    rw [← h]
    exact List.mem_map_of_mem hp
  obtain ⟨q, -, hq⟩ := List.mem_map.mp hmem
  have hkey : busControllerKey q.1 = some ide0Key := by rw [(Prod.mk.inj hq).1, hide]
  cases hbus : q.1 <;> rw [hbus] at hkey <;> revert hkey <;> decide

theorem map_zipIdx_neg {γ : Type} (xs : List γ) (n : ℕ) :
    xs.zipIdx.map (fun x => -((n : ℤ) + (x.2 : ℤ))) =
      (List.range' n xs.length).map fun k : ℕ => -(k : ℤ) := by
  have hsnd : xs.zipIdx.map Prod.snd = List.range xs.length := by
    rw [List.zipIdx_map_snd, List.range_eq_range']
  rw [List.range'_eq_map_range, ← hsnd, List.map_map, List.map_map]
  refine List.map_congr_left fun x _ => ?_
  simp

/-- How many NICs are attached. -/
def nicCount (a : Staged) : ℕ := if a.buildNic.isSome then 1 else a.spec.nics.length

theorem nicDevices_spec {a : Staged} {nics : List Device}
    (h : nicDevices composeMac a = .ok nics) :
    (∀ d ∈ nics, ∃ key portgroup mac, d = .nic key portgroup mac) ∧
      nics.map Device.key = (List.range' 200 (nicCount a)).map fun n : ℕ => -(n : ℤ) := by
  rw [nicDevices] at h
  split at h
  · rename_i nic hnic
    obtain ⟨portgroup, -, h⟩ := bind_eq_ok.mp h
    cases h
    rw [nicCount, hnic]
    exact ⟨by simp, rfl⟩
  · rename_i hnone
    have hnic : ∀ (x : Iface × ℕ) d, (do
        let portgroup ← a.networkRef x.1.network
        pure (Device.nic (-(200 + (x.2 : ℤ))) portgroup (composeMac a.planName a.spec.name x.2))) =
          Except.ok d → ∃ portgroup mac, d = .nic (-(200 + (x.2 : ℤ))) portgroup mac := by
      intro x d hx
      obtain ⟨portgroup, -, hx⟩ := bind_eq_ok.mp hx
      cases hx
      exact ⟨_, _, rfl⟩
    refine ⟨fun d hd => ?_, ?_⟩
    · obtain ⟨x, -, hx⟩ := mem_mapM h hd
      obtain ⟨portgroup, mac, rfl⟩ := hnic x d hx
      exact ⟨_, _, _, rfl⟩
    · have hkeys : nics.map Device.key = a.spec.nics.zipIdx.map fun x => -(200 + (x.2 : ℤ)) := by
        refine map_mapM h fun x d hx => ?_
        obtain ⟨portgroup, mac, rfl⟩ := hnic x d hx
        rfl
      rw [hkeys, nicCount, hnone]
      exact map_zipIdx_neg _ 200

/-- A fact about the devices that is about disks and media only. -/
theorem createVm_spec {datastore : String} {a : Staged} {spec : ConfigSpec}
    (h : createVm composeMac datastore a = .ok spec) :
    ∃ s nics, Attached a.dataDiskRefs.zipIdx s ∧
      nicDevices composeMac a = .ok nics ∧
      spec.deviceChange = [.controller scsiKey, .disk osKey scsiKey 0 a.osDiskRef] ++ s.out ++
        opticalDevices a ++ nics ++
          [.serial (-400) ("[" ++ datastore ++ "] " ++ a.backendName ++ "/serial0.log")] ∧
      spec.bootOrder = .disk osKey :: if a.bootMediaRef.isSome then [.cdrom] else [] := by
  obtain ⟨disks, hdisks, h⟩ := bind_eq_ok.mp h
  obtain ⟨nics, hnics, h⟩ := bind_eq_ok.mp h
  cases h
  rw [dataDiskDevices] at hdisks
  cases hs : a.dataDiskRefs.zipIdx.foldlM (Loop.attach a.spec) Loop.start with
  | error e => rw [hs] at hdisks; cases hdisks
  | ok s =>
    rw [hs] at hdisks
    cases hdisks
    have hrun := loop_invariant Attached (fun _ _ _ _ hs hx => hs.attach hx) _ [] .start hs
    exact ⟨s, nics, hrun, hnics, rfl, rfl⟩

/-- The keys of the optical media, without their sign. -/
def opticalKeys (a : Staged) : List ℕ :=
  (a.bootMediaRef.toList.map fun _ => 301) ++ a.seedIsoRef.toList.map fun _ => 302

theorem mem_opticalKeys {a : Staged} {k : ℕ} : k ∈ opticalKeys a ↔
    (k = 301 ∧ a.bootMediaRef.isSome = true) ∨ (k = 302 ∧ a.seedIsoRef.isSome = true) := by
  rw [opticalKeys]
  cases a.bootMediaRef <;> cases a.seedIsoRef <;> simp

theorem opticalKeys_nodup (a : Staged) : (opticalKeys a).Nodup := by
  rw [opticalKeys]
  cases a.bootMediaRef <;> cases a.seedIsoRef <;> simp

theorem mediumKeys_nodup_iff (a : Staged) (n : ℕ) :
    (101 :: List.range' 110 n ++ opticalKeys a).Nodup ↔
      ¬ (a.bootMediaRef.isSome = true ∧ 191 < n) ∧ ¬ (a.seedIsoRef.isSome = true ∧ 192 < n) := by
  rw [List.nodup_append', List.nodup_cons]
  constructor
  · rintro ⟨-, -, hdisj⟩
    refine ⟨fun ⟨hboot, hn⟩ => ?_, fun ⟨hseed, hn⟩ => ?_⟩
    · refine hdisj (List.mem_cons_of_mem _ ?_) (mem_opticalKeys.mpr (.inl ⟨rfl, hboot⟩))
      rw [List.mem_range'_1]
      omega
    · refine hdisj (List.mem_cons_of_mem _ ?_) (mem_opticalKeys.mpr (.inr ⟨rfl, hseed⟩))
      rw [List.mem_range'_1]
      omega
  · rintro ⟨hboot, hseed⟩
    refine ⟨⟨by simp, List.nodup_range'⟩, opticalKeys_nodup a, ?_⟩
    intro k hk hoptical
    rw [List.mem_cons, List.mem_range'_1] at hk
    rcases mem_opticalKeys.mp hoptical with ⟨rfl, hb⟩ | ⟨rfl, hs⟩
    · have hle : ¬ 191 < n := fun hn => hboot ⟨hb, hn⟩
      omega
    · have hle : ¬ 192 < n := fun hn => hseed ⟨hs, hn⟩
      omega

theorem neg_nodup_iff {ks : List ℕ} : (ks.map fun k : ℕ => -(k : ℤ)).Nodup ↔ ks.Nodup :=
  List.nodup_map_iff fun j k hjk => by
    have hneg : -(j : ℤ) = -(k : ℤ) := hjk
    omega

theorem opticalDevices_spec (a : Staged) :
    (opticalDevices a).filterMap Device.medium =
        (a.bootMediaRef.toList ++ a.seedIsoRef.toList).map (fun ref => (.cdrom, ref)) ∧
      (opticalDevices a).filterMap Device.mediumKey =
        (opticalKeys a).map (fun k : ℕ => -(k : ℤ)) ∧
      (opticalDevices a).map Device.key = (opticalKeys a).map (fun k : ℕ => -(k : ℤ)) ∧
      ((opticalDevices a).filterMap Device.place).Nodup ∧
      ∀ p ∈ (opticalDevices a).filterMap Device.place, p.1 = ide0Key := by
  rw [opticalDevices, opticalKeys]
  cases a.bootMediaRef <;> cases a.seedIsoRef <;>
    simp [Device.medium, Device.mediumKey, Device.key, Device.place]

theorem filterMap_eq_nil_of_nics {β : Type} {f : Device → Option β} {nics : List Device}
    (hnics : ∀ d ∈ nics, ∃ key portgroup mac, d = .nic key portgroup mac)
    (hf : ∀ key portgroup mac, f (.nic key portgroup mac) = none) : nics.filterMap f = [] := by
  rw [List.filterMap_eq_nil_iff]
  intro d hd
  obtain ⟨key, portgroup, mac, rfl⟩ := hnics d hd
  exact hf key portgroup mac

/-- ESXi places every medium, unless there are so many data disks that one of them takes the
key of an optical medium. -/
theorem placed_iff {datastore : String} {a : Staged} {spec : ConfigSpec}
    (h : createVm composeMac datastore a = .ok spec) :
    Placed a spec ↔ ¬ (a.bootMediaRef.isSome = true ∧ 191 < a.dataDiskRefs.length) ∧
      ¬ (a.seedIsoRef.isSome = true ∧ 192 < a.dataDiskRefs.length) := by
  obtain ⟨s, nics, hs, hnics, hdevices, horder⟩ := createVm_spec h
  obtain ⟨hnics, -⟩ := nicDevices_spec hnics
  obtain ⟨hoptical, hopticalKeys, -, hopticalPlaces, hide⟩ := opticalDevices_spec a
  obtain ⟨used, hused, hplaces, hreserved⟩ := hs.places
  have hlist : ∀ {β : Type} (f : Device → Option β), (∀ key, f (.controller key) = none) →
      (∀ key portgroup mac, f (.nic key portgroup mac) = none) →
      (∀ key fileName, f (.serial key fileName) = none) →
      spec.deviceChange.filterMap f = (f (.disk osKey scsiKey 0 a.osDiskRef)).toList ++
        s.out.filterMap f ++ (opticalDevices a).filterMap f := by
    intro β f hcontroller hnic hserial
    rw [hdevices]
    simp only [List.filterMap_append, filterMap_eq_nil_of_nics hnics hnic, List.filterMap_cons,
      List.filterMap_nil, hcontroller, hserial, List.append_nil]
    cases f (.disk osKey scsiKey 0 a.osDiskRef) <;> rfl
  have hmediumKeys : spec.deviceChange.filterMap Device.mediumKey =
      (101 :: List.range' 110 a.dataDiskRefs.length ++ opticalKeys a).map fun k : ℕ => -(k : ℤ) := by
    rw [hlist _ (fun _ => rfl) (fun _ _ _ => rfl) (fun _ _ => rfl), hs.keys, hopticalKeys,
      show (110 : ℤ) = ((110 : ℕ) : ℤ) from rfl, map_zipIdx_neg]
    simp [Device.mediumKey, osKey]
  have hspecPlaces := hlist Device.place (fun _ => rfl) (fun _ _ _ => rfl) (fun _ _ => rfl)
  -- The OS disk and the data disks, on the controllers of their buses.
  have hdisks : ((scsiKey, 0) :: s.out.filterMap Device.place).map (fun p => (some p.1, p.2)) =
      ((.scsi, 0) :: used).map (fun p => (busControllerKey p.1, p.2)) := by
    rw [List.map_cons, hplaces]
    rfl
  rw [← mediumKeys_nodup_iff, ← neg_nodup_iff, ← hmediumKeys]
  refine ⟨fun hp => hp.keys, fun hkeys => ⟨?_, ?_, ?_, hkeys, ?_, horder⟩⟩
  · rw [hlist _ (fun _ => rfl) (fun _ _ _ => rfl) (fun _ _ => rfl), hs.media, hoptical,
      Staged.media, ← List.zipIdx_map_fst 0 a.dataDiskRefs, List.map_map, List.zipIdx_map_fst]
    rfl
  · rw [hspecPlaces, List.nodup_append']
    refine ⟨nodup_of_places hused.nodup hdisks, hopticalPlaces, ?_⟩
    intro p hp hoptical
    exact place_controller_ne hdisks hp (hide p hoptical)
  · rw [hspecPlaces, List.mem_append]
    rintro (hmem | hmem)
    · have hpair : (some scsiKey, scsiReservedUnit) ∈
          ((.scsi, 0) :: used).map (fun p : Bus × ℕ => (busControllerKey p.1, p.2)) := by
        rw [← hdisks]
        exact List.mem_map_of_mem hmem
      obtain ⟨q, hq, heq⟩ := List.mem_map.mp hpair
      obtain ⟨hkey, hunit⟩ := Prod.mk.inj heq
      have hqscsi : q = (.scsi, scsiReservedUnit) :=
        Prod.ext (busControllerKey_inj hkey rfl) hunit
      rw [hqscsi] at hq
      rcases List.mem_cons.mp hq with hq | hq
      · cases hq
      · exact hreserved hq
    · exact absurd (hide _ hmem) (by decide)
  · rw [hdevices]
    simp

/-- The keys that are not those of controllers, without their sign. -/
def ownKeys (a : Staged) : List ℕ :=
  (101 :: List.range' 110 a.dataDiskRefs.length ++ opticalKeys a) ++
    (List.range' 200 (nicCount a) ++ [400])

/-- No two devices share a key. -/
def KeysApart (a : Staged) : Prop :=
  a.dataDiskRefs.length ≤ 290 ∧ nicCount a ≤ 200 ∧ ¬ (90 < a.dataDiskRefs.length ∧ 0 < nicCount a) ∧
    ¬ (a.bootMediaRef.isSome = true ∧ (191 < a.dataDiskRefs.length ∨ 101 < nicCount a)) ∧
    ¬ (a.seedIsoRef.isSome = true ∧ (192 < a.dataDiskRefs.length ∨ 102 < nicCount a))

theorem mem_mediumKeys {a : Staged} {n k : ℕ} :
    k ∈ 101 :: List.range' 110 n ++ opticalKeys a ↔ k = 101 ∨ (110 ≤ k ∧ k < 110 + n) ∨
      (k = 301 ∧ a.bootMediaRef.isSome = true) ∨ (k = 302 ∧ a.seedIsoRef.isSome = true) := by
  rw [List.mem_append, List.mem_cons, List.mem_range'_1, mem_opticalKeys, or_assoc]

theorem ownKeys_nodup_iff (a : Staged) : (ownKeys a).Nodup ↔ KeysApart a := by
  have hlast : (List.range' 200 (nicCount a) ++ [400]).Nodup ↔ nicCount a ≤ 200 := by
    rw [List.nodup_append']
    simp [List.nodup_range']
    omega
  rw [ownKeys, List.nodup_append', mediumKeys_nodup_iff, hlast, KeysApart]
  constructor
  · rintro ⟨⟨hboot, hseed⟩, hnics, hdisj⟩
    have hmem : ∀ k, (k = 101 ∨ (110 ≤ k ∧ k < 110 + a.dataDiskRefs.length) ∨
        (k = 301 ∧ a.bootMediaRef.isSome = true) ∨ (k = 302 ∧ a.seedIsoRef.isSome = true)) →
        ¬ ((200 ≤ k ∧ k < 200 + nicCount a) ∨ k = 400) := by
      intro k hk hk'
      refine hdisj (mem_mediumKeys.mpr hk) ?_
      rw [List.mem_append, List.mem_range'_1, List.mem_singleton]
      exact hk'
    have h200 := hmem 200
    have h301 := hmem 301
    have h302 := hmem 302
    have h400 := hmem 400
    refine ⟨by omega, hnics, by omega, ?_, ?_⟩
    · rintro ⟨hb, hn | hm⟩
      · exact hboot ⟨hb, hn⟩
      · exact h301 (.inr (.inr (.inl ⟨rfl, hb⟩))) (by omega)
    · rintro ⟨hs, hn | hm⟩
      · exact hseed ⟨hs, hn⟩
      · exact h302 (.inr (.inr (.inr ⟨rfl, hs⟩))) (by omega)
  · rintro ⟨hn, hm, hnm, hboot, hseed⟩
    refine ⟨⟨fun ⟨hb, hlt⟩ => hboot ⟨hb, .inl hlt⟩, fun ⟨hs, hlt⟩ => hseed ⟨hs, .inl hlt⟩⟩, hm, ?_⟩
    intro k hk hk'
    rw [List.mem_append, List.mem_range'_1, List.mem_singleton] at hk'
    rcases mem_mediumKeys.mp hk with rfl | hk | ⟨rfl, hb⟩ | ⟨rfl, hs⟩
    · omega
    · omega
    · have hle : ¬ 101 < nicCount a := fun hlt => hboot ⟨hb, .inr hlt⟩
      omega
    · have hle : ¬ 102 < nicCount a := fun hlt => hseed ⟨hs, .inr hlt⟩
      omega

theorem controllerKeys_nodup {bs : List Bus} (h : bs.Nodup) :
    (bs.filterMap busControllerKey).Nodup :=
  h.filterMap fun _ _ _ hb hb' => busControllerKey_inj (Option.mem_def.mp hb) (Option.mem_def.mp hb')

theorem controllerKey_pos {b : Bus} {key : ℤ} (h : busControllerKey b = some key) : 0 < key := by
  cases b <;> simp only [busControllerKey, scsiKey, sataKey, nvmeKey, ide1Key, Option.some.injEq,
    reduceCtorEq] at h <;> omega

/-- When the keys of all devices are distinct, the NICs and the serial port included. -/
theorem keys_nodup_iff {datastore : String} {a : Staged} {spec : ConfigSpec}
    (h : createVm composeMac datastore a = .ok spec) :
    (spec.deviceChange.map Device.key).Nodup ↔ KeysApart a := by
  obtain ⟨s, nics, hs, hnics, hdevices, -⟩ := createVm_spec h
  obtain ⟨-, hnicKeys⟩ := nicDevices_spec hnics
  obtain ⟨-, -, hopticalKeys, -, -⟩ := opticalDevices_spec a
  obtain ⟨hadded, hbuses, hperm⟩ := hs.controllers
  have hdiskKeys : s.out.filterMap Device.mediumKey =
      (List.range' 110 a.dataDiskRefs.length).map fun k : ℕ => -(k : ℤ) := by
    rw [hs.keys, show (110 : ℤ) = ((110 : ℕ) : ℤ) from rfl, map_zipIdx_neg]
  have hall : (spec.deviceChange.map Device.key).Perm
      ((.scsi :: s.added).filterMap busControllerKey ++
        (ownKeys a).map fun k : ℕ => -(k : ℤ)) := by
    rw [hdevices, List.perm_iff_count]
    intro x
    have hx := hperm.count_eq x
    rw [hdiskKeys] at hx
    simp only [ownKeys, List.map_append, List.map_cons, List.map_nil, List.filterMap_cons,
      busControllerKey, hopticalKeys, hnicKeys, Device.key, List.count_append, List.count_cons,
      List.count_nil, osKey, Nat.cast_ofNat] at hx ⊢
    omega
  rw [hall.nodup_iff, List.nodup_append', neg_nodup_iff, ownKeys_nodup_iff]
  refine ⟨fun hp => hp.2.1, fun hp => ⟨controllerKeys_nodup ?_, hp, ?_⟩⟩
  · refine List.nodup_cons.mpr ⟨fun hmem => ?_, hadded⟩
    rcases hbuses _ hmem with hb | hb <;> cases hb
  · intro x hx hx'
    obtain ⟨b, -, hb⟩ := List.mem_filterMap.mp hx
    obtain ⟨k, -, rfl⟩ := List.mem_map.mp hx'
    have hpos := controllerKey_pos hb
    omega

end Esx

end TestRange.Slots
