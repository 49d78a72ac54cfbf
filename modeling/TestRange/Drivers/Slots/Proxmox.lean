/-
Where the devices of a VM sit on Proxmox.

A data disk takes the key of its bus with the number of its place, next to fixed keys of the
OS disk and the optical media; an assignment to a key that is there overwrites it.

* `Pve.createVm` — the configuration that is posted;
* `Pve.Placed` — every disk and medium has a key of its own, and the OS disk boots;
* `Pve.placed_iff` — when that holds.
-/
import TestRange.Drivers.Slots.Spec
import TestRange.Lib.Dict
import TestRange.Lib.Text
import TestRange.Lib.Untyped

namespace TestRange.Slots

-- `compose_mac` of the driver.
variable (composeMac : String → String → ℤ → String)

namespace Pve

/-! ### The configuration -/

/-- The bus of a data disk: `scsi`, unless it is a `ProxmoxHardDrive`. -/
def bus (drive : Drive) : Bus :=
  match drive.sort with
  | .proxmox bus _ => bus
  | _ => .scsi

/-- `f"{bus}{n}"` -/
def slotKey (bus : Bus) (n : ℕ) : String := bus.text ++ toString n

/-- `f"{storage}:{size_gb},format=qcow2"`: a blank disk. -/
def blank (storage : String) (drive : Drive) : String :=
  storage ++ ":" ++ toString drive.sizeGb ++ ",format=qcow2"

/-- `f"{storage}:0,import-from={ref}"`: a copy of a staged volume. -/
def importFrom (storage ref : String) : String := storage ++ ":0,import-from=" ++ ref

def cdrom (ref : String) : String := ref ++ ",media=cdrom"

/-- A VM with a seed or a boot medium is one that is being built. -/
def isBuild (a : Staged) : Bool := a.seedIsoRef.isSome || a.bootMediaRef.isSome

/-- What the OS disk is made of: a blank for an installer, a copy otherwise. -/
def osDisk (storage : String) (a : Staged) : String :=
  if a.bootMediaRef.isSome then blank storage a.spec.osDrive else importFrom storage a.osDiskRef

/-- What a data disk is made of: a blank while building, a copy afterwards. -/
def dataDisk (storage : String) (a : Staged) (drive : Drive) (ref : String) : String :=
  if isBuild a then blank storage drive else importFrom storage ref

/-- `virtio={mac},bridge={bridge}` -/
def nicText (mac bridge : String) : String := "virtio=" ++ mac ++ ",bridge=" ++ bridge

/-- The entry of the data disk with index `i`. -/
def dataEntry (storage : String) (a : Staged) (x : String × ℕ) :
    Except CreateError (String × Json) :=
  match a.spec.dataDrives[x.2]? with
  | some drive => .ok (slotKey (bus drive) (x.2 + 1), .str (dataDisk storage a drive x.1))
  | none => .error .indexError

/-- The entries of the NICs: the build NIC alone, or the declared ones. -/
def nicEntries (a : Staged) : Except CreateError (List (String × Json)) :=
  match a.buildNic with
  | some nic => do
    let bridge ← a.networkRef nic.network
    pure [("net0", .str (nicText nic.mac bridge))]
  | none => a.spec.nics.zipIdx.mapM fun x => do
    let bridge ← a.networkRef x.1.network
    pure ("net" ++ toString x.2, .str (nicText (composeMac a.planName a.spec.name x.2) bridge))

/-- The entries every VM has. -/
def baseEntries (storage : String) (a : Staged) : List (String × Json) :=
  [("name", .str a.backendName), ("cores", .int a.spec.cpuCount), ("memory", .int a.spec.memoryMb),
    ("scsihw", .str "virtio-scsi-single"), ("ostype", .str "l26"), ("agent", .int 1),
    ("serial0", .str "socket"), ("boot", .str "order=scsi0"), ("scsi0", .str (osDisk storage a))]

def firmwareEntries (storage : String) (a : Staged) : List (String × Json) :=
  if a.spec.firmware = .uefi then
    [("bios", .str "ovmf"), ("machine", .str "q35"),
      ("efidisk0", .str (storage ++ ":1,efitype=4m,pre-enrolled-keys=0"))]
  else []

/-- The seed rides `ide2`, the boot medium `ide0`. -/
def opticalEntries (a : Staged) : List (String × Json) :=
  (a.seedIsoRef.toList.map fun ref => ("ide2", .str (cdrom ref))) ++
    a.bootMediaRef.toList.map fun ref => ("ide0", .str (cdrom ref))

/-- The assignments to the configuration, in order. -/
def assignments (storage : String) (vmid : ℕ) (a : Staged) :
    Except CreateError (List (String × Json)) := do
  let disks ← a.dataDiskRefs.zipIdx.mapM (dataEntry storage a)
  let nics ← nicEntries composeMac a
  pure (baseEntries storage a ++ firmwareEntries storage a ++ disks ++ opticalEntries a ++ nics ++
    [("vmid", .int vmid)])

/-- The configuration that is posted: a later assignment to a key overwrites an earlier one. -/
def createVm (storage : String) (vmid : ℕ) (a : Staged) :
    Except CreateError (List (String × Json)) :=
  (assignments composeMac storage vmid a).map Json.dictOf

/-! ### The slots -/

open Untyped

variable {composeMac}

/-- The disks and media of a VM. -/
inductive Part
  | os
  | data (i : ℕ)
  | seed
  | boot
  deriving DecidableEq

/-- The key and the value a disk or a medium of the VM is to have, if the VM has it. -/
def entry (storage : String) (a : Staged) : Part → Option (String × Json)
  | .os => some ("scsi0", .str (osDisk storage a))
  | .data i => do
    let ref ← a.dataDiskRefs[i]?
    let drive ← a.spec.dataDrives[i]?
    pure (slotKey (bus drive) (i + 1), .str (dataDisk storage a drive ref))
  | .seed => a.seedIsoRef.map fun ref => ("ide2", .str (cdrom ref))
  | .boot => a.bootMediaRef.map fun ref => ("ide0", .str (cdrom ref))

/-- Every disk and every medium has a key of its own, the configuration has its value there,
and the OS disk boots. -/
structure Placed (storage : String) (a : Staged) (cfg : List (String × Json)) : Prop where
  data : ∀ i < a.dataDiskRefs.length, (entry storage a (.data i)).isSome = true
  apart : ∀ p p' key v v', entry storage a p = some (key, v) → entry storage a p' = some (key, v') →
    p = p'
  submitted : ∀ p key v, entry storage a p = some (key, v) → cfg.lookup key = some v
  boot : cfg.lookup "boot" = some (.str "order=scsi0")

/-- The seed and the second data disk ask for one slot. -/
def SeedClash (a : Staged) : Prop :=
  a.seedIsoRef.isSome = true ∧ 1 < a.dataDiskRefs.length ∧
    ∃ drive, a.spec.dataDrives[1]? = some drive ∧ bus drive = .ide

/-! A key is a word and a number. -/

def parts (key : String) : List Char × List Char := key.toList.span fun c => !c.isDigit

theorem span_append {word digits : List Char} (hword : word.all (fun c => !c.isDigit) = true)
    (hdigits : ∀ c ∈ digits, c.isDigit = true) :
    (word ++ digits).span (fun c => !c.isDigit) = (word, digits) := by
  rw [List.span_eq_takeWhile_dropWhile]
  have htake : ∀ ds : List Char, (∀ c ∈ ds, c.isDigit = true) →
      ds.takeWhile (fun c => !c.isDigit) = [] ∧ ds.dropWhile (fun c => !c.isDigit) = ds := by
    intro ds hds
    cases ds with
    | nil => exact ⟨rfl, rfl⟩
    | cons d ds => simp [hds d List.mem_cons_self]
  obtain ⟨h₁, h₂⟩ := htake digits hdigits
  rw [List.takeWhile_append_of_pos (by simpa using hword),
    List.dropWhile_append_of_pos (by simpa using hword), h₁, h₂, List.append_nil]

theorem parts_append {word : String} (hword : word.toList.all (fun c => !c.isDigit) = true) (n : ℕ) :
    parts (word ++ toString n) = (word.toList, Nat.toDigits 10 n) := by
  rw [parts, String.toList_append, show (toString n).toList = Nat.toDigits 10 n from Nat.toList_repr]
  exact span_append hword fun c hc => Nat.isDigit_of_mem_toDigits (by decide) (by decide) hc

theorem parts_slotKey (bus : Bus) (n : ℕ) :
    parts (slotKey bus n) = (bus.text.toList, Nat.toDigits 10 n) :=
  parts_append (by cases bus <;> decide) n

theorem parts_net (n : ℕ) : parts ("net" ++ toString n) = (['n', 'e', 't'], Nat.toDigits 10 n) :=
  parts_append (by decide) n

theorem slotKey_inj {b b' : Bus} {m n : ℕ} (h : slotKey b m = slotKey b' n) : b = b' ∧ m = n := by
  have hparts := congrArg parts h
  rw [parts_slotKey, parts_slotKey] at hparts
  obtain ⟨hword, hdigits⟩ := Prod.mk.inj hparts
  refine ⟨?_, Text.toDigits_inj hdigits⟩
  revert hword
  cases b <;> cases b' <;> decide

/-- The keys that do not depend on the data disks and the NICs. -/
def fixedKeys (uefi seed boot : Bool) : List String :=
  ["name", "cores", "memory", "scsihw", "ostype", "agent", "serial0", "boot", "scsi0"] ++
    (if uefi then ["bios", "machine", "efidisk0"] else []) ++
      ((if seed then ["ide2"] else []) ++ if boot then ["ide0"] else []) ++ ["vmid"]

theorem fixedKeys_nodup (uefi seed boot : Bool) : (fixedKeys uefi seed boot).Nodup := by
  cases uefi <;> cases seed <;> cases boot <;> decide

/-- A fixed key that reads like one of a disk has the number 0, the one of the seed apart. -/
theorem parts_fixed_bus (uefi seed boot : Bool) : ∀ key ∈ fixedKeys uefi seed boot,
    ∀ b ∈ [Bus.virtio, .scsi, .sata, .ide, .nvme], (parts key).1 = b.text.toList →
      (parts key).2 = ['0'] ∨ (b = .ide ∧ (parts key).2 = ['2'] ∧ seed = true) := by
  cases uefi <;> cases seed <;> cases boot <;> decide

theorem parts_fixed_net (uefi seed boot : Bool) : ∀ key ∈ fixedKeys uefi seed boot,
    (parts key).1 ≠ ['n', 'e', 't'] := by
  cases uefi <;> cases seed <;> cases boot <;> decide

/-- The bus and the number of a disk or a medium. -/
def place (a : Staged) : Part → Bus × ℕ
  | .os => (.scsi, 0)
  | .data i => ((a.spec.dataDrives[i]?.map bus).getD .scsi, i + 1)
  | .seed => (.ide, 2)
  | .boot => (.ide, 0)

theorem entry_data {storage : String} {a : Staged} {i : ℕ} {key : String} {v : Json} :
    entry storage a (.data i) = some (key, v) ↔ ∃ ref drive, a.dataDiskRefs[i]? = some ref ∧
      a.spec.dataDrives[i]? = some drive ∧ slotKey (bus drive) (i + 1) = key ∧
        .str (dataDisk storage a drive ref) = v := by
  simp [entry, Option.bind_eq_some_iff]

theorem entry_key {storage : String} {a : Staged} {p : Part} {key : String} {v : Json}
    (h : entry storage a p = some (key, v)) : key = slotKey (place a p).1 (place a p).2 := by
  cases p with
  | os =>
    cases h
    show "scsi0" = slotKey .scsi 0
    decide
  | data i =>
    obtain ⟨ref, drive, -, hdrive, rfl, -⟩ := entry_data.mp h
    rw [place, hdrive]
    rfl
  | seed =>
    obtain ⟨ref, -, heq⟩ := Option.map_eq_some_iff.mp h
    cases heq
    show "ide2" = slotKey .ide 2
    decide
  | boot =>
    obtain ⟨ref, -, heq⟩ := Option.map_eq_some_iff.mp h
    cases heq
    show "ide0" = slotKey .ide 0
    decide

/-- Two disks or media ask for one key only where the seed clashes. -/
theorem part_eq_of_entry {storage : String} {a : Staged} {p p' : Part} {key : String} {v v' : Json}
    (hclash : ¬ SeedClash a) (h : entry storage a p = some (key, v))
    (h' : entry storage a p' = some (key, v')) : p = p' := by
  have hseed : ∀ {i : ℕ} {v v' : Json}, entry storage a (.data i) = some (key, v) →
      entry storage a .seed = some (key, v') → False := by
    intro i v v' hi hs
    have hkeys := (entry_key hi).symm.trans (entry_key hs)
    obtain ⟨hbus, hnum⟩ := slotKey_inj hkeys
    obtain ⟨ref, drive, href, hdrive, -, -⟩ := entry_data.mp hi
    obtain rfl : i = 1 := Nat.succ_injective hnum
    obtain ⟨seed, hs, -⟩ := Option.map_eq_some_iff.mp hs
    have hlen := (List.getElem?_eq_some_iff.mp href).1
    refine hclash ⟨by rw [hs]; rfl, hlen, drive, hdrive, ?_⟩
    simpa [place, hdrive] using hbus
  have hkeys := (entry_key h).symm.trans (entry_key h')
  obtain ⟨hbus, hnum⟩ := slotKey_inj hkeys
  -- Two data disks have different numbers; a data disk and the seed are excluded.
  cases p <;> cases p' <;> simp [place] at hbus hnum ⊢
  · exact hnum
  · exact hseed h h'
  · exact hseed h' h

theorem mem_of_entry {storage : String} {vmid : ℕ} {a : Staged} {entries : List (String × Json)}
    (h : assignments composeMac storage vmid a = .ok entries) {p : Part} {key : String} {v : Json}
    (hp : entry storage a p = some (key, v)) : (key, v) ∈ entries := by
  obtain ⟨disks, hdisks, h⟩ := bind_eq_ok.mp h
  obtain ⟨nics, -, h⟩ := bind_eq_ok.mp h
  cases h
  cases p with
  | os =>
    cases hp
    simp [baseEntries]
  | data i =>
    obtain ⟨ref, drive, href, hdrive, rfl, rfl⟩ := entry_data.mp hp
    have hmem : (ref, i) ∈ a.dataDiskRefs.zipIdx := List.mem_zipIdx_iff_getElem?.mpr href
    obtain ⟨y, hy, heq⟩ := exists_of_mapM hdisks hmem
    rw [dataEntry, hdrive] at heq
    cases heq
    simp [hy]
  | seed =>
    obtain ⟨ref, href, heq⟩ := Option.map_eq_some_iff.mp hp
    cases heq
    simp [opticalEntries, href]
  | boot =>
    obtain ⟨ref, href, heq⟩ := Option.map_eq_some_iff.mp hp
    cases heq
    simp [opticalEntries, href]

theorem nicEntries_spec {a : Staged} {nics : List (String × Json)}
    (h : nicEntries composeMac a = .ok nics) :
    ∃ n, nics.map Prod.fst = (List.range n).map fun i => "net" ++ toString i := by
  rw [nicEntries] at h
  split at h
  · obtain ⟨bridge, -, h⟩ := bind_eq_ok.mp h
    cases h
    refine ⟨1, ?_⟩
    show ["net0"] = (List.range 1).map fun i => "net" ++ toString i
    decide
  · refine ⟨a.spec.nics.length, ?_⟩
    have hkeys : nics.map Prod.fst = a.spec.nics.zipIdx.map fun x => "net" ++ toString x.2 := by
      refine map_mapM h fun x y hx => ?_
      obtain ⟨bridge, -, hx⟩ := bind_eq_ok.mp hx
      cases hx
      rfl
    rw [hkeys, List.range_eq_range', ← List.zipIdx_map_snd 0 a.spec.nics, List.map_map]
    rfl

/-- What the keys of the data disks read like. -/
theorem diskEntries_spec {storage : String} {a : Staged} {disks : List (String × Json)}
    (h : a.dataDiskRefs.zipIdx.mapM (dataEntry storage a) = .ok disks) :
    (disks.map Prod.fst).Nodup ∧ ∀ key ∈ disks.map Prod.fst, ∃ i drive,
      i < a.dataDiskRefs.length ∧ a.spec.dataDrives[i]? = some drive ∧
        key = slotKey (bus drive) (i + 1) := by
  have hentry : ∀ x y, dataEntry storage a x = .ok y →
      ∃ drive, a.spec.dataDrives[x.2]? = some drive ∧ y.1 = slotKey (bus drive) (x.2 + 1) := by
    intro x y hx
    rw [dataEntry] at hx
    split at hx
    · rename_i drive hdrive
      cases hx
      exact ⟨drive, hdrive, rfl⟩
    · cases hx
  constructor
  · refine List.Nodup.of_map (fun key => (parts key).2) ?_
    have hdigits : (disks.map Prod.fst).map (fun key => (parts key).2) =
        (List.range a.dataDiskRefs.length).map fun i => Nat.toDigits 10 (i + 1) := by
      rw [List.map_map, List.range_eq_range', ← List.zipIdx_map_snd 0 a.dataDiskRefs, List.map_map]
      refine map_mapM h fun x y hx => ?_
      obtain ⟨drive, -, hy⟩ := hentry x y hx
      show (parts y.1).2 = _
      rw [hy, parts_slotKey]
      rfl
    rw [hdigits]
    exact List.nodup_range.map fun i j hij => Nat.succ_injective (Text.toDigits_inj hij)
  · intro key hkey
    obtain ⟨y, hy, rfl⟩ := List.mem_map.mp hkey
    obtain ⟨x, hx, hxy⟩ := mem_mapM h hy
    obtain ⟨drive, hdrive, hkey⟩ := hentry x y hxy
    exact ⟨x.2, drive, (List.mem_zipIdx' hx).1, hdrive, hkey⟩

theorem assignments_nodup {storage : String} {vmid : ℕ} {a : Staged}
    {entries : List (String × Json)} (h : assignments composeMac storage vmid a = .ok entries)
    (hclash : ¬ SeedClash a) : (entries.map Prod.fst).Nodup := by
  obtain ⟨disks, hdisks, h⟩ := bind_eq_ok.mp h
  obtain ⟨nics, hnics, h⟩ := bind_eq_ok.mp h
  cases h
  obtain ⟨n, hnics⟩ := nicEntries_spec hnics
  obtain ⟨hnodup, hkeys⟩ := diskEntries_spec hdisks
  set fixed := fixedKeys (decide (a.spec.firmware = .uefi)) a.seedIsoRef.isSome
    a.bootMediaRef.isSome with hfixed
  have hbase : (baseEntries storage a ++ firmwareEntries storage a ++ opticalEntries a ++
      [("vmid", Json.int vmid)]).map Prod.fst = fixed := by
    rw [hfixed, fixedKeys, baseEntries, firmwareEntries, opticalEntries]
    cases a.spec.firmware <;> cases a.seedIsoRef <;> cases a.bootMediaRef <;> rfl
  have hperm : ((baseEntries storage a ++ firmwareEntries storage a ++ disks ++ opticalEntries a ++
      nics ++ [("vmid", Json.int vmid)]).map Prod.fst).Perm
        (fixed ++ (disks.map Prod.fst ++ nics.map Prod.fst)) := by
    rw [← hbase, List.perm_iff_count]
    intro key
    simp only [List.map_append, List.count_append]
    omega
  have hnet : ∀ key ∈ nics.map Prod.fst, (parts key).1 = ['n', 'e', 't'] := by
    rw [hnics]
    intro key hkey
    obtain ⟨i, -, rfl⟩ := List.mem_map.mp hkey
    rw [parts_net]
  rw [hperm.nodup_iff, List.nodup_append', List.nodup_append']
  refine ⟨fixedKeys_nodup _ _ _, ⟨hnodup, ?_, ?_⟩, ?_⟩
  · rw [hnics]
    refine List.nodup_range.map fun i j hij => ?_
    have hparts := congrArg parts hij
    rw [parts_net, parts_net] at hparts
    exact Text.toDigits_inj (Prod.mk.inj hparts).2
  · intro key hdisk hnic
    obtain ⟨i, drive, -, -, rfl⟩ := hkeys key hdisk
    have hword := hnet _ hnic
    rw [parts_slotKey] at hword
    have hword : (bus drive).text.toList = ['n', 'e', 't'] := hword
    revert hword
    cases bus drive <;> decide
  · intro key hkey hother
    rcases List.mem_append.mp hother with hdisk | hnic
    · obtain ⟨i, drive, hi, hdrive, rfl⟩ := hkeys key hdisk
      have hbus : bus drive ∈ [Bus.virtio, .scsi, .sata, .ide, .nvme] := by
        cases bus drive <;> decide
      have hparts := parts_fixed_bus _ _ _ _ hkey _ hbus
      rw [parts_slotKey] at hparts
      rcases hparts rfl with hzero | ⟨hide, htwo, hseed⟩
      · exact absurd (Text.toDigits_inj (n := 0) hzero) (Nat.succ_ne_zero i)
      · obtain rfl : i = 1 := Nat.succ_injective (Text.toDigits_inj (n := 2) htwo)
        exact hclash ⟨hseed, hi, drive, hdrive, hide⟩
    · exact parts_fixed_net _ _ _ key hkey (hnet key hnic)

theorem boot_mem {storage : String} {vmid : ℕ} {a : Staged} {entries : List (String × Json)}
    (h : assignments composeMac storage vmid a = .ok entries) :
    ("boot", Json.str "order=scsi0") ∈ entries := by
  obtain ⟨disks, -, h⟩ := bind_eq_ok.mp h
  obtain ⟨nics, -, h⟩ := bind_eq_ok.mp h
  cases h
  simp [baseEntries]

theorem entry_isSome {storage : String} {vmid : ℕ} {a : Staged} {entries : List (String × Json)}
    (h : assignments composeMac storage vmid a = .ok entries) {i : ℕ}
    (hi : i < a.dataDiskRefs.length) : (entry storage a (.data i)).isSome = true := by
  obtain ⟨disks, hdisks, -⟩ := bind_eq_ok.mp h
  have hmem : (a.dataDiskRefs[i], i) ∈ a.dataDiskRefs.zipIdx :=
    List.mem_zipIdx_iff_getElem?.mpr (List.getElem?_eq_getElem hi)
  obtain ⟨y, -, heq⟩ := exists_of_mapM hdisks hmem
  cases hdrive : a.spec.dataDrives[i]? with
  | none => simp [dataEntry, hdrive] at heq
  | some drive => simp [entry, List.getElem?_eq_getElem hi, hdrive]

/-- Proxmox places every disk and medium, unless a seed comes with a second data disk on `ide`. -/
theorem placed_iff {storage : String} {vmid : ℕ} {a : Staged} {cfg : List (String × Json)}
    (h : createVm composeMac storage vmid a = .ok cfg) : Placed storage a cfg ↔ ¬ SeedClash a := by
  rw [createVm] at h
  cases hentries : assignments composeMac storage vmid a with
  | error e => rw [hentries] at h; cases h
  | ok entries =>
    rw [hentries] at h
    cases h
    constructor
    · rintro hp ⟨hseed, hlen, drive, hdrive, hide⟩
      obtain ⟨seed, hseed⟩ := Option.isSome_iff_exists.mp hseed
      have hdata : entry storage a (.data 1) =
          some ("ide2", .str (dataDisk storage a drive a.dataDiskRefs[1])) := by
        refine entry_data.mpr ⟨_, drive, List.getElem?_eq_getElem hlen, hdrive, ?_, rfl⟩
        rw [hide]
        decide
      have hmedium : entry storage a .seed = some ("ide2", .str (cdrom seed)) := by
        simp [entry, hseed]
      have hsame := hp.apart _ _ _ _ _ hdata hmedium
      cases hsame
    · intro hclash
      have hnodup := assignments_nodup hentries hclash
      have hlookup : ∀ {key v}, (key, v) ∈ entries → (Json.dictOf entries).lookup key = some v := by
        intro key v hmem
        rw [Json.dictOf_of_nodup hnodup]
        exact (Json.lookup_eq_some_iff_mem hnodup).mpr hmem
      exact ⟨fun i hi => entry_isSome hentries hi,
        fun p p' key v v' hp hp' => part_eq_of_entry hclash hp hp',
        fun p key v hp => hlookup (mem_of_entry hentries hp), hlookup (boot_mem hentries)⟩

end Pve

end TestRange.Slots
