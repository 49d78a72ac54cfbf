/-
What a run may ever record: one entry per resource of the plan.

An entry stands for a resource a hook asks for: the kind it is recorded under and the
object it is.  Each hook has its own entries, in the order in which it records them, and
so has the build infrastructure.

* `Entry.target_metadata` — what is recorded for an entry makes the driver's dispatch
  remove exactly its object;
* `RunConfig.own`, `RunConfig.infra`, `RunConfig.catalog` — who records what;
* `RunConfig.Distinct` — the composed names are pairwise distinct;
* `RunConfig.Distinct.owner_unique` — an entry belongs to one hook.
-/
import Mathlib.Data.List.Pairwise
import TestRange.Orchestrator.Runtime

namespace TestRange

/-- The switches of the plan, or the one of the build phase. -/
inductive Fabric
  | declared
  | build
  deriving DecidableEq

/-- The prefix of the kinds of a fabric. -/
def Fabric.kindPrefix : Fabric → String
  | .declared => ""
  | .build => "build_"

/-- A resource of a run. -/
inductive Entry
  | pool (p : StoragePool)
  | buildPool
  | switch (f : Fabric) (sw : Switch)
  | network (f : Fabric) (sw : Switch) (net : String)
  | sidecarDisk (f : Fabric) (sw : Switch)
  | sidecarConfig (f : Fabric) (sw : Switch)
  | sidecarVm (f : Fabric) (sw : Switch)
  | runDisk (v : VMRecipe)
  | dataDisk (v : VMRecipe) (pool : String) (i : ℕ)
  | vm (v : VMRecipe)
  | buildDisk (v : VMRecipe)
  | bootIso (v : VMRecipe)
  | buildDataDisk (v : VMRecipe) (i : ℕ)
  | buildSeed (v : VMRecipe)
  | buildVm (v : VMRecipe)
  deriving DecidableEq

namespace RunConfig

variable (R : RunConfig)

/-- The build pool. -/
def buildHome : String := R.compose "build_pool" buildPoolName

/-- The pool sidecars land in. -/
def home : Fabric → String
  | .declared => R.compose "pool" (R.plan.hyp.pools.head?.elim "" (·.name))
  | .build => R.buildHome

/-- The name of a sidecar VM. -/
def sidecarName (f : Fabric) (sw : Switch) : String :=
  R.compose (f.kindPrefix ++ "sidecar_vm") sw.name

end RunConfig

namespace Entry

/-- The kind an entry is recorded under. -/
def kind : Entry → String
  | pool _ => "pool"
  | buildPool => "build_pool"
  | switch f _ => f.kindPrefix ++ "switch"
  | network f _ _ => f.kindPrefix ++ "network"
  | sidecarDisk _ _ => "sidecar_disk"
  | sidecarConfig _ _ => "sidecar_config"
  | sidecarVm _ _ => "sidecar_vm"
  | runDisk _ => "run_disk"
  | dataDisk _ _ _ => "data_disk"
  | vm _ => "vm"
  | buildDisk _ => "build_disk"
  | bootIso _ => "boot_iso"
  | buildDataDisk _ _ => "data_disk"
  | buildSeed _ => "build_seed"
  | buildVm _ => "build_vm"

variable (R : RunConfig)

/-- The object an entry stands for. -/
def obj : Entry → Obj
  | pool p => .pool (R.compose "pool" p.name)
  | buildPool => .pool R.buildHome
  | switch f sw => .switch (R.compose (f.kindPrefix ++ "switch") sw.name)
  | network f _ net => .network (R.compose (f.kindPrefix ++ "network") net)
  | sidecarDisk f sw => .volume (R.home f) (R.sidecarName f sw ++ R.suffix "sidecar_disk")
  | sidecarConfig f sw =>
    .volume (R.home f) (R.sidecarName f sw ++ "-cfg" ++ R.suffix "sidecar_config")
  | sidecarVm f sw => .vm (R.sidecarName f sw)
  | runDisk v =>
    .volume (R.compose "pool" v.osPool) (R.compose "vm" v.name ++ R.suffix "run_disk")
  | dataDisk v p i => .volume (R.compose "pool" p)
      (R.compose "vm" v.name ++ "-" ++ dataDiskRole i ++ R.suffix "data_disk")
  | vm v => .vm (R.compose "vm" v.name)
  | buildDisk v => .volume R.buildHome (R.compose "build_vm" v.name ++ R.suffix "build_disk")
  | bootIso v =>
    .volume R.buildHome (R.compose "build_vm" v.name ++ "-bootmedia" ++ R.suffix "boot_iso")
  | buildDataDisk v i => .volume R.buildHome
      (R.compose "build_vm" v.name ++ "-" ++ dataDiskRole i ++ R.suffix "data_disk")
  | buildSeed v =>
    .volume R.buildHome (R.compose "build_vm" v.name ++ "-seed" ++ R.suffix "build_seed")
  | buildVm v => .vm (R.compose "build_vm" v.name)

/-- The backend name an entry is recorded under. -/
def name (e : Entry) : String := (e.obj R).name

/-- The metadata an object is recorded with. -/
def metadataOf : Obj → Dict
  | .volume p _ => poolMetadata p
  | _ => .empty

/-- The metadata an entry is recorded with. -/
def metadata (e : Entry) : Dict := metadataOf (e.obj R)

theorem get?_poolMetadata (p : String) :
    (poolMetadata p).get? "pool_backend" = some (.str p) := by
  simp [poolMetadata, Dict.get?, Dict.insert, Dict.empty, Dict.insertEntry, Json.sortKeys]

/-- Confirming with the metadata of the intent changes nothing of it. -/
theorem update_metadataOf (o : Obj) : (metadataOf o).update (metadataOf o) = metadataOf o := by
  cases o with
  | volume p n =>
    apply Dict.ext
    simp [metadataOf, poolMetadata, Dict.update, Dict.insertMany, Dict.insert, Dict.empty,
      Dict.insertEntry, Json.sortKeys]
  | _ => rfl

/-- A volume kind with its pool is the volume. -/
theorem destroyTarget_volume {kind name p : String} (hp : p ≠ "") (hkind : kind ∈ volumeKinds) :
    destroyTarget kind name (poolMetadata p) = .ok (.volume p name) := by
  have hother : ∀ k ∈ volumeKinds, k ∉ ["network", "build_network"] ∧ k ∉ ["pool", "build_pool"] ∧
      k ∉ ["vm", "build_vm", "sidecar_vm"] := by decide
  obtain ⟨h₁, h₂, h₃⟩ := hother kind hkind
  simp [destroyTarget, h₁, h₂, h₃, hkind, get?_poolMetadata, truthy, pyStr, hp]

/-- **What is recorded for an entry dispatches to the removal of its object.** -/
theorem target_metadata (e : Entry) :
    destroyTarget e.kind (e.name R) (e.metadata R) = .ok (e.obj R) := by
  have hne : ∀ kind name, R.compose kind name ≠ "" := fun kind name =>
    R.naming.composeResourceName_ne R.runId kind name
  have hhome : ∀ f, R.home f ≠ "" := by
    intro f
    cases f <;> exact hne _ _
  cases e with
  | switch f sw => cases f <;> rfl
  | network f sw net => cases f <;> rfl
  | sidecarDisk f sw => exact destroyTarget_volume (hhome f) (by simp [kind, volumeKinds])
  | sidecarConfig f sw => exact destroyTarget_volume (hhome f) (by simp [kind, volumeKinds])
  | runDisk v => exact destroyTarget_volume (hne _ _) (by simp [kind, volumeKinds])
  | dataDisk v p i => exact destroyTarget_volume (hne _ _) (by simp [kind, volumeKinds])
  | buildDisk v => exact destroyTarget_volume (hne _ _) (by simp [kind, volumeKinds])
  | bootIso v => exact destroyTarget_volume (hne _ _) (by simp [kind, volumeKinds])
  | buildDataDisk v i => exact destroyTarget_volume (hne _ _) (by simp [kind, volumeKinds])
  | buildSeed v => exact destroyTarget_volume (hne _ _) (by simp [kind, volumeKinds])
  | _ => rfl

end Entry

/-! ### Who records what -/

/-- The entries of a switch and its networks. -/
def fabricEntries (f : Fabric) (sw : Switch) : List Entry :=
  .switch f sw :: sw.networks.map (.network f sw)

/-- The entries of a sidecar. -/
def sidecarEntries (f : Fabric) (sw : Switch) : List Entry :=
  [.sidecarDisk f sw, .sidecarConfig f sw, .sidecarVm f sw]

/-- The entries of a switch's sidecar, if it needs one. -/
def sidecarsOf (f : Fabric) (sw : Switch) : List Entry :=
  if sw.needsSidecar then sidecarEntries f sw else []

/-- The entries of a VM of the run. -/
def runEntries (v : VMRecipe) : List Entry :=
  .runDisk v :: v.dataPools.zipIdx.map (fun hd => .dataDisk v hd.1 hd.2) ++ [.vm v]

/-- The entries of the build of a VM. -/
def buildEntries (v : VMRecipe) : List Entry :=
  [.buildDisk v, .bootIso v] ++ (List.range v.dataPools.length).map (.buildDataDisk v) ++
    [.buildSeed v, .buildVm v]

/-- The entries of a hook. -/
def ownEntries : Walk × Node → List Entry
  | (.materialize, .vm v _) => buildEntries v
  | (.materialize, _) => []
  | (.realize, .pool p) => [.pool p]
  | (.realize, .network sw) => fabricEntries .declared sw
  | (.realize, .sidecar sw) => sidecarEntries .declared sw
  | (.realize, .vm v _) => runEntries v

namespace RunConfig

variable (R : RunConfig)

/-- The entries of the build infrastructure. -/
def infra : List Entry :=
  .buildPool :: fabricEntries .build R.buildSwitch ++ sidecarsOf .build R.buildSwitch

/-- The hooks of a run. -/
def items : List (Walk × Node) :=
  R.plan.graph.nodes.map (.materialize, ·) ++ R.plan.graph.nodes.map (.realize, ·)

/-- Everything a run may record. -/
def catalog : List Entry := R.infra ++ R.items.flatMap ownEntries

/-- The composed backend names are pairwise distinct, and no switch is given one of them
as its uplink. -/
structure Distinct : Prop where
  nodup : (R.catalog.map (Entry.name R)).Nodup
  uplink : ∀ sw, ∀ e ∈ R.catalog, e.name R ≠ R.driver.uplinkSegment sw

variable {R}

theorem mem_items {i : Walk × Node} : i ∈ R.items ↔ i.2 ∈ R.plan.graph.nodes := by
  obtain ⟨walk, n⟩ := i
  cases walk <;> simp [items]

theorem infra_subset {e : Entry} (h : e ∈ R.infra) : e ∈ R.catalog := List.mem_append_left _ h

theorem own_subset {i : Walk × Node} (hi : i ∈ R.items) {e : Entry} (h : e ∈ ownEntries i) :
    e ∈ R.catalog :=
  List.mem_append_right _ (List.mem_flatMap.mpr ⟨i, hi, h⟩)

theorem mem_catalog {e : Entry} :
    e ∈ R.catalog ↔ e ∈ R.infra ∨ ∃ i ∈ R.items, e ∈ ownEntries i := by
  rw [catalog, List.mem_append, List.mem_flatMap]

namespace Distinct

variable (h : R.Distinct)

include h

theorem nodup_catalog : R.catalog.Nodup := List.Nodup.of_map _ h.nodup

/-- An entry is known by its name. -/
theorem name_inj {e e' : Entry} (he : e ∈ R.catalog) (he' : e' ∈ R.catalog)
    (hname : e.name R = e'.name R) : e = e' :=
  List.inj_on_of_nodup_map h.nodup he he' hname

theorem obj_inj {e e' : Entry} (he : e ∈ R.catalog) (he' : e' ∈ R.catalog)
    (hobj : e.obj R = e'.obj R) : e = e' :=
  h.name_inj he he' (by rw [Entry.name, hobj, Entry.name])

theorem nodup_infra : R.infra.Nodup := (List.nodup_append.mp h.nodup_catalog).1

theorem nodup_own {i : Walk × Node} (hi : i ∈ R.items) : (ownEntries i).Nodup :=
  (List.nodup_flatMap.mp (List.nodup_append.mp h.nodup_catalog).2.1).1 i hi

/-- **An entry belongs to one hook.** -/
theorem owner_unique {i j : Walk × Node} (hi : i ∈ R.items) (hj : j ∈ R.items) {e : Entry}
    (hei : e ∈ ownEntries i) (hej : e ∈ ownEntries j) : i = j := by
  by_contra hne
  have hpair := (List.nodup_flatMap.mp (List.nodup_append.mp h.nodup_catalog).2.1).2
  have hsymm : Std.Symm (Function.onFun List.Disjoint ownEntries) :=
    ⟨fun _ _ hd => hd.symm⟩
  exact hpair.forall hi hj hne hei hej

theorem not_own_of_infra {i : Walk × Node} (hi : i ∈ R.items) {e : Entry} (he : e ∈ R.infra) :
    e ∉ ownEntries i := by
  intro hown
  exact (List.nodup_append.mp h.nodup_catalog).2.2 e he e
    (List.mem_flatMap.mpr ⟨i, hi, hown⟩) rfl

end Distinct

end RunConfig

/-- A recorded resource is that of an entry. -/
structure Resource.Fits (R : RunConfig) (e : Entry) (r : Resource) : Prop where
  kind : r.kind = e.kind
  name : r.backendName = e.name R
  metadata : r.metadata = e.metadata R

theorem Resource.Fits.target {R : RunConfig} {e : Entry} {r : Resource} (h : r.Fits R e) :
    r.target = .ok (e.obj R) := by
  rw [Resource.target, h.kind, h.name, h.metadata]
  exact e.target_metadata R

end TestRange
