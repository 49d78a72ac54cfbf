/-
The hooks of the nodes, as programs.

Every resource is recorded before the call that creates it and confirmed after it.  The
build infrastructure is made by the first VM that misses the cache, under a lock, and
torn down after the walk.

* `RunConfig` — a run: its plan, its names, its driver;
* `tracked` — record, create, confirm;
* `materialize`, `realize` — the hooks of the four kinds of nodes.
-/
import TestRange.Orchestrator.Context

namespace TestRange

/-! ### A run -/

/-- How a driver names what it is asked to create. -/
structure Naming where
  composeResourceName : (runId kind name : String) → String
  volumeSuffix : (kind : String) → String
  composeResourceName_ne : ∀ runId kind name, composeResourceName runId kind name ≠ ""

/-- What the key walk finds out about a VM's build. -/
structure Probe where
  /-- Every disk is in the cache. -/
  cached : Bool
  installerOrigin : Bool
  bootMedia : Bool
  seed : Bool

/-- A run of a plan: what stays the same over all its processes. -/
structure RunConfig where
  plan : Plan
  runId : String
  naming : Naming
  driver : Driver

/-- What a process of a run is started with. -/
structure Process extends RunConfig where
  probe : VMRecipe → Probe
  /-- Resuming, and the node was stamped realized when the state was reopened. -/
  reattach : String → Bool

namespace RunConfig

variable (R : RunConfig)

/-- `drv.compose_resource_name(ctx.run_id, kind, name)` -/
def compose (kind name : String) : String := R.naming.composeResourceName R.runId kind name

def suffix (kind : String) : String := R.naming.volumeSuffix kind

end RunConfig

/-! ### Calls -/

/-- A program of hooks. -/
abbrev Hook := Prog sysSig Err

def sysOp (o : SysOp) : Hook (sysSig.Res o) := Prog.perform (S := sysSig) o

/-- `d[k]` -/
def getItem {α : Type} (d : String → Option α) (k : String) : Hook α :=
  match d k with
  | some v => pure v
  | none => throw (.key k)

def setPool (name backend : String) : Hook Unit :=
  sysOp (.updateCtx fun c => { c with
    poolBackends := Function.update c.poolBackends name (some backend) })

def setSwitch (name backend : String) : Hook Unit :=
  sysOp (.updateCtx fun c => { c with
    switchBackends := Function.update c.switchBackends name (some backend) })

def setNetwork (name backend : String) : Hook Unit :=
  sysOp (.updateCtx fun c => { c with
    networkBackends := Function.update c.networkBackends name (some backend) })

def setSidecar (name backend : String) : Hook Unit :=
  sysOp (.updateCtx fun c => { c with
    sidecarBackends := Function.update c.sidecarBackends name (some backend) })

def setBuilt (name : String) (roles : List String) : Hook Unit :=
  sysOp (.updateCtx fun c => { c with
    builtDiskPaths := Function.update c.builtDiskPaths name (some roles) })

/-- `ctx.pool_backends[name]` -/
def getPool (name : String) : Hook String := do
  getItem (← sysOp .readCtx).poolBackends name

/-- `if b: p` -/
def onlyIf (b : Bool) (p : Hook Unit) : Hook Unit := if b then p else pure ()

/-- Record an intent, create, confirm. -/
def tracked {α : Type} (kind backendName : String) (planName : Option String) (metadata : Dict)
    (create : Hook α) : Hook α := do
  sysOp (.recordIntent kind backendName planName metadata)
  let a ← create
  sysOp (.confirm backendName metadata)
  pure a

/-- The metadata of a volume. -/
def poolMetadata (poolBackend : String) : Dict :=
  Dict.empty.insert "pool_backend" (.str poolBackend)

/-- A tracked volume, made by one call and perhaps others after it. -/
def trackedVolume (kind backendName : String) (planName : Option String) (poolBackend : String)
    (before after : Hook Unit) : Hook Unit :=
  tracked kind backendName planName (poolMetadata poolBackend) do
    before
    sysOp (.create (.volume poolBackend backendName))
    after

/-! ### Switches and sidecars -/

variable (R : RunConfig)

/-- Realize one switch and its networks. -/
def provisionSwitch (kindPrefix : String) (sw : Switch) : Hook Unit := do
  let switchBackend := R.compose (kindPrefix ++ "switch") sw.name
  let uplink ← tracked (kindPrefix ++ "switch") switchBackend (some sw.name) .empty
    (sysOp (.createSwitch sw switchBackend))
  setSwitch sw.name switchBackend
  sw.networks.forM fun net => do
    let backend := R.compose (kindPrefix ++ "network") net
    tracked (kindPrefix ++ "network") backend (some net) .empty
      (sysOp (.createNetwork net backend switchBackend))
    setNetwork net backend
  match uplink with
  | some uplinkBackend => setNetwork sw.uplinkNetworkName uplinkBackend
  | none => pure ()

/-- The pool a sidecar lands in: the one given, else the first declared one. -/
def sidecarHome : Option String → Hook String
  | some poolBackend => pure poolBackend
  | none =>
    match R.plan.hyp.pools.head? with
    | none => throw .orchestrator
    | some first => getPool first.name

/-- The networks of the sidecar's NICs. -/
def sidecarAttachments (sw : Switch) : Hook (List String) :=
  match sw.sidecarNics with
  | some nics => pure nics
  | none => throw .orchestrator

/-- Bring up the sidecar VM of a switch. -/
def materializeSidecarFor (kindPrefix : String) (sw : Switch) (poolBackend : Option String) :
    Hook Unit :=
  if sw.needsSidecar then do
    let poolBackend ← sidecarHome R poolBackend
    let nics ← sidecarAttachments sw
    let vmBackend := R.compose (kindPrefix ++ "sidecar_vm") sw.name
    sysOp .work
    trackedVolume "sidecar_disk" (vmBackend ++ R.suffix "sidecar_disk") (some sw.name) poolBackend
      (pure ()) (pure ())
    sysOp .work
    trackedVolume "sidecar_config" (vmBackend ++ "-cfg" ++ R.suffix "sidecar_config")
      (some sw.name) poolBackend (pure ()) (pure ())
    let networkBackends := (← sysOp .readCtx).networkBackends
    nics.forM fun net => do
      let _ ← getItem networkBackends net
    tracked "sidecar_vm" vmBackend (some sw.name) .empty
      (sysOp (.createVm vmBackend nics networkBackends))
    sysOp .work
    setSidecar sw.name vmBackend
  else pure ()

/-! ### Pools and VMs of the run -/

/-- Create one declared pool. -/
def createPoolBackend (pool : StoragePool) : Hook Unit := do
  let backend := R.compose "pool" pool.name
  tracked "pool" backend (some pool.name) .empty (sysOp (.create (.pool backend)))
  setPool pool.name backend

/-- The role of the `i`-th data disk. -/
def dataDiskRole (i : ℕ) : String := "data" ++ toString i

/-- The roles of a VM's writable disks. -/
def artifactRoles (v : VMRecipe) : List String :=
  "os" :: (List.range v.dataPools.length).map dataDiskRole

/-- `built[role]` -/
def builtPath (built : List String) (role : String) : Hook Unit :=
  if role ∈ built then pure () else throw (.key role)

/-- Create one run VM from its cached disks and start it. -/
def bringUpVm (v : VMRecipe) : Hook Unit := do
  let built ← getItem (← sysOp .readCtx).builtDiskPaths v.name
  let vmBackend := R.compose "vm" v.name
  let osPoolBackend ← getPool v.osPool
  trackedVolume "run_disk" (vmBackend ++ R.suffix "run_disk") (some v.name) osPoolBackend
    (builtPath built "os") (pure ())
  v.dataPools.zipIdx.forM fun hd => do
    let poolBackend ← getPool hd.1
    let role := dataDiskRole hd.2
    trackedVolume "data_disk" (vmBackend ++ "-" ++ role ++ R.suffix "data_disk") (some v.name)
      poolBackend (builtPath built role) (pure ())
  tracked "vm" vmBackend (some v.name) .empty do
    let networkBackends := (← sysOp .readCtx).networkBackends
    sysOp (.createVm vmBackend (v.nics.map (·.network)) networkBackends)
  sysOp .work

/-! ### Builds -/

def buildPoolName : String := "build"

/-- The default build switch: isolated, with DHCP and DNS. -/
def defaultBuildSwitch : Switch where
  name := "__build"
  networks := ["build"]
  cidr := "10.97.99.0/24"
  uplink := none
  mgmt := false
  sidecar := some ⟨true, true, false, none, rfl, by simp, by simp⟩
  name_ne := by decide
  networks_ne := by simp
  uplink_ne := by simp
  cidr_ok := by decide
  nat_uplink := by
    rintro sc ⟨⟩ h
    cases h

/-- The switch of the build phase. -/
def RunConfig.buildSwitch : Switch := R.plan.hyp.buildSwitch.getD defaultBuildSwitch

/-- The network of the build NIC. -/
def RunConfig.buildNetwork : String := R.buildSwitch.networks.headD ""

/-- Create the build pool. -/
def createBuildPool : Hook String := do
  let backend := R.compose "build_pool" buildPoolName
  tracked "build_pool" backend none .empty (sysOp (.create (.pool backend)))
  pure backend

/-- Hold the lock of the build infrastructure. -/
def withInfraLock {α : Type} (body : Hook α) : Hook α := do
  sysOp .acquireInfraLock
  body.tryFinally (sysOp .releaseInfraLock)

/-- `network_backends` of the switch's first network. -/
def firstNetwork (sw : Switch) : Hook String :=
  match sw.networks.head? with
  | some net => do getItem (← sysOp .readCtx).networkBackends net
  | none => throw .orchestrator

/-- Bring the build infrastructure up. -/
def createBuildInfra : Hook (String × String) := do
  let poolBackend ← createBuildPool R
  let sw := R.buildSwitch
  provisionSwitch R "build_" sw
  let netBackend ← firstNetwork sw
  materializeSidecarFor R "build_" sw (some poolBackend)
  sysOp (.setInfra ⟨true, some poolBackend, some netBackend, some sw⟩)
  pure (poolBackend, netBackend)

/-- `d.pop(k, None)` on one of the dictionaries, then `f` if there was something. -/
def popThen (get : Ctx → Option String) (erase : Ctx → Ctx) (f : String → Hook Unit) :
    Hook Unit := do
  let found := get (← sysOp .readCtx)
  sysOp (.updateCtx erase)
  match found with
  | some backend => f backend
  | none => pure ()

/-- Remove an object and forget it. -/
def removeAndForget (o : Obj) : Hook Unit := do
  sysOp (.remove o)
  sysOp (.forget o.name)

/-- Take the build infrastructure down. -/
def destroyBuildInfra (sw : Switch) (poolBackend : String) : Hook Unit := do
  popThen (·.sidecarBackends sw.name)
    (fun c => { c with sidecarBackends := Function.update c.sidecarBackends sw.name none })
    fun sidecar => removeAndForget (.vm sidecar)
  sw.networks.forM fun net =>
    popThen (·.networkBackends net)
      (fun c => { c with networkBackends := Function.update c.networkBackends net none })
      fun backend => removeAndForget (.network backend)
  popThen (·.networkBackends sw.uplinkNetworkName)
    (fun c => { c with
      networkBackends := Function.update c.networkBackends sw.uplinkNetworkName none })
    fun _ => pure ()
  popThen (·.switchBackends sw.name)
    (fun c => { c with switchBackends := Function.update c.switchBackends sw.name none })
    fun switchBackend => removeAndForget (.switch switchBackend)
  removeAndForget (.pool poolBackend)
  sysOp (.setInfra .down)

/-- Destroy the build infrastructure, if it is up. -/
def teardownBuildInfra : Hook Unit :=
  withInfraLock do
    let infra := (← sysOp .readCtx).buildInfra
    if infra.active then
      match infra.buildSwitch, infra.poolBackend with
      | some sw, some poolBackend => destroyBuildInfra sw poolBackend
      | _, _ => throw .orchestrator
    else pure ()

/-- Delete after the capture; a failure leaves the resource recorded. -/
def bestEffortDelete (o : Obj) : Hook Unit := do
  match ← (sysOp (.remove o)).attempt with
  | .error _ => pure ()
  | .ok _ => sysOp (.forget o.name)

/-- The `i`-th data disk of a build VM. -/
def buildDataDisk (vmBackend : String) (i : ℕ) : String :=
  vmBackend ++ "-" ++ dataDiskRole i ++ R.suffix "data_disk"

/-- Provision one VM to completion, capture its disks and delete it. -/
def buildOneVm (v : VMRecipe) (probe : Probe) (pool net : String) : Hook Unit := do
  let vmBackend := R.compose "build_vm" v.name
  let osDisk := vmBackend ++ R.suffix "build_disk"
  let bootMedia := vmBackend ++ "-bootmedia" ++ R.suffix "boot_iso"
  let seed := vmBackend ++ "-seed" ++ R.suffix "build_seed"
  trackedVolume "build_disk" osDisk (some v.name) pool (pure ())
    (onlyIf (!probe.installerOrigin) (sysOp .work))
  onlyIf probe.bootMedia do
    sysOp .work
    trackedVolume "boot_iso" bootMedia (some v.name) pool (pure ()) (pure ())
  (List.range v.dataPools.length).forM fun i =>
    trackedVolume "data_disk" (buildDataDisk R vmBackend i) (some v.name) pool (pure ()) (pure ())
  sysOp .work
  onlyIf probe.seed (trackedVolume "build_seed" seed (some v.name) pool (pure ()) (pure ()))
  tracked "build_vm" vmBackend (some v.name) .empty
    (sysOp (.createVm vmBackend [R.buildNetwork] fun n =>
      if n = R.buildNetwork then some net else none))
  -- Start, the build's result, power-off, and the capture of every disk.
  sysOp .work
  sysOp .work
  sysOp .work
  (artifactRoles v).forM fun _ => sysOp .work
  setBuilt v.name (artifactRoles v)
  bestEffortDelete (.vm vmBackend)
  onlyIf probe.seed (bestEffortDelete (.volume pool seed))
  onlyIf probe.bootMedia (bestEffortDelete (.volume pool bootMedia))
  (List.range v.dataPools.length).forM fun i =>
    bestEffortDelete (.volume pool (buildDataDisk R vmBackend i))
  bestEffortDelete (.volume pool osDisk)

/-! ### The hooks -/

variable (P : Process)

/-- The build infrastructure, made on first use. -/
def ensureBuildInfra : Hook (String × String) :=
  withInfraLock do
    let infra := (← sysOp .readCtx).buildInfra
    if infra.active then
      match infra.poolBackend, infra.netBackend with
      | some poolBackend, some netBackend => pure (poolBackend, netBackend)
      | _, _ => throw .orchestrator
    else if P.plan.hyp.vms.all fun v => (P.probe v).cached then throw .orchestrator
    else createBuildInfra P.toRunConfig

/-- `node.materialize(ctx)` -/
def materialize : Node → Hook Unit
  | .vm v _ =>
    if (P.probe v).cached then setBuilt v.name (artifactRoles v)
    else do
      let (pool, net) ← ensureBuildInfra P
      buildOneVm P.toRunConfig v (P.probe v) pool net
  | _ => pure ()

/-- Rebuild what is known of the fabric of a switch. -/
def reattachSwitch (sw : Switch) : Hook Unit :=
  sysOp (.updateCtx fun c => { c with
    switchBackends := Function.update c.switchBackends sw.name (some (R.compose "switch" sw.name))
    networkBackends := sw.networks.foldl
      (fun d net => Function.update d net (some (R.compose "network" net))) c.networkBackends })

/-- `node.realize(ctx)`; the readiness gates are calls like others. -/
def realize (n : Node) : Hook Unit :=
  match n with
  | .pool pool =>
    if P.reattach n.name then setPool pool.name (P.compose "pool" pool.name)
    else createPoolBackend P.toRunConfig pool
  | .network sw =>
    if P.reattach n.name then reattachSwitch P.toRunConfig sw
    else provisionSwitch P.toRunConfig "" sw
  | .sidecar sw => do
    (if P.reattach n.name then setSidecar sw.name (P.compose "sidecar_vm" sw.name)
      else materializeSidecarFor P.toRunConfig "" sw none)
    sysOp .work
  | .vm v _ => do
    onlyIf (!P.reattach n.name) (bringUpVm P.toRunConfig v)
    sysOp .work

/-- The hooks of the two walks. -/
def hooks : Walk → Node → Hook Unit
  | .materialize => materialize P
  | .realize => realize P

end TestRange
