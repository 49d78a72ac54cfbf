/-
Plans: the declared topology, its checks, and the graph it freezes into.

A `Hypervisor` holds what was registered, with what registration itself ensures as
fields; a `Plan` is one that the checks have accepted, with its graph.

* `Hypervisor.validate` — the checks of plan construction, in the source's order;
* `assembleGraph` — one node per pool, switch, sidecar and VM, and the edges between
  them;
* `Plan.construct` — accepts or rejects;
* `Hypervisor.Valid`, `Plan.valid` — what the checks ensure of an accepted plan.
-/
import TestRange.Graph.BuildGraph
import TestRange.Networks.Validate
import Mathlib.Data.List.Pairwise

namespace TestRange

/-! ### The container -/

/-- The container of a plan's declarations. -/
structure Hypervisor where
  pools : List StoragePool
  switches : List Switch
  vms : List VMRecipe
  /-- Pairs of node names, by `handle.needs()`. -/
  explicitEdges : List (String × String)
  buildSwitch : Option Switch
  nodup_pools : (pools.map (·.name)).Nodup
  nodup_switches : (switches.map (·.name)).Nodup
  nodup_vms : (vms.map (·.name)).Nodup

/-- The declared networks, over all switches. -/
def Hypervisor.networks (hyp : Hypervisor) : List String := hyp.switches.flatMap (·.networks)

/-! ### Checks -/

inductive PlanError
  | emptyName
  | duplicateVms
  | unsafeName (field : String)
  | reservedName
  | dataMarker
  | unknownPool
  | duplicateNetworks
  | unknownNetwork
  | addressing (problems : List (Origin × AddressProblem))
  | sidecarWithoutPool (switch : String)
  | emptyEdge
  | graph (e : GraphError)

/-- `[A-Za-z0-9_]` -/
def isWordChar (c : Char) : Bool := c.isAlphanum || c = '_'

/-- `[A-Za-z0-9_.-]` -/
def isNameChar (c : Char) : Bool := isWordChar c || c = '.' || c = '-'

/-- The shared rule for names, `[A-Za-z0-9_][A-Za-z0-9_.-]*`. -/
def safeName (s : String) : Bool :=
  match s.toList with
  | [] => false
  | c :: cs => isWordChar c && cs.all isNameChar

/-- Names reserved for internals. -/
def reserved (s : String) : Bool := "__".toList.isPrefixOf s.toList

/-- `[-_.]data\d+$`, case-insensitively, on a safe name. -/
def dataDiskMarker (s : String) : Bool :=
  let rev := s.toList.reverse
  match rev.dropWhile Char.isDigit with
  | a₂ :: t :: a₁ :: d :: sep :: _ =>
    rev.head?.any Char.isDigit && [d, a₁, t, a₂].map Char.toLower = ['d', 'a', 't', 'a'] &&
      (sep = '-' || sep = '_' || sep = '.')
  | _ => false

/-- Raise unless the check passes. -/
def require (ok : Bool) (e : PlanError) : Except PlanError Unit := if ok then .ok () else .error e

namespace Hypervisor

/-- The checks on VMs and pools. -/
def validateVmPlan (hyp : Hypervisor) : Except PlanError Unit := do
  require (decide (hyp.vms.map (·.name)).Nodup) .duplicateVms
  require (hyp.vms.all fun v => safeName v.name) (.unsafeName "VMSpec.name")
  require (hyp.vms.all fun v => !reserved v.name) .reservedName
  require (hyp.vms.all fun v => !dataDiskMarker v.name) .dataMarker
  require (hyp.vms.all fun v => v.osPool ∈ hyp.pools.map (·.name)) .unknownPool

/-- The checks of plan construction. -/
def validate (hyp : Hypervisor) : Except PlanError Unit := do
  hyp.validateVmPlan
  require (decide hyp.networks.Nodup) .duplicateNetworks
  require (hyp.switches.all fun sw => safeName sw.name) (.unsafeName "Switch.name")
  require (hyp.networks.all safeName) (.unsafeName "Network.name")
  require ((hyp.switches.map (·.name) ++ hyp.networks).all fun n => !reserved n) .reservedName
  require (hyp.vms.all fun v => v.nics.all fun nic => nic.network ∈ hyp.networks) .unknownNetwork
  (validateAddressing hyp.switches hyp.vms).mapError .addressing

end Hypervisor

/-! ### The graph -/

/-- The node kinds. -/
inductive Node
  | pool (p : StoragePool)
  | network (sw : Switch)
  | sidecar (sw : Switch)
  | vm (v : VMRecipe) (index : ℕ)
  deriving DecidableEq

def Node.name : Node → String
  | .pool p => "pool:" ++ p.name
  | .network sw => "network:" ++ sw.name
  | .sidecar sw => "sidecar:" ++ sw.name
  | .vm v _ => "vm:" ++ v.name

namespace Hypervisor

/-- The nodes of a switch: the fabric, and the sidecar if it needs one. -/
def switchNodes (sw : Switch) : List Node :=
  .network sw :: if sw.needsSidecar then [.sidecar sw] else []

def nodes (hyp : Hypervisor) : List Node :=
  hyp.pools.map .pool ++ hyp.switches.flatMap switchNodes ++
    hyp.vms.zipIdx.map fun v => .vm v.1 v.2

/-- The edges of a switch's sidecar: on the fabric and on the first pool. -/
def switchEdges (hyp : Hypervisor) (sw : Switch) : Except PlanError (List (String × String)) :=
  if sw.needsSidecar then
    match hyp.pools.head? with
    | none => .error (.sidecarWithoutPool sw.name)
    | some first => .ok [("sidecar:" ++ sw.name, "network:" ++ sw.name),
        ("sidecar:" ++ sw.name, "pool:" ++ first.name)]
  else .ok []

/-- The edges of a NIC: on the network and, where the switch has one, on the sidecar. -/
def nicEdges (hyp : Hypervisor) (v : VMRecipe) (nic : Nic) : List (String × String) :=
  ("vm:" ++ v.name, "network:" ++ nic.switch) ::
    match hyp.switches.find? (·.name = nic.switch) with
    | some sw => if sw.needsSidecar then [("vm:" ++ v.name, "sidecar:" ++ sw.name)] else []
    | none => []

def vmEdges (hyp : Hypervisor) (v : VMRecipe) : List (String × String) :=
  ("vm:" ++ v.name, "pool:" ++ v.osPool) ::
    (v.dataPools.map fun p => ("vm:" ++ v.name, "pool:" ++ p)) ++
      v.nics.flatMap (hyp.nicEdges v)

end Hypervisor

/-- An ordering edge. -/
def orderingEdge (pair : String × String) : Except PlanError Edge :=
  if h : pair.1 ≠ "" ∧ pair.2 ≠ "" then .ok ⟨pair.1, pair.2, .ordering, h.1, h.2⟩
  else .error .emptyEdge

/-- Freeze a container into its graph. -/
def assembleGraph (name : String) (hyp : Hypervisor) :
    Except PlanError (BuildGraph Node Node.name) := do
  let sidecars ← hyp.switches.mapM hyp.switchEdges
  let pairs := sidecars.flatten ++ hyp.vms.flatMap hyp.vmEdges ++ hyp.explicitEdges
  let edges ← pairs.eraseDups.mapM orderingEdge
  match BuildGraph.construct Node.name name hyp.nodes edges with
  | .ok g => .ok g
  | .error e => .error (.graph e)

/-- A plan that construction has accepted. -/
structure Plan where
  name : String
  hyp : Hypervisor
  graph : BuildGraph Node Node.name
  name_ne : name ≠ ""
  validated : hyp.validate = .ok ()
  assembled : assembleGraph name hyp = .ok graph

/-- `Plan(name, hypervisor)` -/
def Plan.construct (name : String) (hyp : Hypervisor) : Except PlanError Plan :=
  if hname : name = "" then .error .emptyName
  else match hval : hyp.validate with
  | .error e => .error e
  | .ok () =>
    match hgraph : assembleGraph name hyp with
    | .error e => .error e
    | .ok graph => .ok ⟨name, hyp, graph, hname, hval, hgraph⟩

/-! ### What the checks ensure -/

/-- A container that the checks accept. -/
structure Hypervisor.Valid (hyp : Hypervisor) : Prop where
  safe_vm : ∀ v ∈ hyp.vms, safeName v.name = true ∧ reserved v.name = false ∧
    dataDiskMarker v.name = false
  osPool_mem : ∀ v ∈ hyp.vms, v.osPool ∈ hyp.pools.map (·.name)
  nodup_networks : hyp.networks.Nodup
  safe_switch : ∀ sw ∈ hyp.switches, safeName sw.name = true ∧ reserved sw.name = false
  safe_network : ∀ net ∈ hyp.networks, safeName net = true ∧ reserved net = false
  nic_mem : ∀ v ∈ hyp.vms, ∀ nic ∈ v.nics, nic.network ∈ hyp.networks
  conflictFree : ConflictFree hyp.switches hyp.vms

theorem require_bind_eq_ok {α : Type} {ok : Bool} {e : PlanError} {k : Unit → Except PlanError α}
    {a : α} (h : (require ok e >>= k) = .ok a) : ok = true ∧ k () = .ok a := by
  cases ok with
  | true => exact ⟨rfl, h⟩
  | false => cases h

theorem Hypervisor.valid_of_validate {hyp : Hypervisor} (h : hyp.validate = .ok ()) :
    hyp.Valid := by
  unfold validate at h
  obtain ⟨hvm, h⟩ : hyp.validateVmPlan = .ok () ∧ _ = _ := by
    cases hcase : hyp.validateVmPlan with
    | error e =>
      rw [hcase] at h
      cases h
    | ok u =>
      rw [hcase] at h
      exact ⟨rfl, h⟩
  obtain ⟨hnets, h⟩ := require_bind_eq_ok h
  obtain ⟨hsw, h⟩ := require_bind_eq_ok h
  obtain ⟨hsafe, h⟩ := require_bind_eq_ok h
  obtain ⟨hres, h⟩ := require_bind_eq_ok h
  obtain ⟨hnic, h⟩ := require_bind_eq_ok h
  unfold validateVmPlan at hvm
  obtain ⟨-, hvm⟩ := require_bind_eq_ok hvm
  obtain ⟨hvsafe, hvm⟩ := require_bind_eq_ok hvm
  obtain ⟨hvres, hvm⟩ := require_bind_eq_ok hvm
  obtain ⟨hvdata, hvm⟩ := require_bind_eq_ok hvm
  have hpool := (require_bind_eq_ok (k := fun _ => .ok ()) (a := ()) (by rw [hvm]; rfl)).1
  simp only [List.all_eq_true, Bool.not_eq_true', decide_eq_true_eq, List.mem_append] at *
  have haddr : validateAddressing hyp.switches hyp.vms = .ok () := by
    cases hcase : validateAddressing hyp.switches hyp.vms with
    | ok u => rfl
    | error ps =>
      rw [hcase] at h
      cases h
  exact {
    safe_vm := fun v hv => ⟨hvsafe v hv, hvres v hv, hvdata v hv⟩
    osPool_mem := hpool
    nodup_networks := hnets
    safe_switch := fun sw hm => ⟨hsw sw hm, hres _ (.inl (List.mem_map_of_mem hm))⟩
    safe_network := fun net hm => ⟨hsafe net hm, hres net (.inr hm)⟩
    nic_mem := hnic
    conflictFree := validateAddressing_iff.mp haddr }

theorem Plan.valid (p : Plan) : p.hyp.Valid := Hypervisor.valid_of_validate p.validated

/-- The switch that declares a network is the one it is looked up to. -/
theorem Hypervisor.Valid.switchFor_eq {hyp : Hypervisor} (h : hyp.Valid) {sw : Switch}
    (hsw : sw ∈ hyp.switches) {net : String} (hnet : net ∈ sw.networks) :
    switchFor hyp.switches net = some sw := by
  have hsome : (switchFor hyp.switches net).isSome := by
    rw [switchFor, List.find?_isSome]
    exact ⟨sw, hsw, by simpa using hnet⟩
  obtain ⟨sw', hfind⟩ := Option.isSome_iff_exists.mp hsome
  have hsw' := List.mem_of_find?_eq_some hfind
  have hnet' : net ∈ sw'.networks := by simpa using List.find?_some hfind
  rw [hfind]
  by_contra hne
  have hpair := (List.nodup_flatMap.mp h.nodup_networks).2
  have hsymm : Std.Symm (Function.onFun List.Disjoint fun sw : Switch => sw.networks) :=
    ⟨fun a b hab => hab.symm⟩
  have hdisjoint := hpair.forall hsw hsw' fun heq => hne (by rw [heq])
  exact hdisjoint hnet hnet'

end TestRange
