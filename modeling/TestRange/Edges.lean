/-
What the edges that a plan infers say about its schedule.

The edges of the graph are made from the handles in the declarations: a VM's on the pools of its
disks and on the networks of its NICs, a sidecar's on its own switch and on the first pool.
Explicit edges are those of `VMHandle.needs`.

* `Plan.assembled_edges` — the edges of an accepted plan are those of its declarations;
* `Plan.needs_none` — a pool or a network needs nothing;
* `Plan.vm_needs_pool`, `Plan.sidecar_needs_pool` — what a VM or a sidecar needs;
* `Plan.wave_of_fabric` — pools and networks are realized before VMs and sidecars.
-/
import TestRange.Graph.Waves
import TestRange.Lib.Untyped
import TestRange.Plan

namespace TestRange

/-- The explicit edges are those that `VMHandle.needs` records. -/
def Hypervisor.NeedsOfVms (hyp : Hypervisor) : Prop :=
  ∀ pair ∈ hyp.explicitEdges, ∃ n, pair.1 = "vm:" ++ n

/-! ### The nodes -/

/-- A node on which others are put: a pool or a network. -/
def Node.isFabric : Node → Bool
  | .pool _ => true
  | .network _ => true
  | _ => false

theorem Node.name_eq_pool {n : Node} {s : String} (h : n.name = "pool:" ++ s) :
    ∃ p, n = .pool p ∧ p.name = s := by
  have htext := congrArg String.toList h
  cases n with
  | pool p => exact ⟨p, rfl, String.toList_inj.mp (by simpa [Node.name] using htext)⟩
  | _ => simp [Node.name] at htext

/-- The name of a pool or a network is that of no VM and no sidecar. -/
theorem Node.isFabric_name {n : Node} (h : n.isFabric = true) (s : String) :
    n.name ≠ "vm:" ++ s ∧ n.name ≠ "sidecar:" ++ s := by
  have htext : ∀ t, n.name = t → n.name.toList = t.toList := fun t ht => congrArg String.toList ht
  cases n with
  | pool p =>
    constructor <;> intro heq <;> have := htext _ heq <;> simp [Node.name] at this
  | network sw =>
    constructor <;> intro heq <;> have := htext _ heq <;> simp [Node.name] at this
  | sidecar sw => cases h
  | vm v k => cases h

/-! ### The edges -/

theorem Hypervisor.from_of_switchEdges {hyp : Hypervisor} {sw : Switch}
    {own : List (String × String)} (h : hyp.switchEdges sw = .ok own) :
    ∀ pair ∈ own, pair.1 = "sidecar:" ++ sw.name := by
  unfold switchEdges at h
  split_ifs at h
  · split at h <;> cases h
    simp
  · cases h
    simp

theorem Hypervisor.from_of_vmEdges {hyp : Hypervisor} {v : VMRecipe} :
    ∀ pair ∈ hyp.vmEdges v, pair.1 = "vm:" ++ v.name := by
  have hnic : ∀ nic, ∀ pair ∈ hyp.nicEdges v nic, pair.1 = "vm:" ++ v.name := by
    intro nic
    unfold nicEdges
    split
    · split_ifs <;> simp
    · simp
  intro pair hpair
  rcases List.mem_append.mp hpair with hpair | hpair
  · rcases List.mem_cons.mp hpair with rfl | hpair
    · rfl
    · obtain ⟨pool, -, rfl⟩ := List.mem_map.mp hpair
      rfl
  · obtain ⟨nic, -, hmem⟩ := List.mem_flatMap.mp hpair
    exact hnic nic pair hmem

namespace Plan

variable {p : Plan}

/-- What an accepted plan was frozen from. -/
theorem assembled_edges (p : Plan) : p.graph.nodes = p.hyp.nodes ∧
    ∃ sidecars, p.hyp.switches.mapM p.hyp.switchEdges = .ok sidecars ∧
      ∀ pair, (∃ e ∈ p.graph.edges, (e.dependent, e.dependency) = pair) ↔
        pair ∈ sidecars.flatten ++ p.hyp.vms.flatMap p.hyp.vmEdges ++ p.hyp.explicitEdges := by
  have h := p.assembled
  unfold assembleGraph at h
  obtain ⟨sidecars, hsidecars, h⟩ := Untyped.bind_eq_ok.mp h
  obtain ⟨edges, hedges, h⟩ := Untyped.bind_eq_ok.mp h
  split at h
  case h_2 => cases h
  case h_1 g hg =>
  cases h
  obtain ⟨hnodes, hgraph⟩ := BuildGraph.of_construct_ok hg
  -- An edge is made from its pair, and tells it.
  have hpair : ∀ {pair : String × String} {e : Edge}, orderingEdge pair = .ok e →
      (e.dependent, e.dependency) = pair := by
    intro pair e he
    rw [orderingEdge] at he
    split_ifs at he
    cases he
    rfl
  refine ⟨hnodes, sidecars, hsidecars, fun pair => ?_⟩
  rw [hgraph, ← List.mem_eraseDups]
  constructor
  · rintro ⟨e, he, rfl⟩
    obtain ⟨pair, hmem, hedge⟩ := Untyped.mem_mapM hedges he
    rwa [hpair hedge]
  · intro hmem
    obtain ⟨e, he, hedge⟩ := Untyped.exists_of_mapM hedges hmem
    exact ⟨e, he, hpair hedge⟩

theorem nodes_eq (p : Plan) : p.graph.nodes = p.hyp.nodes := p.assembled_edges.1

/-- An edge is one between two nodes. -/
theorem exists_needs {n : Node} {e : Edge} (he : e ∈ p.graph.edges) (hdep : e.dependent = n.name) :
    ∃ m ∈ p.graph.nodes, m.name = e.dependency ∧ p.graph.Needs n m := by
  have hknown := p.graph.edges_known e he
  unfold edgeProblem at hknown
  split_ifs at hknown with hself hfrom hto
  obtain ⟨m, hm, hname⟩ := List.mem_map.mp hto
  refine ⟨m, hm, hname, List.mem_filter.mpr ⟨hm, ?_⟩⟩
  exact List.any_eq_true.mpr ⟨e, he, by simp [hdep, hname]⟩

/-- The edges of the declarations begin at VMs and sidecars. -/
theorem dependent_of_edge (hneeds : p.hyp.NeedsOfVms) {e : Edge} (he : e ∈ p.graph.edges) :
    ∃ s, e.dependent = "vm:" ++ s ∨ e.dependent = "sidecar:" ++ s := by
  obtain ⟨-, sidecars, hsidecars, hedges⟩ := p.assembled_edges
  have hpair := (hedges (e.dependent, e.dependency)).mp ⟨e, he, rfl⟩
  rcases List.mem_append.mp hpair with hpair | hexplicit
  · rcases List.mem_append.mp hpair with hswitch | hvm
    · obtain ⟨own, hown, hmem⟩ := List.mem_flatten.mp hswitch
      obtain ⟨sw, -, hsw⟩ := Untyped.mem_mapM hsidecars hown
      exact ⟨sw.name, .inr (Hypervisor.from_of_switchEdges hsw _ hmem)⟩
    · obtain ⟨v, -, hmem⟩ := List.mem_flatMap.mp hvm
      exact ⟨v.name, .inl (Hypervisor.from_of_vmEdges _ hmem)⟩
  · obtain ⟨s, hs⟩ := hneeds _ hexplicit
    exact ⟨s, .inl hs⟩

/-- **A pool or a network needs nothing.** -/
theorem needs_none (hneeds : p.hyp.NeedsOfVms) {n : Node} (hn : n.isFabric = true) (m : Node) :
    ¬ p.graph.Needs n m := by
  intro h
  obtain ⟨e, he, hends⟩ := List.any_eq_true.mp (List.mem_filter.mp h).2
  obtain ⟨s, hs⟩ := dependent_of_edge hneeds he
  have hfrom : e.dependent = n.name := by
    simp only [decide_eq_true_eq] at hends
    exact hends.1
  rw [hfrom] at hs
  exact hs.elim (Node.isFabric_name hn s).1 (Node.isFabric_name hn s).2

/-- The node of a VM is that of a declared one. -/
theorem mem_vms {v : VMRecipe} {k : ℕ} (h : Node.vm v k ∈ p.graph.nodes) : v ∈ p.hyp.vms := by
  rw [nodes_eq, Hypervisor.nodes] at h
  simp only [List.mem_append, List.mem_map, List.mem_flatMap, Hypervisor.switchNodes] at h
  obtain (⟨q, -, hq⟩ | ⟨sw, -, hsw⟩) | ⟨⟨v', k'⟩, hv, heq⟩ := h
  · cases hq
  · split_ifs at hsw <;> simp at hsw
  · cases heq
    exact List.fst_mem_of_mem_zipIdx hv

/-- A VM needs the pools of its disks. -/
theorem vm_needs_pool {v : VMRecipe} {k : ℕ} (hv : Node.vm v k ∈ p.graph.nodes) {name : String}
    (hname : name = v.osPool ∨ name ∈ v.dataPools) :
    ∃ pool, Node.pool pool ∈ p.graph.nodes ∧ pool.name = name ∧
      p.graph.Needs (.vm v k) (.pool pool) := by
  obtain ⟨-, sidecars, -, hedges⟩ := p.assembled_edges
  have hpair : ("vm:" ++ v.name, "pool:" ++ name) ∈ p.hyp.vmEdges v := by
    rcases hname with rfl | hname
    · simp [Hypervisor.vmEdges]
    · exact List.mem_append_left _ (List.mem_cons_of_mem _ (List.mem_map.mpr ⟨name, hname, rfl⟩))
  obtain ⟨e, he, hends⟩ := (hedges _).mpr
    (List.mem_append_left _ (List.mem_append_right _ (List.mem_flatMap.mpr ⟨v, mem_vms hv, hpair⟩)))
  obtain ⟨hfrom, hto⟩ := Prod.mk.inj hends
  obtain ⟨m, hm, hmname, hneeds⟩ := exists_needs (n := .vm v k) he hfrom
  obtain ⟨pool, rfl, hpool⟩ := Node.name_eq_pool (hmname.trans hto)
  exact ⟨pool, hm, hpool, hneeds⟩

/-- A sidecar needs the first pool. -/
theorem sidecar_needs_pool {sw : Switch} (hsw : Node.sidecar sw ∈ p.graph.nodes) :
    ∃ first, p.hyp.pools.head? = some first ∧ Node.pool first ∈ p.graph.nodes ∧
      ∃ m, p.graph.Needs (.sidecar sw) m := by
  obtain ⟨hnodes, sidecars, hsidecars, hedges⟩ := p.assembled_edges
  obtain ⟨hmem, hneeds⟩ : sw ∈ p.hyp.switches ∧ sw.needsSidecar = true := by
    rw [hnodes, Hypervisor.nodes] at hsw
    simp only [List.mem_append, List.mem_map, List.mem_flatMap, Hypervisor.switchNodes] at hsw
    obtain (⟨q, -, hq⟩ | ⟨sw', hmem, hsw⟩) | ⟨v, -, hv⟩ := hsw
    · cases hq
    · split_ifs at hsw with hneeds <;>
        simp only [List.mem_cons, List.not_mem_nil, or_false, reduceCtorEq, false_or] at hsw
      cases hsw
      exact ⟨hmem, hneeds⟩
    · cases hv
  obtain ⟨own, hown, hswitch⟩ := Untyped.exists_of_mapM hsidecars hmem
  rw [Hypervisor.switchEdges, if_pos hneeds] at hswitch
  split at hswitch
  case h_1 => cases hswitch
  case h_2 first hfirst =>
  cases hswitch
  refine ⟨first, hfirst, ?_, ?_⟩
  · rw [hnodes, Hypervisor.nodes]
    exact List.mem_append_left _ (List.mem_append_left _
      (List.mem_map_of_mem (List.mem_of_mem_head? hfirst)))
  · obtain ⟨e, he, hends⟩ := (hedges ("sidecar:" ++ sw.name, "pool:" ++ first.name)).mpr
      (List.mem_append_left _ (List.mem_append_left _
        (List.mem_flatten.mpr ⟨_, hown, List.mem_cons_of_mem _ List.mem_cons_self⟩)))
    obtain ⟨m, -, -, h⟩ := exists_needs (n := .sidecar sw) he (Prod.mk.inj hends).1
    exact ⟨m, h⟩

/-- **Pools and networks are realized before VMs and sidecars.** -/
theorem wave_of_fabric (hneeds : p.hyp.NeedsOfVms) {pre post : List (List Node)}
    {wave : List Node} (hw : p.graph.waves = pre ++ wave :: post) {n m : Node} (hn : n ∈ wave)
    (hnode : n ∈ p.graph.nodes) (hnot : n.isFabric = false) (hm : m ∈ p.graph.nodes)
    (hfabric : m.isFabric = true) : m ∈ pre.flatten := by
  obtain ⟨k, hk⟩ : ∃ k, p.graph.Needs n k := by
    cases n with
    | pool q => cases hnot
    | network sw => cases hnot
    | sidecar sw =>
      obtain ⟨-, -, -, hk⟩ := sidecar_needs_pool hnode
      exact hk
    | vm v index =>
      obtain ⟨pool, -, -, hk⟩ := vm_needs_pool hnode (.inl rfl)
      exact ⟨_, hk⟩
  exact p.graph.wave_of_needs hw hn hk hm (needs_none hneeds hfabric)

end Plan

end TestRange
