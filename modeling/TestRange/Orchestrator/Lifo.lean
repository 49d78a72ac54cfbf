/-
Walking the ledger backwards undoes the dependencies.

`teardown` and `cleanup_run` destroy what is recorded from the last resource to the first.
Nothing is destroyed before what depends on it, because the order of the ledger respects the
schedule, and the schedule what depends on what.

* `Before` — what has to be destroyed before what;
* `Sorted.not_before` — what is listed earlier never has to go before what is listed later;
* `reverse_ledger_lifo` — the ledger of a run that is not resumed, at any point and after any
  cleanup;
* `BuildRun.build_vm_outlives` — the VM of a build that could not be deleted is destroyed after
  the pools that its node depends on.
-/
import TestRange.Orchestrator.Order

namespace TestRange

/-! ### What goes before what -/

/-- The volumes of a VM. -/
inductive OwnVolume : Entry → Entry → Prop
  | runDisk (v : VMRecipe) : OwnVolume (.vm v) (.runDisk v)
  | dataDisk (v : VMRecipe) (pool : String) (i : ℕ) : OwnVolume (.vm v) (.dataDisk v pool i)
  | buildDisk (v : VMRecipe) : OwnVolume (.buildVm v) (.buildDisk v)
  | bootIso (v : VMRecipe) : OwnVolume (.buildVm v) (.bootIso v)
  | buildDataDisk (v : VMRecipe) (i : ℕ) : OwnVolume (.buildVm v) (.buildDataDisk v i)
  | buildSeed (v : VMRecipe) : OwnVolume (.buildVm v) (.buildSeed v)
  | sidecarDisk (f : Fabric) (sw : Switch) : OwnVolume (.sidecarVm f sw) (.sidecarDisk f sw)
  | sidecarConfig (f : Fabric) (sw : Switch) : OwnVolume (.sidecarVm f sw) (.sidecarConfig f sw)

/-- The switches that the NICs of a VM are on: those that declare its networks, its own for a
sidecar, and the build switch for a build. -/
inductive OnSwitch (R : RunConfig) : Entry → Fabric → Switch → Prop
  | run {v : VMRecipe} {nic : Nic} {sw : Switch} (hnic : nic ∈ v.nics)
      (hnet : nic.network ∈ sw.networks) : OnSwitch R (.vm v) .declared sw
  | build (v : VMRecipe) : OnSwitch R (.buildVm v) .build R.buildSwitch
  | sidecar (f : Fabric) (sw : Switch) : OnSwitch R (.sidecarVm f sw) f sw

/-- The VMs of a node. -/
def Node.vms : Node → List Entry
  | .vm v _ => [.vm v, .buildVm v]
  | .sidecar sw => [.sidecarVm .declared sw]
  | _ => []

/-- The VMs of a node that stay: that of its build is deleted by its own hook. -/
def Node.runVms : Node → List Entry
  | .vm v _ => [.vm v]
  | .sidecar sw => [.sidecarVm .declared sw]
  | _ => []

/-- What has to be destroyed before what, `vms` being the VMs of a node that count for what it
depends on. -/
inductive Before (R : RunConfig) (vms : Node → List Entry) : Entry → Entry → Prop
  | volume {x y : Entry} (h : OwnVolume x y) : Before R vms x y
  | network {x : Entry} {f : Fabric} {sw : Switch} {net : String} (h : OnSwitch R x f sw) :
      Before R vms x (.network f sw net)
  | switch {x : Entry} {f : Fabric} {sw : Switch} (h : OnSwitch R x f sw) :
      Before R vms x (.switch f sw)
  | pool {x y : Entry} {pool name : String} (hx : x.obj R = .volume pool name)
      (hy : y.obj R = .pool pool) : Before R vms x y
  | fabric {f : Fabric} {sw : Switch} {net : String} :
      Before R vms (.network f sw net) (.switch f sw)
  | needs {n m : Node} {walk : Walk} {x y : Entry} (hn : n ∈ R.plan.graph.nodes)
      (hm : m ∈ R.plan.graph.nodes) (h : Relation.TransGen R.plan.graph.Needs n m)
      (hx : x ∈ n.vms) (hvm : x ∈ vms n) (hy : y ∈ ownEntries (walk, m)) : Before R vms x y

/-- In reverse ledger order nothing is visited that has to go before what was visited. -/
def Lifo (R : RunConfig) (vms : Node → List Entry) (s : State) : Prop :=
  s.resources.reverse.Pairwise fun a b => ∀ x ∈ R.catalog, ∀ y ∈ R.catalog,
    a.Fits R x → b.Fits R y → ¬ Before R vms y x

/-! ### What the order says of two entries -/

/-- By whom an entry is recorded. -/
inductive Tier
  | fabric
  | guest
  | built
  | infra
  deriving DecidableEq

/-- By whom an entry is recorded: the hook of a pool or a network, that of a VM or a sidecar, a
build, or whoever makes the build infrastructure. -/
def Entry.tier : Entry → Tier
  | .pool _ | .switch .declared _ | .network .declared _ _ => .fabric
  | .sidecarDisk .declared _ | .sidecarConfig .declared _ | .sidecarVm .declared _ => .guest
  | .runDisk _ | .dataDisk _ _ _ | .vm _ => .guest
  | .buildDisk _ | .bootIso _ | .buildDataDisk _ _ | .buildSeed _ | .buildVm _ => .built
  | _ => .infra

/-- The entries that are recorded together with one, in their order. -/
def Entry.group (R : RunConfig) : Entry → List Entry
  | .pool p => [.pool p]
  | .switch .declared sw | .network .declared sw _ => fabricEntries .declared sw
  | .sidecarDisk .declared sw | .sidecarConfig .declared sw | .sidecarVm .declared sw =>
    sidecarEntries .declared sw
  | .runDisk v | .dataDisk v _ _ | .vm v => runEntries v
  | .buildDisk v | .bootIso v | .buildDataDisk v _ | .buildSeed v | .buildVm v => buildEntries v
  | _ => R.infra

section Groups

variable {R : RunConfig} {i : Item} {e : Entry}

theorem group_of_infra (he : e ∈ R.infra) : e.group R = R.infra ∧ e.tier = .infra := by
  simp only [RunConfig.infra, fabricEntries, sidecarsOf, List.mem_append, List.mem_cons,
    List.mem_map] at he
  rcases he with (rfl | rfl | ⟨net, -, rfl⟩) | he
  · exact ⟨rfl, rfl⟩
  · exact ⟨rfl, rfl⟩
  · exact ⟨rfl, rfl⟩
  · split_ifs at he
    · simp only [sidecarEntries, List.mem_cons, List.not_mem_nil, or_false] at he
      rcases he with rfl | rfl | rfl <;> exact ⟨rfl, rfl⟩
    · cases he

/-- The walk and the kind of node that record the entries of a tier. -/
def Tier.Of : Tier → Item → Prop
  | .fabric, i => i.1 = .realize ∧ i.2.isFabric = true
  | .guest, i => i.1 = .realize ∧ i.2.isFabric = false
  | .built, i => i.1 = .materialize
  | .infra, _ => False

theorem group_of_own (he : e ∈ ownEntries i) : e.group R = ownEntries i ∧ e.tier.Of i := by
  obtain ⟨walk, n⟩ := i
  cases walk with
  | materialize =>
    cases n with
    | vm v k =>
      simp only [ownEntries, buildEntries, List.mem_append, List.mem_cons, List.mem_map,
        List.not_mem_nil, or_false] at he
      rcases he with ((rfl | rfl) | ⟨d, -, rfl⟩) | rfl | rfl <;> exact ⟨rfl, rfl⟩
    | _ => cases he
  | realize =>
    cases n with
    | pool p =>
      rw [List.mem_singleton.mp he]
      exact ⟨rfl, rfl, rfl⟩
    | network sw =>
      simp only [ownEntries, fabricEntries, List.mem_cons, List.mem_map] at he
      rcases he with rfl | ⟨net, -, rfl⟩ <;> exact ⟨rfl, rfl, rfl⟩
    | sidecar sw =>
      simp only [ownEntries, sidecarEntries, List.mem_cons, List.not_mem_nil, or_false] at he
      rcases he with rfl | rfl | rfl <;> exact ⟨rfl, rfl, rfl⟩
    | vm v k =>
      simp only [ownEntries, runEntries, List.mem_append, List.mem_cons, List.mem_map,
        List.not_mem_nil, or_false] at he
      rcases he with (rfl | ⟨d, -, rfl⟩) | rfl <;> exact ⟨rfl, rfl, rfl⟩

theorem mem_group (he : e ∈ R.catalog) : e ∈ e.group R := by
  rcases RunConfig.mem_catalog.mp he with he | ⟨i, -, he⟩
  · rw [(group_of_infra he).1]
    exact he
  · rw [(group_of_own he).1]
    exact he

theorem nodup_group (h : R.Distinct) (he : e ∈ R.catalog) : (e.group R).Nodup := by
  rcases RunConfig.mem_catalog.mp he with he | ⟨i, hi, he⟩
  · rw [(group_of_infra he).1]
    exact h.nodup_infra
  · rw [(group_of_own he).1]
    exact h.nodup_own hi

/-- An entry of a tier that is not the infrastructure's is of a hook of that tier. -/
theorem exists_owner (he : e ∈ R.catalog) (htier : e.tier ≠ .infra) :
    ∃ i ∈ R.items, e ∈ ownEntries i ∧ e.tier.Of i := by
  rcases RunConfig.mem_catalog.mp he with he | ⟨i, hi, he⟩
  · exact absurd (group_of_infra he).2 htier
  · exact ⟨i, hi, he, (group_of_own (R := R) he).2⟩

theorem mem_infra_of_tier (he : e ∈ R.catalog) (htier : e.tier = .infra) : e ∈ R.infra := by
  rcases RunConfig.mem_catalog.mp he with he | ⟨i, hi, he⟩
  · exact he
  · have := (group_of_own (R := R) he).2
    rw [htier] at this
    exact this.elim

end Groups

theorem not_before_head {α : Type} {xs : List α} {a b : α} (hnd : (b :: xs).Nodup) :
    ¬ [a, b].Sublist (b :: xs) := by
  intro h
  have hmem : b ∈ xs := h.tail.subset List.mem_cons_self
  exact (List.nodup_cons.mp hnd).1 hmem

theorem not_after_last {α : Type} {xs : List α} {a b : α} (hnd : (xs ++ [a]).Nodup) :
    ¬ [a, b].Sublist (xs ++ [a]) := by
  intro h
  have hrev := h.reverse
  rw [List.reverse_append] at hrev
  have hnd' : (a :: xs.reverse).Nodup := by simpa using List.nodup_reverse.mpr hnd
  exact not_before_head hnd' hrev

namespace Sorted

variable {R : RunConfig} {es : List Entry} {a b : Entry}

/-- Entries of one group are listed in its order. -/
theorem in_group (hs : Sorted R es) (hab : [a, b].Sublist es) (ha : a ∈ R.catalog)
    (hb : b ∈ R.catalog) (hgroup : b.group R = a.group R) : [a, b].Sublist (a.group R) := by
  have hb' : b ∈ a.group R := hgroup ▸ mem_group hb
  have hfilter : ∀ ys : List Entry, a ∈ ys → b ∈ ys →
      [a, b].Sublist (es.filter (· ∈ ys)) := by
    intro ys ha hb
    have := hab.filter (· ∈ ys)
    simpa [ha, hb] using this
  rcases RunConfig.mem_catalog.mp ha with ha | ⟨i, hi, ha⟩
  · rw [(group_of_infra ha).1] at hb' ⊢
    exact (hfilter _ ha hb').trans hs.infra
  · rw [(group_of_own ha).1] at hb' ⊢
    exact (hfilter _ ha hb').trans (hs.own i hi)

/-- What is recorded by a hook is not listed before what an earlier one records. -/
theorem not_later (hs : Sorted R es) (hab : [a, b].Sublist es) {i j : Item} (hi : i ∈ R.items)
    (hj : j ∈ R.items) (ha : a ∈ ownEntries i) (hb : b ∈ ownEntries j) :
    ¬ Schedule.Later R.schedule j i :=
  List.pairwise_iff_forall_sublist.mp hs.later hab i hi j hj ha hb

/-- VMs and sidecars come after pools and networks. -/
theorem not_guest_fabric (hs : Sorted R es) (hneeds : R.plan.hyp.NeedsOfVms)
    (hab : [a, b].Sublist es) (ha : a ∈ R.catalog) (hb : b ∈ R.catalog) (hguest : a.tier = .guest)
    (hfabric : b.tier = .fabric) : False := by
  obtain ⟨⟨walk, n⟩, hi, hai, hin⟩ := exists_owner ha (by rw [hguest]; rintro ⟨⟩)
  obtain ⟨⟨walk', m⟩, hj, hbj, hjm⟩ := exists_owner hb (by rw [hfabric]; rintro ⟨⟩)
  rw [hguest] at hin
  rw [hfabric] at hjm
  obtain ⟨rfl, hn⟩ := hin
  obtain ⟨rfl, hm⟩ := hjm
  exact hs.not_later hab hi hj hai hbj
    (later_of_fabric hneeds (RunConfig.mem_items.mp hj) hm (RunConfig.mem_items.mp hi) hn)

/-- What is built comes after the build infrastructure. -/
theorem not_built_infra (hs : Sorted R es) (hab : [a, b].Sublist es) (ha : a ∈ R.catalog)
    (hb : b ∈ R.catalog) (hbuilt : a.tier = .built) (hinfra : b.tier = .infra) : False := by
  obtain ⟨⟨walk, n⟩, hi, hai, hin⟩ := exists_owner ha (by rw [hbuilt]; rintro ⟨⟩)
  rw [hbuilt] at hin
  obtain rfl : walk = .materialize := hin
  exact List.pairwise_iff_forall_sublist.mp hs.built hab n hi hai (mem_infra_of_tier hb hinfra)

/-- A VM is the last of its group. -/
theorem vm_last (h : OwnVolume a b) (ha : a ∈ R.catalog) : ∃ xs, a.group R = xs ++ [a] := by
  have hsidecar : ∀ f sw, Entry.sidecarVm f sw ∈ R.catalog →
      ∃ xs, (Entry.sidecarVm f sw).group R = xs ++ [.sidecarVm f sw] := by
    intro f sw hmem
    cases f with
    | declared => exact ⟨[.sidecarDisk .declared sw, .sidecarConfig .declared sw], rfl⟩
    | build =>
      have hinfra : Entry.sidecarVm .build sw ∈ R.infra := mem_group hmem
      simp only [RunConfig.infra, fabricEntries, sidecarsOf, List.mem_append, List.mem_cons,
        List.mem_map, reduceCtorEq, false_or, and_false, exists_false] at hinfra
      split_ifs at hinfra with hneeds
      · obtain rfl : sw = R.buildSwitch := by simpa [sidecarEntries] using hinfra
        refine ⟨.buildPool :: fabricEntries .build R.buildSwitch ++
          [.sidecarDisk .build R.buildSwitch, .sidecarConfig .build R.buildSwitch], ?_⟩
        show R.infra = _
        simp [RunConfig.infra, sidecarsOf, hneeds, sidecarEntries]
      · cases hinfra
  cases h with
  | runDisk v => exact ⟨_, rfl⟩
  | dataDisk v p i => exact ⟨_, rfl⟩
  | sidecarDisk f sw => exact hsidecar f sw ha
  | sidecarConfig f sw => exact hsidecar f sw ha
  | _ v => exact ⟨[.buildDisk v, .bootIso v] ++ (List.range v.dataPools.length).map
      (.buildDataDisk v) ++ [.buildSeed v], by simp [Entry.group, buildEntries]⟩

/-- The volumes of a VM are of its group. -/
theorem volume_group (h : OwnVolume a b) : b.group R = a.group R := by
  cases h with
  | sidecarDisk f sw => cases f <;> rfl
  | sidecarConfig f sw => cases f <;> rfl
  | _ => rfl

/-- What is of the infrastructure names the build switch. -/
theorem build_fabric {sw : Switch}
    (h : b = .switch .build sw ∨ ∃ net, b = .network .build sw net) : b.tier = .infra := by
  rcases h with rfl | ⟨net, rfl⟩ <;> rfl

/-- The switch and the networks of a VM come before it. -/
theorem not_on_switch (hs : Sorted R es) (h : R.Distinct) (hneeds : R.plan.hyp.NeedsOfVms)
    (hab : [a, b].Sublist es) (ha : a ∈ R.catalog) (hb : b ∈ R.catalog) {f : Fabric} {sw : Switch}
    (hon : OnSwitch R a f sw) (hfabric : b = .switch f sw ∨ ∃ net, b = .network f sw net) :
    False := by
  have hdeclared : f = .declared → b.tier = .fabric := by
    rintro rfl
    rcases hfabric with rfl | ⟨net, rfl⟩ <;> rfl
  cases hon with
  | run hnic hnet => exact hs.not_guest_fabric hneeds hab ha hb rfl (hdeclared rfl)
  | build v => exact hs.not_built_infra hab ha hb rfl (build_fabric hfabric)
  | sidecar f sw =>
    cases f with
    | declared => exact hs.not_guest_fabric hneeds hab ha hb rfl (hdeclared rfl)
    | build =>
      have hgroup : b.group R = Entry.group R (.sidecarVm .build sw) := by
        rcases hfabric with rfl | ⟨net, rfl⟩ <;> rfl
      obtain ⟨xs, hxs⟩ := vm_last (.sidecarDisk .build sw) ha
      have hin := hs.in_group hab ha hb hgroup
      have hnd := nodup_group h ha
      rw [hxs] at hin hnd
      exact not_after_last hnd hin

/-- A switch comes before its networks. -/
theorem not_network_switch (hs : Sorted R es) (h : R.Distinct) {f : Fabric} {sw : Switch}
    {net : String} (hab : [Entry.network f sw net, .switch f sw].Sublist es)
    (ha : .network f sw net ∈ R.catalog) (hb : .switch f sw ∈ R.catalog) : False := by
  have hgroup : Entry.group R (.switch f sw) = Entry.group R (.network f sw net) := by
    cases f <;> rfl
  have hin := hs.in_group hab ha hb hgroup
  have hnd := nodup_group h ha
  cases f with
  | declared => exact not_before_head hnd hin
  | build =>
    have hswitch : sw = R.buildSwitch := by
      have hinfra : Entry.switch .build sw ∈ R.infra := mem_group hb
      simp only [RunConfig.infra, fabricEntries, sidecarsOf, List.mem_append, List.mem_cons,
        List.mem_map, reduceCtorEq, false_or, and_false, exists_false, or_false] at hinfra
      rcases hinfra with heq | hsidecars
      · simpa using heq
      · split_ifs at hsidecars
        · simp [sidecarEntries] at hsidecars
        · cases hsidecars
    subst hswitch
    -- Behind the pool comes the switch.
    exact not_before_head (List.nodup_cons.mp hnd).2
      (List.Sublist.of_cons_of_ne (by rintro ⟨⟩) hin)

/-- A volume that is no part of the build is in a declared pool. -/
theorem pool_of_guest {pool name : String} (ha : a ∈ R.catalog) (hguest : a.tier = .guest)
    (hobj : a.obj R = .volume pool name) :
    ∃ q, Entry.pool q ∈ R.catalog ∧ pool = R.compose "pool" q.name := by
  obtain ⟨⟨walk, n⟩, hi, hown, hof⟩ := exists_owner ha (by rw [hguest]; rintro ⟨⟩)
  rw [hguest] at hof
  obtain ⟨rfl, hn⟩ := hof
  have hnode : n ∈ R.plan.graph.nodes := RunConfig.mem_items.mp hi
  have hpool : ∀ q, Node.pool q ∈ R.plan.graph.nodes → Entry.pool q ∈ R.catalog := fun q hq =>
    RunConfig.own_subset (i := (.realize, .pool q)) (RunConfig.mem_items.mpr hq)
      (List.mem_singleton_self _)
  cases n with
  | pool q => cases hn
  | network sw => cases hn
  | sidecar sw =>
    obtain ⟨first, hfirst, hq, -⟩ := Plan.sidecar_needs_pool hnode
    have hhome : R.home .declared = R.compose "pool" first.name := by
      rw [RunConfig.home, hfirst]
      rfl
    simp only [ownEntries, sidecarEntries, List.mem_cons, List.not_mem_nil, or_false] at hown
    rcases hown with rfl | rfl | rfl <;> cases hobj
    · exact ⟨first, hpool first hq, hhome⟩
    · exact ⟨first, hpool first hq, hhome⟩
  | vm v k =>
    simp only [ownEntries, runEntries, List.mem_append, List.mem_cons, List.mem_map,
      List.not_mem_nil, or_false] at hown
    rcases hown with (rfl | ⟨⟨p, d⟩, hd, rfl⟩) | rfl <;> cases hobj
    · obtain ⟨q, hq, hname, -⟩ := Plan.vm_needs_pool hnode (.inl rfl)
      exact ⟨q, hpool q hq, by rw [hname]⟩
    · obtain ⟨q, hq, hname, -⟩ := Plan.vm_needs_pool hnode
        (.inr (List.fst_mem_of_mem_zipIdx hd))
      exact ⟨q, hpool q hq, by rw [hname]⟩

/-- A volume of the build is in the build pool. -/
theorem pool_of_build {pool name : String} (hbuild : a.tier = .built ∨ a.tier = .infra)
    (hobj : a.obj R = .volume pool name) : pool = R.buildHome := by
  cases a with
  | sidecarDisk f sw =>
    cases f with
    | declared => rcases hbuild with h | h <;> cases h
    | build =>
      cases hobj
      rfl
  | sidecarConfig f sw =>
    cases f with
    | declared => rcases hbuild with h | h <;> cases h
    | build =>
      cases hobj
      rfl
  | runDisk => rcases hbuild with h | h <;> cases h
  | dataDisk => rcases hbuild with h | h <;> cases h
  | _ =>
    cases hobj
    try rfl

/-- A pool comes before its volumes. -/
theorem not_volume_pool (hs : Sorted R es) (h : R.Distinct) (hneeds : R.plan.hyp.NeedsOfVms)
    (hab : [a, b].Sublist es) (ha : a ∈ R.catalog) (hb : b ∈ R.catalog) {pool name : String}
    (hvolume : a.obj R = .volume pool name) (hpool : b.obj R = .pool pool) : False := by
  have hbuildPool : Entry.buildPool ∈ R.catalog := RunConfig.infra_subset List.mem_cons_self
  have hbuild : a.tier = .built ∨ a.tier = .infra → b = .buildPool := by
    intro htier
    refine h.obj_inj hb hbuildPool ?_
    rw [hpool, pool_of_build htier hvolume]
    rfl
  cases htier : a.tier with
  | fabric =>
    cases a with
    | sidecarDisk f => cases f <;> cases htier
    | sidecarConfig f => cases f <;> cases htier
    | pool => cases hvolume
    | switch => cases hvolume
    | network => cases hvolume
    | buildPool => cases hvolume
    | sidecarVm => cases hvolume
    | _ => cases htier
  | guest =>
    obtain ⟨q, hq, rfl⟩ := pool_of_guest ha htier hvolume
    obtain rfl : b = .pool q := h.obj_inj hb hq hpool
    exact hs.not_guest_fabric hneeds hab ha hb htier rfl
  | built =>
    obtain rfl := hbuild (.inl htier)
    exact hs.not_built_infra hab ha hb htier rfl
  | infra =>
    obtain rfl := hbuild (.inr htier)
    have hgroup := (group_of_infra (mem_infra_of_tier ha htier)).1
    have hin := hs.in_group hab ha hb hgroup.symm
    rw [hgroup] at hin
    exact not_before_head h.nodup_infra hin

/-- The VMs of a node that stay are recorded by its hook. -/
theorem runVm_own {n : Node} (ha : a ∈ n.runVms) : a ∈ ownEntries (.realize, n) := by
  cases n with
  | vm v k =>
    rw [List.mem_singleton.mp ha]
    simp [ownEntries, runEntries]
  | sidecar sw =>
    rw [List.mem_singleton.mp ha]
    simp [ownEntries, sidecarEntries]
  | _ => cases ha

/-- **What is listed earlier never has to go before what is listed later.** -/
theorem not_before (hs : Sorted R es) (h : R.Distinct) (hneeds : R.plan.hyp.NeedsOfVms)
    (hab : [a, b].Sublist es) (ha : a ∈ R.catalog) (hb : b ∈ R.catalog) :
    ¬ Before R Node.runVms a b := by
  intro hbefore
  cases hbefore with
  | volume hvolume =>
    obtain ⟨xs, hxs⟩ := vm_last hvolume ha
    have hin := hs.in_group hab ha hb (volume_group hvolume)
    have hnd := nodup_group h ha
    rw [hxs] at hin hnd
    exact not_after_last hnd hin
  | network hon => exact hs.not_on_switch h hneeds hab ha hb hon (.inr ⟨_, rfl⟩)
  | switch hon => exact hs.not_on_switch h hneeds hab ha hb hon (.inl rfl)
  | pool hvolume hpool => exact hs.not_volume_pool h hneeds hab ha hb hvolume hpool
  | fabric => exact hs.not_network_switch h hab ha hb
  | @needs n m walk _ _ hn hm hneed _ hvm hy =>
    have hi : (Walk.realize, n) ∈ R.items := RunConfig.mem_items.mpr hn
    have hj : (walk, m) ∈ R.items := RunConfig.mem_items.mpr hm
    refine hs.not_later hab hi hj (runVm_own hvm) hy ?_
    cases walk with
    | materialize => exact later_of_walks hm hn
    | realize => exact later_of_needs hn hneed

end Sorted

/-- Two resources that are listed one after the other are so as entries. -/
theorem recorded_of_listed {R : RunConfig} (h : R.Distinct) {w : World Sys} {r r' : Resource}
    (hlisted : [r, r'].Sublist w.resources) {x x' : Entry} (hx : x ∈ R.catalog)
    (hx' : x' ∈ R.catalog) (hr : r.Fits R x) (hr' : r'.Fits R x') :
    [x, x'].Sublist (R.recorded w) := by
  have hsub := (hlisted.map (·.backendName)).filterMap R.entryNamed
  have hname : R.entryNamed r.backendName = some x :=
    (RunConfig.entryNamed_eq_some h).mpr ⟨hx, hr.name.symm⟩
  have hname' : R.entryNamed r'.backendName = some x' :=
    (RunConfig.entryNamed_eq_some h).mpr ⟨hx', hr'.name.symm⟩
  rw [List.map_cons, List.map_cons, List.map_nil, List.filterMap_cons_some hname,
    List.filterMap_cons_some hname', List.filterMap_nil] at hsub
  exact hsub

/-- The ledger of a history is in order. -/
theorem inOrder_of_history {R : RunConfig} (h : R.Distinct)
    {b : Boot (runSig sysSig) Item Err (World Sys) Unit}
    {c : Proc (runSig sysSig) Item Err (World Sys) Unit} (hist : FirstHistory R b c) :
    InOrder R c.world := by
  have hinit : ∀ w, Untouched w → InOrder R w := by
    rintro w ⟨hledger, -⟩
    refine ⟨?_, ?_⟩
    · rw [World.resources, hledger]
      exact by rintro r ⟨⟩
    · rw [RunConfig.recorded, World.resources, hledger]
      exact Sorted.nil
  exact (History.invariant (I := InOrder R) hinit
    (fun w b hw hb c hrun => inOrder_of_run h hw hb hrun) hist).1

/-- **Walking the ledger backwards undoes the dependencies**: for every run whose composed names
are pairwise distinct and whose explicit edges are those of `VMHandle.needs`, in every history of
its first process and the cleanups after it in which the build infrastructure is never begun
while something of it is listed. -/
theorem reverse_ledger_lifo {R : RunConfig} (h : R.Distinct) (hneeds : R.plan.hyp.NeedsOfVms)
    {b : Boot (runSig sysSig) Item Err (World Sys) Unit}
    {c : Proc (runSig sysSig) Item Err (World Sys) Unit} (hist : FirstHistory R b c) :
    ∀ s, c.world.ledger = some s → Lifo R Node.runVms s := by
  intro s hs
  refine List.pairwise_reverse.mpr (List.pairwise_iff_forall_sublist.mpr ?_)
  intro r r' hlisted x hx y hy hfits hfits'
  have hresources : c.world.resources = s.resources := by
    rw [World.resources, hs]
    rfl
  have hab := recorded_of_listed h (hresources ▸ hlisted) hy hx hfits' hfits
  exact (inOrder_of_history h hist).sorted.not_before h hneeds hab hy hx

/-! ### A build whose VM cannot be deleted -/

namespace BuildRun

/-- A VM with a disk and no NIC. -/
def box : VMRecipe := ⟨"box", "p", [], [], by decide⟩

/-- A build switch without a sidecar. -/
def buildSwitch : Switch where
  name := "bench"
  networks := ["wire"]
  cidr := "10.9.0.0/24"
  uplink := none
  mgmt := false
  sidecar := none
  name_ne := by decide
  networks_ne := by simp
  uplink_ne := defaultBuildSwitch.uplink_ne
  cidr_ok := by decide
  nat_uplink := by rintro sc ⟨⟩

def hyp : Hypervisor where
  pools := [PoolRun.pool]
  switches := []
  vms := [box]
  explicitEdges := []
  buildSwitch := some buildSwitch
  nodup_pools := PoolRun.hyp.nodup_pools
  nodup_switches := List.nodup_nil
  nodup_vms := by decide

/-- The plan: the VM needs the pool of its disk. -/
def plan : Plan where
  name := "boxes"
  hyp := hyp
  graph :=
    { name := "boxes"
      nodes := [.pool PoolRun.pool, .vm box 0]
      edges := [⟨"vm:box", "pool:p", .ordering, by decide, by decide⟩]
      nodup_names := by decide
      edges_known := by decide
      waves_complete := by decide
      contentWaves_complete := by decide }
  name_ne := by decide
  validated := by rfl
  assembled := by rfl

def run : RunConfig where
  plan := plan
  runId := "20250101-000000-abcdef"
  naming := libvirtNaming fun _ => "000000"
  driver := ⟨fun _ => "br0", fun _ switchBackend => switchBackend⟩

/-- A process that finds the VM not in the cache. -/
def process : Process where
  toRunConfig := run
  probe := fun _ => ⟨false, true, false, false⟩
  reattach := fun _ => false

theorem distinct : run.Distinct := by
  refine ⟨by decide +kernel, fun sw => ?_⟩
  show ∀ e ∈ run.catalog, e.name run ≠ "br0"
  decide +kernel

/-- What the backend refuses: to delete a VM, and to create a declared pool. -/
def refuses : SysOp → Bool
  | .remove (.vm _) => true
  | .create (.pool name) => name = run.compose "pool" "p"
  | _ => false

/-- A call to the store that takes effect. -/
def saves (m : String → Mutation) (w : World Sys) : Option (Except Err Unit × World Sys) :=
  match w.ledger with
  | none => none
  | some s =>
    match (m "").apply s with
    | .ok s' => some (.ok (), { w with ledger := some s' })
    | .error _ => none

/-- An intent.  The build infrastructure is begun on an empty ledger. -/
def intends (kind n : String) (planName : Option String) (metadata : Dict) (w : World Sys) :
    Option (Except Err Unit × World Sys) :=
  if kind = "build_pool" ∧ !w.resources.isEmpty then none
  else saves (.recordIntent kind n planName metadata) w

/-- A call that adds `o`. -/
def adds (o : Obj) (w : World Sys) : World Sys :=
  { w with rest := { w.rest with live := o :: w.rest.live } }

/-- One course of the calls of the hooks. -/
def hookScript : Prog.Script sysSig Err (World Sys)
  | .recordIntent kind n planName metadata, w => intends kind n planName metadata w
  | .confirm n metadata, w => saves (.confirm n metadata) w
  | .forget n, w => saves (fun _ => .forget n) w
  | .create o, w =>
    if refuses (.create o) then some (.error (.call false), w) else some (.ok (), adds o w)
  | .createSwitch sw n, w =>
    some (.ok (if sw.nat then some (run.driver.uplinkSegment sw) else none), adds (.switch n) w)
  | .createNetwork net n switchBackend, w =>
    some (.ok (), rememberSegment n (run.driver.segment net switchBackend) (adds (.network n) w))
  | .createVm n nics refs, w =>
    match resolveNics w.rest.segments refs nics with
    | .error e => some (.error e, w)
    | .ok segs => some (.ok (), wire n segs (adds (.vm n) w))
  | .remove o, w =>
    if refuses (.remove o) then some (.error (.call false),
      { w with rest := { w.rest with live := w.rest.live.filter fun _ => !false } })
    else some (.ok (),
      { w with rest := { w.rest with live := w.rest.live.filter fun x => !o.affects x } })
  | .destroy _ _ _, _ => none
  | .work, w => some (.ok (), w)
  | .readCtx, w => some (.ok w.rest.ctx, w)
  | .updateCtx f, w => some (.ok (), { w with rest := { w.rest with
      ctx := { f w.rest.ctx with buildInfra := w.rest.ctx.buildInfra } } })
  | .setInfra infra, w => some (.ok (), { w with rest := { w.rest with
      ctx := { w.rest.ctx with buildInfra := infra } } })
  | .acquireInfraLock, w =>
    if w.rest.infraLock then none
    else some (.ok (), { w with rest := { w.rest with infraLock := true } })
  | .releaseInfraLock, w =>
    some (.ok (), { w with rest := { w.rest with infraLock := false } })

/-- And of the other calls up to the teardown. -/
def script : Prog.Script (runSig sysSig) Err (World Sys)
  | .inner o, w => hookScript o w
  | .returned _ _, w => some (.ok (), w)
  | .mark walk node, w => saves (walk.stamp node) w
  | .setPhase phase, w => saves (fun _ => .setPhase phase.name) w
  | _, _ => none

/-- The machine of a process with one job. -/
abbrev M : Machine (runSig sysSig) Item Err (World Sys) :=
  restricted process (some 1) (BuildsAfresh run) fun _ _ => True

/-- What a run of the plan finds. -/
def before : World Sys := ⟨none, ⟨[], [], fun _ => none, .fresh, false⟩⟩

def created : State := .initial run.runId run.plan.name "LibvirtDriver" "qemu:///system" ""

/-- The run, up to its teardown. -/
def broughtUp : Option (Except Err Unit × World Sys) :=
  (bringUp process false).play (M.mainScript script) ⟨some created, before.rest⟩

/-- The names listed at the end. -/
def listed (w : World Sys) : List String := w.resources.map (·.backendName)

/-- The VM of the build stays listed, and the pool is listed after it. -/
theorem listed_broughtUp : broughtUp.map (fun x => listed x.2) =
    some [run.compose "build_vm" "box", run.compose "pool" "p"] := by
  decide +kernel

theorem sound_saves {m : String → Mutation} {w w' : World Sys} {r : Except Err Unit}
    (h : saves m w = some (r, w')) : Outside r ∧ mutates Err.late m w r w' := by
  unfold saves at h
  split at h
  · cases h
  · rename_i s hs
    split at h <;> cases h
    rename_i s' hs'
    exact ⟨by rintro e ⟨⟩, .inl ⟨trivial, s, "", s', hs, hs', rfl⟩⟩

theorem sound_adds {α : Type} (o : Obj) (a : α) (w : World Sys) :
    createCall o w (.ok a) (adds o w) := ⟨by rintro e ⟨⟩, .inl ⟨trivial, rfl⟩⟩

theorem sound_hookScript : hookScript.Sound fun o w r w' =>
    sysSem run.driver o w r w' ∧ BuildsAfresh run (.inner o) w r := by
  intro o w r w' h
  cases o with
  | recordIntent kind n planName metadata =>
    have hintends : intends kind n planName metadata w = some (r, w') := h
    unfold intends at hintends
    split_ifs at hintends with hbegun
    refine ⟨sound_saves hintends, fun hkind e _ x hx => ?_⟩
    have hempty : w.resources = [] := by simpa [hkind] using hbegun
    rw [hempty] at hx
    cases hx
  | confirm n metadata => exact ⟨sound_saves h, trivial⟩
  | forget n => exact ⟨sound_saves h, trivial⟩
  | create o =>
    simp only [hookScript] at h
    split_ifs at h <;> cases h
    · exact ⟨⟨by rintro e ⟨⟩; exact ⟨false, rfl⟩, .inr ⟨by simp [Effective, Err.late], rfl⟩⟩, trivial⟩
    · exact ⟨sound_adds o () w, trivial⟩
  | createSwitch sw n =>
    cases h
    exact ⟨⟨sound_adds _ _ w, by rintro u ⟨⟩; rfl⟩, trivial⟩
  | createNetwork net n switchBackend =>
    cases h
    exact ⟨⟨_, sound_adds _ () w, rfl⟩, trivial⟩
  | createVm n nics refs =>
    refine ⟨?_, trivial⟩
    cases hsegs : resolveNics w.rest.segments refs nics with
    | error e =>
      simp only [hookScript, hsegs] at h
      cases h
      simp only [sysSem, hsegs, and_self]
    | ok segs =>
      simp only [hookScript, hsegs] at h
      cases h
      simp only [sysSem, hsegs]
      exact ⟨_, sound_adds _ () w, rfl⟩
  | remove o =>
    simp only [hookScript] at h
    split_ifs at h <;> cases h
    · exact ⟨⟨by rintro e ⟨⟩; exact ⟨false, rfl⟩, fun _ => false, by rintro x ⟨⟩, by rintro ⟨⟩, rfl⟩,
        trivial⟩
    · exact ⟨⟨by rintro e ⟨⟩, o.affects, fun _ hx => hx, fun _ _ hx => hx, rfl⟩, trivial⟩
  | destroy => cases h
  | acquireInfraLock =>
    simp only [hookScript] at h
    split_ifs at h with hlock
    cases h
    exact ⟨⟨by simpa using hlock, rfl, rfl⟩, trivial⟩
  | work =>
    cases h
    exact ⟨⟨by rintro e ⟨⟩, rfl⟩, trivial⟩
  | _ =>
    cases h
    exact ⟨⟨rfl, rfl⟩, trivial⟩

theorem sound_script : script.Sound M.sem := by
  intro o w r w' h
  cases o with
  | inner o => exact sound_hookScript o w r w' h
  | returned walk node =>
    cases h
    exact ⟨⟨rfl, rfl⟩, trivial⟩
  | mark walk node => exact ⟨(sound_saves h).2, trivial⟩
  | setPhase phase => exact ⟨(sound_saves (m := fun _ => .setPhase phase.name) h).2, trivial⟩
  | _ => cases h

/-- The run, as a history. -/
theorem exists_run : ∃ b c, FirstHistory run b c ∧ ∃ s, c.world.ledger = some s ∧
    s.resources.map (·.backendName) = [run.compose "build_vm" "box", run.compose "pool" "p"] := by
  obtain ⟨⟨out, w'⟩, hplay, hlisted⟩ := Option.map_eq_some_iff.mp listed_broughtUp
  have hends := Prog.Ends.of_play
    (Machine.sound_mainScript sound_script fun _ _ => ⟨trivial, trivial⟩) hplay
  have hboot : ∀ w, M.Run w (Command.main process (.run false false))
      (Machine.booted w (Command.main process (.run false false))) := fun _ => .boot
  obtain ⟨log, hrun⟩ := Machine.Run.of_ends_bind (M := M) hends.attempt
    (hboot _)
  have hboots : FirstBoots run before ⟨M, ⟨some created, before.rest⟩,
      Command.main process (.run false false)⟩ :=
    ⟨process, some 1, _, _, .fresh (R := run) (P := process) (w := before) rfl (some 1)
      (show Command.run false false ≠ .cleanup by simp) rfl (fun _ => rfl) "LibvirtDriver"
      "qemu:///system" "", .inl rfl, rfl⟩
  refine ⟨_, _, History.first_run ⟨rfl, rfl⟩ hboots hrun, ?_⟩
  change w'.resources.map (·.backendName) = _ at hlisted
  cases hledger : w'.ledger with
  | none =>
    rw [World.resources, hledger] at hlisted
    cases hlisted
  | some s =>
    rw [World.resources, hledger] at hlisted
    exact ⟨s, rfl, hlisted⟩

theorem needsOfVms : run.plan.hyp.NeedsOfVms := by
  rintro e he
  cases he

theorem lifo_build_left : ∃ b c, FirstHistory run b c ∧ ∃ s, c.world.ledger = some s ∧
    s.resources.map (·.backendName) = [run.compose "build_vm" "box", run.compose "pool" "p"] ∧
    Lifo run Node.runVms s := by
  obtain ⟨b, c, hist, s, hs, hnames⟩ := exists_run
  exact ⟨b, c, hist, s, hs, hnames, reverse_ledger_lifo distinct needsOfVms hist s hs⟩

/-- **The VM of a build that could not be deleted is destroyed after the pool of its node.** -/
theorem build_vm_outlives : run.Distinct ∧ run.plan.hyp.NeedsOfVms ∧ ∃ b c,
    FirstHistory run b c ∧ ∃ s, c.world.ledger = some s ∧ ¬ Lifo run Node.vms s := by
  obtain ⟨b, c, hist, s, hs, hnames⟩ := exists_run
  refine ⟨distinct, needsOfVms, b, c, hist, s, hs, fun hlifo => ?_⟩
  obtain ⟨build, rest, hresources, hbuild, hrest⟩ := List.map_eq_cons_iff.mp hnames
  obtain ⟨pool, rest, rfl, hpool, hrest⟩ := List.map_eq_cons_iff.mp hrest
  obtain rfl := List.map_eq_nil_iff.mp hrest
  have hfits := (inOrder_of_history distinct hist).fits
  rw [World.resources, hs] at hfits
  change ReadsEntries run s.resources at hfits
  rw [hresources] at hfits
  obtain ⟨y, hy, hyfits⟩ := hfits build (by simp)
  obtain ⟨x, hx, hxfits⟩ := hfits pool (by simp)
  -- The names say which entries they are.
  have hvm : Entry.buildVm box ∈ run.catalog := by decide
  have hown : Entry.pool PoolRun.pool ∈ run.catalog := by decide
  obtain rfl : y = .buildVm box := distinct.name_inj hy hvm (hyfits.name.symm.trans hbuild)
  obtain rfl : x = .pool PoolRun.pool :=
    distinct.name_inj hx hown (hxfits.name.symm.trans hpool)
  have hneeds : run.plan.graph.Needs (.vm box 0) (.pool PoolRun.pool) := by
    show Node.pool PoolRun.pool ∈ depsOf Node.name _ _ (Node.vm box 0)
    decide
  have hrecords : Entry.pool PoolRun.pool ∈ ownEntries (.realize, .pool PoolRun.pool) := by decide
  have hbefore : Before run Node.vms (.buildVm box) (.pool PoolRun.pool) :=
    .needs (n := .vm box 0) (m := .pool PoolRun.pool) (by decide) (by decide)
      (.single hneeds) (by decide) (by decide) hrecords
  rw [Lifo, hresources] at hlifo
  have hnot := List.rel_of_pairwise_cons hlifo (List.mem_singleton_self build)
  exact hnot _ hx _ hy hxfits hyfits hbefore

end BuildRun

end TestRange
