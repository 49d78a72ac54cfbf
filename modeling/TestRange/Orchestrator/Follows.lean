/-
The hooks follow the protocol.

* `wp_provisionSwitch`, `wp_materializeSidecarFor` — what is recorded of a fabric and of a
  sidecar, whether declared or of the build phase;
* `wp_ensureBuildInfra` — the build infrastructure, with its lock;
* `wp_materialize`, `wp_realize` — the hooks.
-/
import TestRange.Orchestrator.Protocol

namespace TestRange

section Hooks

variable {R : RunConfig} {i : Walk × Node} {s : Site} {es : List Entry} {l : Local}

theorem Site.room_subset (hi : i ∈ R.items) {e : Entry} (he : e ∈ s.room R i) :
    e ∈ R.catalog := by
  cases s with
  | hook ready => exact RunConfig.own_subset hi he
  | infra => exact RunConfig.infra_subset he

/-! ### The dictionaries -/

/-- What an updated dictionary holds is the new value or an old one. -/
theorem update_eq_some {d : String → Option String} {n n' : String} {v : Option String} {b : String}
    (h : Function.update d n v n' = some b) : (n' = n ∧ v = some b) ∨ d n' = some b := by
  by_cases hn : n' = n
  · subst hn
    rw [Function.update_self] at h
    exact .inl ⟨rfl, h⟩
  · rw [Function.update_of_ne hn] at h
    exact .inr h

theorem Ctx.Sound.setPool {c : Ctx} (h : c.Sound R) (n : String) :
    Ctx.Sound R { c with
      poolBackends := Function.update c.poolBackends n (some (R.compose "pool" n)) } :=
  { h with
    pool := by
      intro n' b hb
      rcases update_eq_some hb with ⟨rfl, hv⟩ | hb
      · exact (Option.some.inj hv).symm
      · exact h.pool n' b hb }

theorem Ctx.Sound.setSwitch {c : Ctx} (h : c.Sound R) {v : Option String}
    (hv : ∀ b, v = some b → ∃ e ∈ R.catalog, e.obj R = .switch b) (n : String) :
    Ctx.Sound R { c with switchBackends := Function.update c.switchBackends n v } :=
  { h with
    switch := by
      intro n' b hb
      rcases update_eq_some hb with ⟨rfl, hnew⟩ | hb
      · exact hv b hnew
      · exact h.switch n' b hb }

theorem Ctx.Sound.setSidecar {c : Ctx} (h : c.Sound R) {v : Option String}
    (hv : ∀ b, v = some b → ∃ e ∈ R.catalog, e.obj R = .vm b) (n : String) :
    Ctx.Sound R { c with sidecarBackends := Function.update c.sidecarBackends n v } :=
  { h with
    sidecar := by
      intro n' b hb
      rcases update_eq_some hb with ⟨rfl, hnew⟩ | hb
      · exact hv b hnew
      · exact h.sidecar n' b hb }

theorem Ctx.Sound.setNetwork {c : Ctx} (h : c.Sound R) {v : Option String}
    (hv : ∀ b, v = some b →
      (∃ e ∈ R.catalog, e.obj R = .network b) ∨ ∃ sw, b = R.driver.uplinkSegment sw)
    (n : String) :
    Ctx.Sound R { c with networkBackends := Function.update c.networkBackends n v } :=
  { h with
    network := by
      intro n' b hb
      rcases update_eq_some hb with ⟨rfl, hnew⟩ | hb
      · exact hv b hnew
      · exact h.network n' b hb }

/-! ### Fabrics and sidecars -/

/-- A switch and its networks are recorded in this order. -/
theorem wp_provisionSwitch (h : R.Distinct) (hi : i ∈ R.items) (f : Fabric) (sw : Switch)
    (hroom : (es ++ fabricEntries f sw).Sublist (s.room R i)) (hplaced : s.Placed i.1) :
    (provisionSwitch R f.kindPrefix sw).wp (sysLogic R (some i))
      (fun _ l => l = s.after (es ++ fabricEntries f sw)) (Fails s.held) (s.after es) := by
  have hmem : ∀ e ∈ fabricEntries f sw, e ∈ R.catalog := fun e he =>
    Site.room_subset hi (hroom.subset (List.mem_append_right _ he))
  have hswitch : (es ++ [Entry.switch f sw]).Sublist (s.room R i) := by
    refine List.Sublist.trans ?_ hroom
    simp [fabricEntries]
  unfold provisionSwitch
  refine Prog.wp_seq (P := fun u l => l = s.after (es ++ [.switch f sw]) ∧
    u = if sw.nat then some (R.driver.uplinkSegment sw) else none)
    (wp_tracked h hi (Entry.names_of_obj rfl rfl) hswitch hplaced ?_) ?_
  · -- The uplink segment is the driver's answer.
    refine Prog.wp_perform.mpr ⟨Site.mayCreate rfl, ?_, ?_⟩
    · rintro u l' ⟨rfl, hu⟩
      exact ⟨rfl, rfl, hu u rfl⟩
    · rintro err l' ⟨rfl, -⟩
      cases s <;> rfl
  · rintro u l ⟨rfl, hu⟩
    refine Prog.wp_seq (wp_updateCtx (Q := fun _ l => l = s.after (es ++ [.switch f sw]))
      (fun c hc => hc.setSwitch ?_ _) rfl) ?_
    · rintro b ⟨⟩
      exact ⟨.switch f sw, hmem _ (by simp [fabricEntries]), rfl⟩
    rintro - l rfl
    refine Prog.wp_seq (wp_forM_entries (g := .network f sw) ?_ ?_) ?_
    · simpa [fabricEntries] using hroom
    · intro net hnet es' hes'
      have hnetMem : Entry.network f sw net ∈ R.catalog :=
        hmem _ (List.mem_cons_of_mem _ (List.mem_map_of_mem hnet))
      refine Prog.wp_seq (P := fun _ l => l = s.after (es' ++ [.network f sw net]))
        (wp_tracked h hi (Entry.names_of_obj rfl rfl) hes' hplaced ?_) ?_
      · exact wp_creates (fun _ hl => hl) (fun _ _ _ hl => hl) rfl fun _ => ⟨rfl, rfl⟩
      · rintro - l rfl
        refine wp_updateCtx (fun c hc => hc.setNetwork ?_ _) rfl
        rintro b ⟨⟩
        exact .inl ⟨_, hnetMem, rfl⟩
    · rintro - l rfl
      have hdone : s.after (es ++ [.switch f sw] ++ sw.networks.map (.network f sw)) =
          s.after (es ++ fabricEntries f sw) := by simp [fabricEntries]
      rw [hdone]
      split
      case h_1 b =>
        refine wp_updateCtx (fun c hc => hc.setNetwork ?_ _) rfl
        rintro b ⟨⟩
        split_ifs at hu
        exact .inr ⟨sw, Option.some.inj hu⟩
      case h_2 => rfl

/-- The pool a sidecar lands in. -/
def SidecarPool (R : RunConfig) (f : Fabric) : Option String → Prop
  | none => f = .declared
  | some b => b = R.home f

theorem wp_sidecarHome {f : Fabric} {poolBackend : Option String}
    (hpool : SidecarPool R f poolBackend) {Q : String → Local → Prop} {role : Option (Walk × Node)}
    (hQ : Q (R.home f) (s.after es)) :
    (sidecarHome R poolBackend).wp (sysLogic R role) Q (Fails s.held) (s.after es) := by
  unfold sidecarHome
  split
  case h_1 b =>
    cases hpool
    exact hQ
  case h_2 =>
    cases hpool
    split
    case h_1 => exact Site.held_after
    case h_2 first hfirst =>
      refine wp_getPool ?_
      rw [RunConfig.home, hfirst] at hQ
      exact hQ

/-- A sidecar: its disk, its configuration, and the VM last. -/
theorem wp_materializeSidecarFor (h : R.Distinct) (hi : i ∈ R.items) (f : Fabric) (sw : Switch)
    {poolBackend : Option String} (hpool : SidecarPool R f poolBackend)
    (hroom : (es ++ sidecarsOf f sw).Sublist (s.room R i)) (hplaced : s.Placed i.1) :
    (materializeSidecarFor R f.kindPrefix sw poolBackend).wp (sysLogic R (some i))
      (fun _ l => l = s.after (es ++ sidecarsOf f sw)) (Fails s.held) (s.after es) := by
  unfold materializeSidecarFor
  by_cases hneeds : sw.needsSidecar = true
  case neg =>
    rw [if_neg hneeds]
    simp [sidecarsOf, hneeds]
  case pos =>
    have hentries : sidecarsOf f sw = sidecarEntries f sw := by
      rw [sidecarsOf, if_pos hneeds]
    rw [hentries] at hroom ⊢
    rw [if_pos hneeds]
    have hfails : ∀ es' err, Fails s.held err (s.after es') := fun es' _ => Site.held_after
    have hvm : Entry.sidecarVm f sw ∈ R.catalog :=
      Site.room_subset hi (hroom.subset (by simp [sidecarEntries]))
    refine Prog.wp_seq (wp_sidecarHome hpool (Q := fun b l => b = R.home f ∧ l = s.after es)
      ⟨rfl, rfl⟩) ?_
    rintro - l ⟨rfl, rfl⟩
    refine Prog.wp_seq (P := fun _ l => l = s.after es) ?_ ?_
    · unfold sidecarAttachments
      split
      · rfl
      · exact Site.held_after
    rintro nics l rfl
    refine Prog.wp_seq (wp_work (Q := fun _ l => l = s.after es) rfl (hfails es)) ?_
    rintro - l rfl
    refine Prog.wp_seq (P := fun _ l => l = s.after (es ++ [.sidecarDisk f sw]))
      (wp_trackedVolume h hi rfl rfl ?_ hplaced quiet_pure quiet_pure rfl) ?_
    · refine List.Sublist.trans ?_ hroom
      simp [sidecarEntries]
    rintro - l rfl
    refine Prog.wp_seq (wp_work (Q := fun _ l => l = s.after (es ++ [.sidecarDisk f sw])) rfl
      (hfails _)) ?_
    rintro - l rfl
    refine Prog.wp_seq (P := fun _ l => l =
        s.after (es ++ [.sidecarDisk f sw] ++ [.sidecarConfig f sw]))
      (wp_trackedVolume h hi rfl rfl ?_ hplaced quiet_pure quiet_pure rfl) ?_
    · refine List.Sublist.trans ?_ hroom
      simp [sidecarEntries]
    rintro - l rfl
    refine Prog.wp_seq (P := fun _ l => l =
        s.after (es ++ [.sidecarDisk f sw] ++ [.sidecarConfig f sw]))
      (wp_readCtx fun c hc => Site.read_after c) ?_
    rintro c l rfl
    refine Prog.wp_seq (P := fun _ l => l =
        s.after (es ++ [.sidecarDisk f sw] ++ [.sidecarConfig f sw]))
      (Prog.wp_forM (fun _ l => l = s.after (es ++ [.sidecarDisk f sw] ++ [.sidecarConfig f sw]))
        ?_ (fun _ h => h) rfl) ?_
    · -- The attachments are looked up before anything of the VM is recorded.
      rintro done net rest - l rfl
      exact Prog.wp_seq (wp_getItem (Q := fun _ l => l = _) (fun _ _ => rfl) (hfails _))
        fun _ _ hl => hl
    rintro - l rfl
    refine Prog.wp_seq (P := fun _ l => l = s.after (es ++ sidecarEntries f sw))
      (wp_tracked (e := .sidecarVm f sw) h hi (Entry.names_of_obj rfl rfl) ?_ hplaced ?_) ?_
    · refine List.Sublist.trans ?_ hroom
      simp [sidecarEntries]
    · refine wp_creates (fun _ hl => hl) (fun _ _ _ hl => hl) rfl fun _ => ⟨rfl, ?_⟩
      simp [sidecarEntries]
    rintro - l rfl
    refine Prog.wp_seq (wp_work (Q := fun _ l => l = s.after (es ++ sidecarEntries f sw)) rfl
      (hfails _)) ?_
    rintro - l rfl
    refine wp_updateCtx (fun c hc => hc.setSidecar ?_ _) rfl
    rintro b ⟨⟩
    exact ⟨_, hvm, rfl⟩

/-! ### Pools and VMs of the run -/

theorem wp_createPoolBackend (h : R.Distinct) (hi : i ∈ R.items) (p : StoragePool)
    (hroom : (es ++ [Entry.pool p]).Sublist (s.room R i)) (hplaced : s.Placed i.1) :
    (createPoolBackend R p).wp (sysLogic R (some i)) (fun _ l => l = s.after (es ++ [.pool p]))
      (Fails s.held) (s.after es) := by
  unfold createPoolBackend
  refine Prog.wp_seq (P := fun _ l => l = s.after (es ++ [.pool p]))
    (wp_tracked h hi (Entry.names_of_obj rfl rfl) hroom hplaced ?_) ?_
  · exact wp_creates (fun _ hl => hl) (fun _ _ _ hl => hl) rfl fun _ => ⟨rfl, rfl⟩
  · rintro - l rfl
    exact wp_updateCtx (fun c hc => hc.setPool p.name) rfl

/-- A VM of the run: its disks, and the VM last. -/
theorem wp_bringUpVm (h : R.Distinct) (hi : i ∈ R.items) (v : VMRecipe)
    (hroom : (es ++ runEntries v).Sublist (s.room R i)) (hplaced : s.Placed i.1) :
    (bringUpVm R v).wp (sysLogic R (some i)) (fun _ l => l = s.after (es ++ runEntries v))
      (Fails s.held) (s.after es) := by
  have hfails : ∀ es' err, Fails s.held err (s.after es') := fun es' _ => Site.held_after
  unfold bringUpVm
  refine Prog.wp_seq (P := fun _ l => l = s.after es) (wp_readCtx fun c hc => Site.read_after c) ?_
  rintro c l rfl
  refine Prog.wp_seq (wp_getItem (Q := fun _ l => l = s.after es) (fun _ _ => rfl) (hfails es)) ?_
  rintro built l rfl
  refine Prog.wp_seq (wp_getPool (Q := fun b l => b = R.compose "pool" v.osPool ∧ l = s.after es)
    ⟨rfl, rfl⟩) ?_
  rintro - l ⟨rfl, rfl⟩
  refine Prog.wp_seq (P := fun _ l => l = s.after (es ++ [.runDisk v]))
    (wp_trackedVolume h hi rfl rfl ?_ hplaced quiet_builtPath quiet_pure rfl) ?_
  · refine List.Sublist.trans ?_ hroom
    simp [runEntries]
  rintro - l rfl
  refine Prog.wp_seq (wp_forM_entries (g := fun hd => .dataDisk v hd.1 hd.2) ?_ ?_) ?_
  · refine List.Sublist.trans ?_ hroom
    simp [runEntries]
  · rintro ⟨p, n⟩ - es' hes'
    refine Prog.wp_seq (wp_getPool (Q := fun b l => b = R.compose "pool" p ∧ l = s.after es')
      ⟨rfl, rfl⟩) ?_
    rintro - l ⟨rfl, rfl⟩
    exact wp_trackedVolume h hi rfl rfl hes' hplaced quiet_builtPath quiet_pure rfl
  rintro - l rfl
  refine Prog.wp_seq (P := fun _ l => l = s.after (es ++ runEntries v))
    (wp_tracked (e := .vm v) h hi (Entry.names_of_obj rfl rfl) ?_ hplaced ?_) ?_
  · refine List.Sublist.trans ?_ hroom
    simp [runEntries]
  · refine Prog.wp_seq (wp_readCtx (Q := fun _ l => l = s.opened _ (.vm v))
      fun c hc => Site.read_opened c) ?_
    rintro c l rfl
    refine wp_creates (fun _ hl => hl) (fun _ _ _ hl => hl) rfl fun _ => ⟨rfl, ?_⟩
    simp [runEntries]
  rintro - l rfl
  exact wp_work rfl (hfails _)

/-! ### The build infrastructure -/

theorem Local.held_released (l : Local) : l.released.sect.held = false := by
  unfold Local.released
  split <;> rfl

theorem wp_release {role : Option (Walk × Node)} {Q : Unit → Local → Prop}
    {E : Err → Local → Prop} (hheld : l.sect.held = true) (hQ : Q () l.released) :
    (sysOp .releaseInfraLock).wp (sysLogic R role) Q E l := by
  refine Prog.wp_perform.mpr ⟨hheld, ?_, ?_⟩
  · rintro a l' ⟨-, rfl⟩
    exact hQ
  · rintro err l' ⟨hr, -⟩
    cases hr

/-- Under the lock: it is released on both exits. -/
theorem wp_withInfraLock {α : Type} {role : Option (Walk × Node)} {body : Hook α}
    {Q : α → Local → Prop} (hfree : l.sect = .free)
    (hbody : body.wp (sysLogic R role) (fun a l' => l'.sect.held = true ∧ Q a l'.released)
      (Fails true) { l with sect := .locked, last := none }) :
    (withInfraLock body).wp (sysLogic R role) Q (Fails false) l := by
  unfold withInfraLock
  refine Prog.wp_seq (P := fun _ l' => l' = { l with sect := .locked, last := none })
    (Prog.wp_perform.mpr ⟨hfree, ?_, ?_⟩) ?_
  · rintro a l' ⟨-, rfl⟩
    rfl
  · rintro err l' ⟨hr, -⟩
    cases hr
  · rintro - l' rfl
    refine (congrFun Prog.wp_tryFinally _).mpr (Prog.wp_mono ?_ ?_ hbody)
    · rintro a l' ⟨hheld, hQ⟩
      exact wp_release hheld hQ
    · intro err l' hheld
      exact wp_release hheld (Local.held_released l')

/-- The build infrastructure has been recorded and is up. -/
def Local.infraUp : Local := ⟨[], none, none, .up, false⟩

theorem wp_createBuildInfra (h : R.Distinct) (hi : i ∈ R.items) :
    (createBuildInfra R).wp (sysLogic R (some i))
      (fun b l => b.1 = R.buildHome ∧ l = Local.infraUp) (Fails true) (Site.infra.after []) := by
  have hroom : ∀ es' : List Entry, es'.Sublist R.infra → es'.Sublist (Site.infra.room R i) :=
    fun _ hes' => hes'
  unfold createBuildInfra createBuildPool
  refine Prog.wp_seq (P := fun b l => b = R.buildHome ∧ l = Site.infra.after [.buildPool]) ?_ ?_
  · refine Prog.wp_seq (P := fun _ l => l = Site.infra.after [.buildPool])
      (wp_tracked (e := .buildPool) (s := .infra) h hi (Entry.names_of_obj rfl rfl) ?_ trivial ?_) ?_
    · exact hroom _ (by simp [RunConfig.infra])
    · exact wp_creates (fun _ hl => hl) (fun _ _ _ hl => hl) rfl fun _ => ⟨rfl, rfl⟩
    · rintro - l rfl
      exact ⟨rfl, rfl⟩
  rintro b l ⟨rfl, rfl⟩
  refine Prog.wp_seq (wp_provisionSwitch (s := .infra) h hi .build R.buildSwitch ?_ trivial) ?_
  · exact hroom _ (by simp [RunConfig.infra])
  rintro - l rfl
  refine Prog.wp_seq (P := fun _ l => l =
    Site.infra.after ([.buildPool] ++ fabricEntries .build R.buildSwitch)) ?_ ?_
  · unfold firstNetwork
    split
    case h_1 net hnet =>
      refine Prog.wp_seq (wp_readCtx (Q := fun _ l => l =
        Site.infra.after ([.buildPool] ++ fabricEntries .build R.buildSwitch))
          fun c hc => Site.read_after c) ?_
      rintro c l rfl
      exact wp_getItem (fun _ _ => rfl) fun _ => Site.held_after
    case h_2 => exact Site.held_after
  rintro net l rfl
  refine Prog.wp_seq (wp_materializeSidecarFor (s := .infra) h hi .build R.buildSwitch
    (show SidecarPool R .build (some R.buildHome) from rfl) ?_ trivial) ?_
  · exact hroom _ (by simp [RunConfig.infra])
  rintro - l rfl
  -- All of it is recorded: the flag may be set.
  have hall : ([.buildPool] ++ fabricEntries .build R.buildSwitch ++
      sidecarsOf .build R.buildSwitch) = R.infra := rfl
  rw [hall]
  refine Prog.wp_seq (P := fun _ l => l = Local.infraUp)
    (Prog.wp_perform.mpr ⟨⟨fun _ => ⟨rfl, rfl⟩, .inr ⟨rfl, rfl⟩⟩, ?_, ?_⟩) ?_
  · rintro a l' ⟨-, rfl⟩
    rfl
  · rintro err l' ⟨hr, -⟩
    cases hr
  · rintro - l rfl
    exact ⟨rfl, rfl⟩

/-- The build infrastructure is made by the first hook that finds it down. -/
theorem wp_ensureBuildInfra {P : Process} (hP : P.toRunConfig = R) (h : R.Distinct)
    (hi : i ∈ R.items) :
    (ensureBuildInfra P).wp (sysLogic R (some i))
      (fun b l => b.1 = R.buildHome ∧ l = (Site.hook true).after []) (Fails false)
      ((Site.hook false).after []) := by
  subst hP
  refine wp_withInfraLock rfl ?_
  refine Prog.wp_seq (P := fun c l => c.Sound P.toRunConfig ∧ l = Local.read
    ⟨[], none, none, .locked, false⟩ c) (wp_readCtx fun c hc => ⟨hc, rfl⟩) ?_
  rintro c l ⟨hc, rfl⟩
  by_cases hactive : c.buildInfra.active = true
  · have hread : Local.read ⟨[], none, none, .locked, false⟩ c = Local.infraUp := by
      simp [Local.read, hactive, Local.infraUp]
    rw [hread, if_pos hactive, (hc.infra hactive).1]
    split
    case h_1 b net hb hnet =>
      cases hb
      exact ⟨rfl, rfl, rfl⟩
    case h_2 => rfl
  · have hread : Local.read ⟨[], none, none, .locked, false⟩ c = Site.infra.after [] := by
      simp [Local.read, hactive, Site.after]
    rw [hread, if_neg hactive]
    split
    · rfl
    · refine Prog.wp_mono ?_ (fun _ _ he => he) (wp_createBuildInfra h hi)
      rintro b l ⟨hb, rfl⟩
      exact ⟨rfl, hb, rfl⟩

/-! ### Builds -/

theorem wp_onlyIf {role : Option (Walk × Node)} {b : Bool} {p : Hook Unit}
    {Q : Unit → Local → Prop} {E : Err → Local → Prop}
    (htrue : b = true → p.wp (sysLogic R role) Q E l) (hfalse : b = false → Q () l) :
    (onlyIf b p).wp (sysLogic R role) Q E l := by
  cases b with
  | true => exact htrue rfl
  | false => exact hfalse rfl

/-- What was removed may be forgotten. -/
theorem wp_forget {role : Option (Walk × Node)} {e : Entry} (h : R.Distinct) (he : e ∈ R.catalog)
    (hgone : l.gone = some (e.obj R)) {Q : Unit → Local → Prop} {E : Err → Local → Prop}
    (hQ : Q () l) (hE : ∀ err, E err l) :
    (sysOp (.forget (e.obj R).name)).wp (sysLogic R role) Q E l := by
  refine Prog.wp_perform.mpr ⟨fun e' he' hname => ?_, ?_, ?_⟩
  · rw [h.name_inj he' he hname]
    exact hgone
  · rintro a l' rfl
    exact hQ
  · rintro err l' rfl
    exact hE err

/-- A delete after the capture: what could not be removed stays recorded. -/
theorem wp_bestEffortDelete (h : R.Distinct) (hi : i ∈ R.items) {e : Entry} {o : Obj}
    (he : e ∈ ownEntries i) (ho : e.obj R = o) (hfree : l.sect = .free) :
    (bestEffortDelete o).wp (sysLogic R (some i)) (fun _ l' => l'.sect = .free) (Fails false) l := by
  subst ho
  unfold bestEffortDelete
  refine Prog.wp_seq (P := fun r l' => l'.sect = .free ∧
    (r.isOk → l'.gone = some (e.obj R))) ?_ ?_
  · refine (congrFun Prog.wp_attempt _).mpr (Prog.wp_perform.mpr ⟨?_, ?_, ?_⟩)
    · rintro j hj
      cases hj
      exact ⟨hfree, e, he, rfl⟩
    · rintro a l' rfl
      exact ⟨hfree, fun _ => rfl⟩
    · rintro err l' rfl
      exact ⟨hfree, by rintro ⟨⟩⟩
  · rintro (err | a) l' ⟨hfree', hgone⟩
    · exact hfree'
    · refine wp_forget h (RunConfig.own_subset hi he) (hgone rfl) hfree' fun _ => ?_
      rw [Fails, hfree']
      rfl

/-- What a build records, by what it has to boot from. -/
def builtEntries (v : VMRecipe) (probe : Probe) : List Entry :=
  [.buildDisk v] ++ (if probe.bootMedia then [.bootIso v] else []) ++
    (List.range v.dataPools.length).map (.buildDataDisk v) ++
    (if probe.seed then [.buildSeed v] else []) ++ [.buildVm v]

theorem builtEntries_sublist (v : VMRecipe) (probe : Probe) :
    (builtEntries v probe).Sublist (buildEntries v) := by
  unfold builtEntries buildEntries
  cases probe.bootMedia <;> cases probe.seed <;> simp

theorem wp_buildOneVm (h : R.Distinct) {v : VMRecipe} {index : ℕ}
    (hi : (.materialize, .vm v index) ∈ R.items) (probe : Probe) (net : String) :
    (buildOneVm R v probe R.buildHome net).wp (sysLogic R (some (.materialize, .vm v index)))
      (fun _ l => l.sect = .free) (Fails false) ((Site.hook true).after []) := by
  have hroom : (builtEntries v probe).Sublist
      ((Site.hook true).room R (.materialize, .vm v index)) := builtEntries_sublist v probe
  have hplaced : (Site.hook true).Placed Walk.materialize := fun _ => rfl
  have hfails : ∀ es' err, Fails false err ((Site.hook true).after es') := fun _ _ => rfl
  unfold buildOneVm
  -- The disks, the boot medium and the seed.
  refine Prog.wp_seq (P := fun _ l => l = (Site.hook true).after [.buildDisk v])
    (wp_trackedVolume (e := .buildDisk v) (s := .hook true) h hi rfl rfl ?_ hplaced quiet_pure
      ?_ rfl) ?_
  · refine List.Sublist.trans ?_ hroom
    simp [builtEntries]
  · intro l
    exact wp_onlyIf (fun _ => quiet_work l) fun _ => rfl
  rintro - l rfl
  refine Prog.wp_seq (P := fun _ l => l = (Site.hook true).after
    ([.buildDisk v] ++ if probe.bootMedia then [.bootIso v] else [])) (wp_onlyIf ?_ ?_) ?_
  · intro hboot
    rw [if_pos hboot]
    refine Prog.wp_seq (wp_work (Q := fun _ l => l = (Site.hook true).after [.buildDisk v]) rfl
      (hfails _)) ?_
    rintro - l rfl
    refine wp_trackedVolume (s := .hook true) h hi rfl rfl ?_ hplaced quiet_pure quiet_pure rfl
    refine List.Sublist.trans ?_ hroom
    simp [builtEntries, hboot]
  · intro hboot
    simp [hboot]
  rintro - l rfl
  refine Prog.wp_seq (P := fun _ l => l = (Site.hook true).after
    ([.buildDisk v] ++ (if probe.bootMedia then [.bootIso v] else []) ++
      (List.range v.dataPools.length).map (.buildDataDisk v))) ?_ ?_
  · refine wp_forM_entries (g := .buildDataDisk v) ?_ ?_
    · refine List.Sublist.trans ?_ hroom
      simp [builtEntries]
    · intro n _ es' hes'
      exact wp_trackedVolume (s := .hook true) h hi rfl rfl hes' hplaced quiet_pure quiet_pure rfl
  rintro - l rfl
  refine Prog.wp_seq (wp_work (Q := fun _ l => l = _) rfl (hfails _)) ?_
  rintro - l rfl
  refine Prog.wp_seq (P := fun _ l => l = (Site.hook true).after
    ([.buildDisk v] ++ (if probe.bootMedia then [.bootIso v] else []) ++
      (List.range v.dataPools.length).map (.buildDataDisk v) ++
      if probe.seed then [.buildSeed v] else [])) (wp_onlyIf ?_ ?_) ?_
  · intro hseed
    rw [if_pos hseed]
    refine wp_trackedVolume (s := .hook true) h hi rfl rfl ?_ hplaced quiet_pure quiet_pure rfl
    refine List.Sublist.trans ?_ hroom
    simp [builtEntries, hseed]
  · intro hseed
    simp [hseed]
  rintro - l rfl
  refine Prog.wp_seq (P := fun _ l => l = (Site.hook true).after (builtEntries v probe))
    (wp_tracked (e := .buildVm v) (s := .hook true) h hi (Entry.names_of_obj rfl rfl) hroom
      hplaced ?_) ?_
  · exact wp_creates (s := .hook true) (fun _ hl => hl) (fun _ _ _ hl => hl) rfl fun _ => ⟨rfl, rfl⟩
  rintro - l rfl
  -- The run of the build, and the capture.
  refine Prog.wp_seq (wp_work (Q := fun _ (l : Local) => l.sect = .free) rfl (hfails _)) ?_
  have hfails' : ∀ l : Local, l.sect = .free → ∀ err, Fails false err l := by
    intro l hl err
    rw [Fails, hl]
    rfl
  intro _ l hl
  refine Prog.wp_seq (wp_work (Q := fun _ (l : Local) => l.sect = .free) hl (hfails' l hl)) ?_
  intro _ l hl
  refine Prog.wp_seq (wp_work (Q := fun _ (l : Local) => l.sect = .free) hl (hfails' l hl)) ?_
  intro _ l hl
  refine Prog.wp_seq (P := fun _ (l : Local) => l.sect = .free)
    (Prog.wp_forM (fun _ l => l.sect = .free) ?_ (fun _ h => h) hl) ?_
  · intro _ _ _ _ l hl
    exact wp_work hl (hfails' l hl)
  intro _ l hl
  refine Prog.wp_seq (wp_updateCtx (Q := fun _ (l : Local) => l.sect = .free) (fun c hc => { hc with }) hl) ?_
  -- The deletes, last created first.
  intro _ l hl
  refine Prog.wp_seq (wp_bestEffortDelete (e := .buildVm v) h hi ?_ rfl hl) ?_
  · simp [ownEntries, buildEntries]
  intro _ l hl
  refine Prog.wp_seq (P := fun _ (l : Local) => l.sect = .free) (wp_onlyIf (fun _ =>
    wp_bestEffortDelete (e := .buildSeed v) h hi ?_ rfl hl) fun _ => hl) ?_
  · simp [ownEntries, buildEntries]
  intro _ l hl
  refine Prog.wp_seq (P := fun _ (l : Local) => l.sect = .free) (wp_onlyIf (fun _ =>
    wp_bestEffortDelete (e := .bootIso v) h hi ?_ rfl hl) fun _ => hl) ?_
  · simp [ownEntries, buildEntries]
  intro _ l hl
  refine Prog.wp_seq (P := fun _ (l : Local) => l.sect = .free) ?_ ?_
  · refine Prog.wp_forM (fun _ l => l.sect = .free) ?_ (fun _ h => h) hl
    intro before n after hsplit l hl
    refine wp_bestEffortDelete (e := .buildDataDisk v n) h hi ?_ rfl hl
    have hn : n ∈ List.range v.dataPools.length := by
      rw [hsplit]
      simp
    simpa [ownEntries, buildEntries] using List.mem_range.mp hn
  intro _ l hl
  refine wp_bestEffortDelete (e := .buildDisk v) h hi ?_ rfl hl
  simp [ownEntries, buildEntries]

/-! ### The hooks -/

/-- The networks of a switch that is reattached are entered one after another. -/
theorem Ctx.Sound.reattach {c : Ctx} (hc : c.Sound R) (nets : List String)
    (hnets : ∀ net ∈ nets, ∃ e ∈ R.catalog, e.obj R = .network (R.compose "network" net)) :
    Ctx.Sound R { c with
      networkBackends := nets.foldl
        (fun d net => Function.update d net (some (R.compose "network" net)))
        c.networkBackends } := by
  induction nets generalizing c with
  | nil => exact hc
  | cons net nets ih =>
    have hstep : Ctx.Sound R { c with
        networkBackends :=
          Function.update c.networkBackends net (some (R.compose "network" net)) } := by
      refine hc.setNetwork ?_ net
      rintro b ⟨⟩
      exact .inl (hnets net List.mem_cons_self)
    exact ih hstep fun net' hnet' => hnets net' (List.mem_cons_of_mem net hnet')

variable {P : Process}

/-- What a hook leaves, on its exits. -/
def Follows (R : RunConfig) (i : Walk × Node) (p : Hook Unit) : Prop :=
  p.wp (sysLogic R (some i)) (fun _ l => l.sect = .free) (Fails false) Local.init

theorem follows_of_after {p : Hook Unit} {es : List Entry}
    (hp : p.wp (sysLogic R (some i)) (fun _ l => l = (Site.hook false).after es) (Fails false)
      ((Site.hook false).after [])) : Follows R i p := by
  refine Prog.wp_mono ?_ (fun _ _ he => he) hp
  rintro - l rfl
  rfl

theorem wp_materialize (hP : P.toRunConfig = R) (h : R.Distinct) {n : Node}
    (hi : (.materialize, n) ∈ R.items) : Follows R (.materialize, n) (materialize P n) := by
  cases n with
  | vm v index =>
    unfold Follows materialize
    dsimp only
    split_ifs
    · exact wp_updateCtx (fun c hc => { hc with }) rfl
    · refine Prog.wp_seq (wp_ensureBuildInfra hP h hi) ?_
      rintro ⟨b, net⟩ l ⟨hb, rfl⟩
      cases hb
      subst hP
      exact wp_buildOneVm h hi _ net
  | _ => rfl

theorem wp_realize (hP : P.toRunConfig = R) (h : R.Distinct) {n : Node}
    (hi : (.realize, n) ∈ R.items) : Follows R (.realize, n) (realize P n) := by
  subst hP
  have hplaced : (Site.hook false).Placed Walk.realize := by rintro ⟨⟩
  have hown : ∀ e ∈ ownEntries (.realize, n), e ∈ P.toRunConfig.catalog := fun e he =>
    RunConfig.own_subset hi he
  -- The readiness gate at the end of a hook.
  have hgate : ∀ l : Local, l.sect = .free → (sysOp .work).wp
      (sysLogic P.toRunConfig (some (.realize, n))) (fun _ l => l.sect = .free) (Fails false) l := by
    intro l hl
    refine wp_work hl fun _ => ?_
    rw [Fails, hl]
    rfl
  cases n with
  | pool p =>
    unfold Follows realize
    dsimp only
    split_ifs
    · exact wp_updateCtx (fun c hc => hc.setPool p.name) rfl
    · exact follows_of_after (wp_createPoolBackend (s := .hook false) h hi p
        (List.Sublist.refl _) hplaced)
  | network sw =>
    unfold Follows realize
    dsimp only
    split_ifs
    · refine wp_updateCtx (fun c hc => ?_) rfl
      refine Ctx.Sound.reattach (hc.setSwitch ?_ sw.name) sw.networks ?_
      · rintro b ⟨⟩
        exact ⟨.switch .declared sw, hown _ List.mem_cons_self, rfl⟩
      · intro net hnet
        exact ⟨.network .declared sw net,
          hown _ (List.mem_cons_of_mem _ (List.mem_map_of_mem hnet)), rfl⟩
    · exact follows_of_after (wp_provisionSwitch (s := .hook false) h hi .declared sw
        (List.Sublist.refl _) hplaced)
  | sidecar sw =>
    unfold Follows realize
    refine Prog.wp_seq (P := fun _ (l : Local) => l.sect = .free) ?_ fun _ l hl => hgate l hl
    split_ifs
    · refine wp_updateCtx (fun c hc => hc.setSidecar ?_ _) rfl
      rintro b ⟨⟩
      exact ⟨.sidecarVm .declared sw, hown _ (by simp [ownEntries, sidecarEntries]), rfl⟩
    · refine follows_of_after (wp_materializeSidecarFor (s := .hook false) h hi .declared sw
        (show SidecarPool _ .declared none from rfl) ?_ hplaced)
      unfold sidecarsOf
      split_ifs
      · exact List.Sublist.refl _
      · exact List.nil_sublist _
  | vm v index =>
    unfold Follows realize
    refine Prog.wp_seq (P := fun _ (l : Local) => l.sect = .free) ?_ fun _ l hl => hgate l hl
    refine wp_onlyIf (fun _ => ?_) fun _ => rfl
    exact follows_of_after (wp_bringUpVm (s := .hook false) h hi v (List.Sublist.refl _) hplaced)

/-- **Every hook follows the protocol.** -/
theorem follows_hooks (hP : P.toRunConfig = R) (h : R.Distinct) (hi : i ∈ R.items) :
    Follows R i (hooks P i.1 i.2) := by
  obtain ⟨walk, n⟩ := i
  cases walk with
  | materialize => exact wp_materialize hP h hi
  | realize => exact wp_realize hP h hi

end Hooks

end TestRange
