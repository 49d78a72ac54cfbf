/-
The order of the ledger.

The ledger is what the hooks have appended, in whatever order they reached its lock, less what
has been forgotten.  In a run that is not resumed, and that never begins its build
infrastructure over the leftovers of a first attempt, this order still respects the schedule.

* `stageLogic` — the main thread: once it has taken the build infrastructure down it maps no
  more hooks that build;
* `Sorted` — a hook's own entries are in its order, so are those of the build infrastructure;
  no hook records before those that are scheduled earlier, nor before what it builds on;
* `Working`, `Orderly` — the invariant of the threads that keeps it so;
* `inOrder_of_run` — the ledger of a first process, and of those that clean up after it.
-/
import TestRange.Edges
import TestRange.Orchestrator.LedgerKeys

namespace TestRange

/-! ### The main thread -/

/-- How far the main thread is with the build. -/
inductive Stage
  | building
  /-- It has taken the build infrastructure down. -/
  | torn
  /-- It brings nothing up. -/
  | closed

/-- The stage after the build infrastructure was said to be down. -/
def Stage.set : Stage → Stage
  | .building => .torn
  | stage => stage

/-- The rule of the main thread: what builds is mapped before the build infrastructure is taken
down. -/
def stageLogic : Prog.Logic ((runSig sysSig).withFork Item) Err Stage where
  ok
    | .inr items, stage => stage ≠ .closed ∧ (stage = .torn → ∀ i ∈ items, i.1 = .realize)
    | .inl _, _ => True
  next
    | .inl (.inner (.setInfra _)), stage, _, stage' => stage' = stage.set
    | _, stage, _, stage' => stage' = stage

theorem stageLogic_next (o : ((runSig sysSig).withFork Item).Op) (stage : Stage)
    (r : Except Err (((runSig sysSig).withFork Item).Res o)) :
    ∃ stage', stageLogic.next o stage r stage' := by
  rcases o with o | items
  · cases o with
    | inner o => cases o <;> exact ⟨_, rfl⟩
    | _ => exact ⟨_, rfl⟩
  · exact ⟨_, rfl⟩

/-- Where a command begins. -/
def Command.stage : Command → Stage
  | .cleanup => .closed
  | _ => .building

section MainThread

variable {P : Process} {stage : Stage}

/-- The main thread may still map hooks. -/
def Opened {α : Type} (_ : α) (stage : Stage) : Prop := stage ≠ .closed

/-- Calls of the main thread. -/
theorem wp_stage_lift {α : Type} {p : Prog (runSig sysSig) Err α} {I : Stage → Prop}
    (hset : ∀ stage, I stage → I stage.set) (hI : I stage) :
    (MainProg.lift p : MainProg (runSig sysSig) Item Err α).wp stageLogic (fun _ => I)
      (fun _ => I) stage := by
  induction p generalizing stage with
  | ret a => exact hI
  | raise e => exact hI
  | call o k ih =>
    refine ⟨trivial, fun r stage' hnext => ih r ?_⟩
    cases o with
    | inner o =>
      cases o with
      | setInfra infra =>
        rw [show stage' = stage.set from hnext]
        exact hset stage hI
      | _ =>
        rw [show stage' = stage from hnext]
        exact hI
    | _ =>
      rw [show stage' = stage from hnext]
      exact hI

theorem wp_stage_open {α : Type} {p : Prog (runSig sysSig) Err α} (h : Opened () stage) :
    (MainProg.lift p : MainProg (runSig sysSig) Item Err α).wp stageLogic Opened Opened stage := by
  refine wp_stage_lift (I := Opened ()) ?_ h
  rintro (_ | _ | _) hopen
  · exact by rintro ⟨⟩
  · exact hopen
  · exact hopen

theorem wp_stage_done {α : Type} {p : Prog (runSig sysSig) Err α} :
    (MainProg.lift p : MainProg (runSig sysSig) Item Err α).wp stageLogic (fun _ _ => True)
      (fun _ _ => True) stage :=
  wp_stage_lift (I := fun _ => True) (fun _ _ => trivial) trivial

theorem wp_stage_walk {walk : Walk} {waves : List (List Node)} (hopen : Opened () stage)
    (hwalk : stage = .torn → walk = .realize) :
    (walkWaves walk waves : Main).wp stageLogic (fun _ stage' => stage' = stage)
      (fun _ stage' => stage' = stage) stage := by
  refine Prog.wp_forM (fun _ stage' => stage' = stage) ?_ (fun _ h => h) rfl
  rintro done wave rest - stage' rfl
  refine Prog.wp_perform.mpr ⟨⟨hopen, fun htorn i hi => ?_⟩, fun _ _ h => h, fun _ _ h => h⟩
  obtain ⟨n, -, rfl⟩ := List.mem_map.mp hi
  exact hwalk htorn

/-- The calls before the walk leave the stage alone. -/
theorem wp_stage_work : (MainProg.lift (onInner (sysOp .work)) :
    MainProg (runSig sysSig) Item Err Unit).wp stageLogic (fun _ stage => stage = .building) Opened
      .building := by
  refine ⟨trivial, ?_⟩
  rintro (e | a) stage h
  · rw [show stage = .building from h]
    exact by rintro ⟨⟩
  · exact h

theorem wp_stage_setPhase {phase : Phase} : (MainProg.lift (runOp (.setPhase phase)) :
    MainProg (runSig sysSig) Item Err Unit).wp stageLogic (fun _ stage => stage = .building) Opened
      .building := by
  refine ⟨trivial, ?_⟩
  rintro (e | a) stage h
  · rw [show stage = .building from h]
    exact by rintro ⟨⟩
  · exact h

theorem wp_stage_buildWalk : (buildWalk P).wp stageLogic Opened Opened .building := by
  unfold buildWalk materializeGraph
  refine Prog.wp_seq wp_stage_setPhase ?_
  rintro - stage rfl
  refine Prog.wp_seq wp_stage_work ?_
  rintro - stage rfl
  refine (congrFun Prog.wp_tryFinally _).mpr ?_
  refine Prog.wp_mono ?_ ?_ (wp_stage_walk (by rintro ⟨⟩) (by rintro ⟨⟩))
  · rintro a stage rfl
    exact wp_stage_open (by rintro ⟨⟩)
  · rintro e stage rfl
    exact wp_stage_open (by rintro ⟨⟩)

theorem wp_stage_bringUp {requireCache : Bool} :
    (bringUp P requireCache).wp stageLogic Opened Opened .building := by
  unfold bringUp
  refine Prog.wp_seq (P := fun _ stage => stage = .building) ?_ ?_
  · split_ifs
    · refine Prog.wp_seq wp_stage_work ?_
      rintro - stage rfl
      split_ifs
      · rfl
      · exact by rintro ⟨⟩
    · rfl
  · rintro - stage rfl
    refine Prog.wp_seq wp_stage_buildWalk fun _ stage hopen => ?_
    unfold realizeGraph
    refine Prog.wp_seq (wp_stage_open hopen) fun _ stage hopen => ?_
    refine Prog.wp_mono ?_ ?_ (wp_stage_walk hopen fun _ => rfl)
    · rintro a stage' rfl
      exact hopen
    · rintro e stage' rfl
      exact hopen

theorem wp_stage_command (cmd : Command) :
    (cmd.main P).wp stageLogic (fun _ _ => True) (fun _ _ => True) cmd.stage := by
  cases cmd with
  | run requireCache leak =>
    refine Prog.wp_seq (P := fun _ _ => True) ?_ fun up stage _ => ?_
    · refine (congrFun Prog.wp_attempt _).mpr ?_
      exact Prog.wp_mono (fun _ _ _ => trivial) (fun _ _ _ => trivial) wp_stage_bringUp
    rcases up with e | a
    · exact Prog.wp_seq wp_stage_done fun _ _ _ => trivial
    · dsimp only
      split_ifs
      · exact Prog.wp_seq wp_stage_done fun _ _ _ => wp_stage_done
      · exact wp_stage_done
  | build =>
    refine Prog.wp_seq (P := fun _ _ => True) ?_ fun built stage _ => ?_
    · refine (congrFun Prog.wp_attempt _).mpr ?_
      exact Prog.wp_mono (fun _ _ _ => trivial) (fun _ _ _ => trivial) wp_stage_buildWalk
    refine Prog.wp_seq wp_stage_done fun _ _ _ => ?_
    exact Prog.wp_ofExcept.mpr ⟨fun _ _ => trivial, fun _ _ => trivial⟩
  | cleanup => exact wp_stage_done

end MainThread

/-! ### What is scheduled earlier -/

section Schedules

variable {R : RunConfig} {n m : Node}

/-- Materializing comes before realizing. -/
theorem later_of_walks (hn : n ∈ R.plan.graph.nodes) (hm : m ∈ R.plan.graph.nodes) :
    Schedule.Later R.schedule (.materialize, n) (.realize, m) := by
  obtain ⟨wave, hwave, hmem⟩ := List.mem_flatten.mp (R.plan.graph.mem_waves_iff.mpr hm)
  obtain ⟨pre, post, hsplit⟩ := List.append_of_mem hwave
  refine ⟨R.plan.graph.contentWaves.map (waveItems .materialize) ++ pre.map (waveItems .realize),
    waveItems .realize wave, post.map (waveItems .realize), ?_, ?_, List.mem_map_of_mem hmem⟩
  · rw [RunConfig.schedule, hsplit]
    simp
  · rw [List.flatten_append, RunConfig.flatten_waveItems]
    exact List.mem_append_left _
      (List.mem_map_of_mem (R.plan.graph.mem_contentWaves_iff.mpr hn))

/-- Realizing goes wave by wave. -/
theorem later_of_wave {pre post : List (List Node)} {wave : List Node}
    (hwaves : R.plan.graph.waves = pre ++ wave :: post) (hn : n ∈ pre.flatten) (hm : m ∈ wave) :
    Schedule.Later R.schedule (.realize, n) (.realize, m) := by
  refine ⟨R.plan.graph.contentWaves.map (waveItems .materialize) ++ pre.map (waveItems .realize),
    waveItems .realize wave, post.map (waveItems .realize), ?_, ?_, List.mem_map_of_mem hm⟩
  · rw [RunConfig.schedule, hwaves]
    simp
  · rw [List.flatten_append, RunConfig.flatten_waveItems, RunConfig.flatten_waveItems]
    exact List.mem_append_right _ (List.mem_map_of_mem hn)

/-- What a node needs is realized earlier. -/
theorem later_of_needs (hm : m ∈ R.plan.graph.nodes)
    (h : Relation.TransGen R.plan.graph.Needs m n) :
    Schedule.Later R.schedule (.realize, n) (.realize, m) := by
  obtain ⟨wave, hwave, hmem⟩ := List.mem_flatten.mp (R.plan.graph.mem_waves_iff.mpr hm)
  obtain ⟨pre, post, hsplit⟩ := List.append_of_mem hwave
  exact later_of_wave hsplit (R.plan.graph.wave_of_transGen hsplit hmem h) hmem

/-- Pools and networks are realized earlier than VMs and sidecars. -/
theorem later_of_fabric (hneeds : R.plan.hyp.NeedsOfVms) (hn : n ∈ R.plan.graph.nodes)
    (hfabric : n.isFabric = true) (hm : m ∈ R.plan.graph.nodes) (hnot : m.isFabric = false) :
    Schedule.Later R.schedule (.realize, n) (.realize, m) := by
  obtain ⟨wave, hwave, hmem⟩ := List.mem_flatten.mp (R.plan.graph.mem_waves_iff.mpr hm)
  obtain ⟨pre, post, hsplit⟩ := List.append_of_mem hwave
  exact later_of_wave hsplit (Plan.wave_of_fabric hneeds hsplit hmem hm hnot hn hfabric) hmem

end Schedules

/-! ### Appending to a ledger -/

theorem filter_concat_of_mem {α : Type} {p : α → Prop} [DecidablePred p] {xs : List α} {x : α}
    (hx : p x) : (xs ++ [x]).filter p = xs.filter p ++ [x] := by
  simp [List.filter_append, hx]

theorem filter_concat_of_not_mem {α : Type} {p : α → Prop} [DecidablePred p] {xs : List α} {x : α}
    (hx : ¬ p x) : (xs ++ [x]).filter p = xs.filter p := by
  simp [List.filter_append, hx]

theorem filter_eq_nil_of_disjoint {xs ys : List Entry} (h : ∀ e ∈ ys, e ∉ xs) :
    xs.filter (· ∈ ys) = [] := by
  rw [List.filter_eq_nil_iff]
  intro x hx
  simpa using fun hy => h x hy hx

theorem pairwise_concat {α : Type} {r : α → α → Prop} {xs : List α} {x : α} (h : xs.Pairwise r)
    (hx : ∀ a ∈ xs, r a x) : (xs ++ [x]).Pairwise r := by
  refine List.pairwise_append.mpr ⟨h, List.pairwise_singleton r x, fun a ha b hb => ?_⟩
  rw [List.mem_singleton.mp hb]
  exact hx a ha

/-- What the order of a ledger respects. -/
structure Sorted (R : RunConfig) (es : List Entry) : Prop where
  own : ∀ i ∈ R.items, (es.filter (· ∈ ownEntries i)).Sublist (ownEntries i)
  infra : (es.filter (· ∈ R.infra)).Sublist R.infra
  later : es.Pairwise fun a b => ∀ i ∈ R.items, ∀ j ∈ R.items, a ∈ ownEntries i →
    b ∈ ownEntries j → ¬ Schedule.Later R.schedule j i
  built : es.Pairwise fun a b => ∀ n, (.materialize, n) ∈ R.items →
    a ∈ ownEntries (.materialize, n) → b ∉ R.infra

namespace Sorted

variable {R : RunConfig} {es es' : List Entry} {i : Item} {e : Entry}

theorem nil : Sorted R [] where
  own := fun _ _ => List.nil_sublist _
  infra := List.nil_sublist _
  later := List.Pairwise.nil
  built := List.Pairwise.nil

/-- Forgetting leaves the order alone. -/
theorem sublist (h : Sorted R es) (hsub : es'.Sublist es) : Sorted R es' where
  own := fun i hi => (hsub.filter _).trans (h.own i hi)
  infra := (hsub.filter _).trans h.infra
  later := h.later.sublist hsub
  built := h.built.sublist hsub

/-- A hook appends what comes next of its own. -/
theorem concat_own (h : Sorted R es) (hR : R.Distinct) (hi : i ∈ R.items)
    (he : e ∈ ownEntries i)
    (hroom : (es.filter (· ∈ ownEntries i) ++ [e]).Sublist (ownEntries i))
    (hlater : ∀ j ∈ R.items, Schedule.Later R.schedule i j → ∀ e ∈ ownEntries j, e ∉ es) :
    Sorted R (es ++ [e]) where
  own := by
    intro j hj
    by_cases hji : j = i
    · subst hji
      rw [filter_concat_of_mem he]
      exact hroom
    · rw [filter_concat_of_not_mem fun hej => hji (hR.owner_unique hj hi hej he)]
      exact h.own j hj
  infra := by
    rw [filter_concat_of_not_mem fun hinfra => hR.not_own_of_infra hi hinfra he]
    exact h.infra
  later := by
    refine pairwise_concat h.later fun a ha k hk j hj hak hej hjk => ?_
    obtain rfl := hR.owner_unique hj hi hej he
    exact hlater k hk hjk a hak ha
  built := pairwise_concat h.built fun _ _ _ _ _ hinfra => hR.not_own_of_infra hi hinfra he

/-- The build infrastructure grows by what comes next of it, before anything is built. -/
theorem concat_infra (h : Sorted R es) (hR : R.Distinct) (he : e ∈ R.infra)
    (hroom : (es.filter (· ∈ R.infra) ++ [e]).Sublist R.infra)
    (hunbuilt : ∀ n, (.materialize, n) ∈ R.items → ∀ e ∈ ownEntries (.materialize, n), e ∉ es) :
    Sorted R (es ++ [e]) where
  own := by
    intro j hj
    rw [filter_concat_of_not_mem (hR.not_own_of_infra hj he)]
    exact h.own j hj
  infra := by
    rw [filter_concat_of_mem he]
    exact hroom
  later := pairwise_concat h.later fun _ _ _ _ j hj _ hej => absurd hej (hR.not_own_of_infra hj he)
  built := pairwise_concat h.built fun a ha n hn hown => absurd ha (hunbuilt n hn a hown)

end Sorted

/-! ### What the workers know of the ledger -/

/-- What a worker has recorded, and what it knows of the build infrastructure. -/
structure Working (R : RunConfig) (w : World Sys) (i : Item) (l : Local) (door : Bool) : Prop where
  own : ((R.recorded w).filter (· ∈ ownEntries i)).Sublist l.own
  builds : l.sect.held = true → i.1 = .materialize
  locked : l.sect = .locked → door = true
  down : ∀ made, l.sect = .creating made → w.rest.ctx.buildInfra.active = false
  made : ∀ made, l.sect = .creating made →
    door = true ∧ made = [] ∨ ((R.recorded w).filter (· ∈ R.infra)).Sublist made
  ready : l.ready = true ∨ l.sect = .up → w.rest.ctx.buildInfra.active = true

/-- The order of the ledger, and why it will stay so. -/
structure Orderly (R : RunConfig) (w : World Sys) (stage : Stage) (cur : Option (List Item))
    (ts : Watched) : Prop where
  sorted : Sorted R (R.recorded w)
  mapping : ∀ items, cur = some items → stage ≠ .closed ∧
    (stage = .torn → ∀ i ∈ items, i.1 = .realize)
  idle : stage ≠ .closed → ∀ i ∈ R.items, ts i = .idle → ∀ e ∈ ownEntries i, e ∉ R.recorded w
  worker : ∀ i l door, ts i = .active (l, door) → Working R w i l door
  unbuilt : stage = .building → w.rest.ctx.buildInfra.active = false →
    ∀ n, (.materialize, n) ∈ R.items → ∀ e ∈ ownEntries (.materialize, n), e ∉ R.recorded w

section Steps

variable {P : Process} {R : RunConfig} {w w' : World Sys} {i j : Item} {l l' lj : Local}
  {door door' : Bool} {o : SysOp} {r : Except Err (sysSig.Res o)}

/-- What a call of a hook does to the ledger. -/
theorem hook_step (h : R.Distinct) (hi : i ∈ R.items) (hok : (sysLogic R (some i)).ok o l)
    (hsem : sysSem R.driver o w r w') :
    (R.recorded w').Sublist (R.recorded w) ∨ ∃ kind n planName metadata e,
      o = .recordIntent kind n planName metadata ∧ e.Names R kind n metadata ∧
        l.CanRecord R i e ∧ R.recorded w' = R.recorded w ++ [e] := by
  have hrole : Role R (some i) := by
    rintro j ⟨⟩
    exact hi
  cases recorded_step h hrole hok hsem with
  | same heq => exact .inl (heq ▸ List.Sublist.refl _)
  | @record kind n planName metadata e ho he hmem heq =>
    exact .inr ⟨kind, n, planName, metadata, e, ho, he, LedgerStep.entry h hi hok ho he hmem, heq⟩
  | forget ho heq => exact .inl (heq ▸ List.filter_sublist)

/-- What is appended while the infrastructure is made is of it, else of the hook. -/
theorem Local.CanRecord.cases {e : Entry} (hcan : l.CanRecord R i e) :
    (∃ made, l.sect = .creating made ∧ (made ++ [e]).Sublist R.infra) ∨
      l.sect = .free ∧ (l.own ++ [e]).Sublist (ownEntries i) ∧
        (i.1 = .materialize → l.ready = true) := by
  have hroom := hcan.room
  have hplaced := hcan.placed
  obtain ⟨own, last, gone, sect, ready⟩ := l
  cases sect with
  | free => exact .inr ⟨rfl, hroom, hplaced⟩
  | creating made => exact .inl ⟨made, rfl, hroom⟩
  | locked => exact hplaced.elim
  | up => exact hplaced.elim

theorem mem_of_concat_sublist {xs ys : List Entry} {e : Entry} (h : (xs ++ [e]).Sublist ys) :
    e ∈ ys := h.subset (by simp)

/-- A hook says of the build infrastructure at most that it is up, when it has made all of it. -/
theorem infra_step (hok : (sysLogic R (some i)).ok o l) (hsem : sysSem R.driver o w r w') :
    w'.rest.ctx.buildInfra = w.rest.ctx.buildInfra ∨
      l.sect = .creating R.infra ∧ w'.rest.ctx.buildInfra.active = true := by
  cases ho : o.onMemory with
  | false => exact .inl (by rw [(memory_step hsem ho).1])
  | true =>
    cases o with
    | updateCtx f =>
      rw [hsem.2]
      exact .inl rfl
    | setInfra infra =>
      rw [hsem.2]
      rcases hok.2 with ⟨hrole, -⟩ | ⟨hactive, hsect⟩
      · cases hrole
      · exact .inr ⟨hsect, hactive⟩
    | acquireInfraLock => exact .inl (by rw [hsem.2.2])
    | releaseInfraLock => exact .inl (by rw [hsem.2])
    | _ => cases ho

/-- What is up stays up while hooks run. -/
theorem active_step (hok : (sysLogic R (some i)).ok o l) (hsem : sysSem R.driver o w r w')
    (hup : w.rest.ctx.buildInfra.active = true) : w'.rest.ctx.buildInfra.active = true := by
  rcases infra_step hok hsem with heq | ⟨-, hup'⟩
  · rw [heq]
    exact hup
  · exact hup'

/-- A hook adds to what it has recorded. -/
theorem own_step (hnext : (sysLogic R (some i)).next o l r l') : l.own.Sublist l'.own := by
  cases o with
  | recordIntent kind n planName metadata =>
    obtain ⟨i', e, -, -, -, rfl⟩ := hnext
    obtain ⟨own, last, gone, sect, ready⟩ := l
    cases sect <;> simp [Local.push]
  | readCtx =>
    obtain ⟨c, -, -, rfl⟩ := hnext
    obtain ⟨own, last, gone, sect, ready⟩ := l
    cases sect <;> exact List.Sublist.refl _
  | releaseInfraLock =>
    obtain ⟨-, rfl⟩ := hnext
    obtain ⟨own, last, gone, sect, ready⟩ := l
    cases sect <;> exact List.Sublist.refl _
  | setInfra infra =>
    obtain ⟨-, rfl⟩ := hnext
    exact List.Sublist.refl _
  | acquireInfraLock =>
    obtain ⟨-, rfl⟩ := hnext
    exact List.Sublist.refl _
  | createSwitch =>
    rw [hnext.1]
  | updateCtx =>
    rw [hnext.2]
  | _ =>
    rw [show l' = _ from hnext]

/-- The entries of the hook, after its own call. -/
theorem Working.own_step (hw : Working R w i l door) (h : R.Distinct) (hi : i ∈ R.items)
    (hok : (sysLogic R (some i)).ok o l) (hsem : sysSem R.driver o w r w')
    (hnext : (sysLogic R (some i)).next o l r l') :
    ((R.recorded w').filter (· ∈ ownEntries i)).Sublist l'.own := by
  rcases hook_step h hi hok hsem with hsub | ⟨kind, n, planName, metadata, e, rfl, hnames, hcan, heq⟩
  · exact ((hsub.filter _).trans hw.own).trans (TestRange.own_step hnext)
  · obtain ⟨i', e', hi', hnames', hcan', rfl⟩ := hnext
    cases hi'
    obtain rfl : e' = e := h.name_inj (Local.room_subset hi hcan'.mem) (Local.room_subset hi hcan.mem)
      (hnames'.name.symm.trans hnames.name)
    have hown := hw.own
    rw [heq]
    obtain ⟨own, last, gone, sect, ready⟩ := l
    rcases hcan.cases with ⟨made, hsect, hroom⟩ | ⟨hsect, hroom, -⟩
    · cases hsect
      rw [filter_concat_of_not_mem (h.not_own_of_infra hi (mem_of_concat_sublist hroom))]
      exact hown
    · cases hsect
      rw [filter_concat_of_mem (mem_of_concat_sublist hroom)]
      exact hown.append (List.Sublist.refl _)

/-- What a worker knows after its own call. -/
theorem Working.step (hw : Working R w i l door) (h : R.Distinct) (hi : i ∈ R.items)
    (hok : (sysLogic R (some i)).ok o l)
    (hdoor : (doorLogic i.1.builds (P.records i)).ok o door) (hsem : sysSem R.driver o w r w')
    (hafresh : BuildsAfresh R (.inner o) w r) (hnext : (sysLogic R (some i)).next o l r l')
    (hnextDoor : (doorLogic i.1.builds (P.records i)).next o door r door') :
    Working R w' i l' door' := by
  have hown := hw.own_step h hi hok hsem hnext
  have hstep := hook_step h hi hok hsem
  -- A call that is no intent and leaves the worker where it is.
  have hkeep : o.isIntent = false → w'.rest.ctx.buildInfra = w.rest.ctx.buildInfra →
      l'.sect = l.sect → l'.ready = l.ready → door' = door → Working R w' i l' door' := by
    intro hintent hinfra hsect hready hsame
    have hsub : (R.recorded w').Sublist (R.recorded w) := by
      rcases hstep with hsub | ⟨kind, n, planName, metadata, e, rfl, -⟩
      · exact hsub
      · cases hintent
    refine ⟨hown, ?_, ?_, ?_, ?_, ?_⟩
    · rw [hsect]
      exact hw.builds
    · rw [hsect, hsame]
      exact hw.locked
    · rw [hsect, hinfra]
      exact hw.down
    · rw [hsect, hsame]
      exact fun made hmade => (hw.made made hmade).imp_right ((hsub.filter _).trans ·)
    · rw [hsect, hready, hinfra]
      exact hw.ready
  -- A call after which the infrastructure is not being made.
  have hleave : (l'.sect.held = true → i.1 = .materialize) → (l'.sect = .locked → door' = true) →
      (∀ made, l'.sect ≠ .creating made) →
      (l'.ready = true ∨ l'.sect = .up → w'.rest.ctx.buildInfra.active = true) →
      Working R w' i l' door' := fun hbuilds hlocked hmade hready =>
    ⟨hown, hbuilds, hlocked, fun made heq => absurd heq (hmade made),
      fun made heq => absurd heq (hmade made), hready⟩
  have hstays : w.rest.ctx.buildInfra.active = true → w'.rest.ctx.buildInfra.active = true :=
    active_step hok hsem
  cases o with
  | recordIntent kind n planName metadata =>
    have hmemory := (memory_step hsem rfl).1
    obtain ⟨i', e, hi', hnames, hcan, rfl⟩ := hnext
    cases hi'
    cases hnextDoor
    obtain ⟨own, last, gone, sect, ready⟩ := l
    rcases hcan.cases with ⟨made, hsect, hroom⟩ | ⟨hsect, -⟩
    · cases hsect
      refine ⟨hown, fun _ => hw.builds rfl, (by rintro ⟨⟩), ?_, ?_, ?_⟩
      · rintro - -
        rw [hmemory]
        exact hw.down made rfl
      · rintro - ⟨⟩
        -- What is listed of the infrastructure grows by the entry at most.
        have hgrows : ((R.recorded w').filter (· ∈ R.infra)).Sublist
            ((R.recorded w).filter (· ∈ R.infra) ++ [e]) := by
          rcases hstep with hsub | ⟨_, _, _, _, e', ho, hnames', hcan', heq⟩
          · exact (hsub.filter _).trans (List.sublist_append_left _ _)
          · cases ho
            obtain rfl : e' = e := h.name_inj (Local.room_subset hi hcan'.mem)
              (Local.room_subset hi hcan.mem) (hnames'.name.symm.trans hnames.name)
            rw [heq, filter_concat_of_mem (mem_of_concat_sublist hroom)]
        refine .inr (hgrows.trans ?_)
        rcases hw.made made rfl with ⟨hshut, rfl⟩ | hsub
        -- The first intent behind the door.
        · obtain rfl := hdoor.2 hshut
          rw [filter_eq_nil_of_disjoint (unlisted_recorded h (hafresh rfl))]
        · exact hsub.append (List.Sublist.refl _)
      · rintro (hready | hup)
        · rw [hmemory]
          exact hw.ready (.inl hready)
        · cases hup
    · cases hsect
      refine hleave (by rintro ⟨⟩) (by rintro ⟨⟩) (by rintro made ⟨⟩) ?_
      rintro (hready | hup)
      · exact hstays (hw.ready (.inl hready))
      · cases hup
  | readCtx =>
    obtain ⟨c, hc, -, rfl⟩ := hnext
    obtain rfl : c = w.rest.ctx := by
      have hread := hsem.1
      rw [hc] at hread
      exact Except.ok.inj hread
    have hmemory := (memory_step hsem rfl).1
    cases hnextDoor
    obtain ⟨own, last, gone, sect, ready⟩ := l
    cases sect with
    | locked =>
      have hshut := hw.locked rfl
      cases hactive : w.rest.ctx.buildInfra.active with
      | true =>
        have hup : (Local.read ⟨own, last, gone, .locked, ready⟩ w.rest.ctx).sect = .up := by
          simp [Local.read, hactive]
        exact hleave (fun _ => hw.builds rfl) (by rw [hup]; rintro ⟨⟩)
          (by rw [hup]; rintro made ⟨⟩) fun _ => hstays hactive
      | false =>
        refine ⟨hown, fun _ => hw.builds rfl, fun _ => hshut, fun _ _ => ?_, ?_, ?_⟩
        · rw [hmemory]
          exact hactive
        · intro made hmade
          simp only [Local.read, hactive, Bool.false_eq_true, if_false] at hmade
          cases hmade
          exact .inl ⟨hshut, rfl⟩
        · rintro (hready | hup)
          · exact hstays (hw.ready (.inl hready))
          · simp [Local.read, hactive] at hup
    | _ => exact hkeep rfl (by rw [hmemory]) rfl rfl rfl
  | setInfra infra =>
    obtain ⟨-, rfl⟩ := hnext
    have hmay := hok.2
    refine hleave (fun _ => hw.builds ?_) (by rintro ⟨⟩) (by rintro made ⟨⟩) fun _ => ?_
    · rcases hmay with ⟨hrole, -⟩ | ⟨-, hsect⟩
      · cases hrole
      · rw [hsect]
        rfl
    · rcases hmay with ⟨hrole, -⟩ | ⟨hactive, -⟩
      · cases hrole
      · rw [hsem.2]
        exact hactive
  | acquireInfraLock =>
    obtain ⟨-, rfl⟩ := hnext
    refine hleave (fun _ => ?_) (fun _ => hnextDoor) (by rintro made ⟨⟩) ?_
    · have hbuilds : i.1.builds = true := hdoor
      cases hwalk : i.1 with
      | materialize => rfl
      | realize => rw [hwalk] at hbuilds; cases hbuilds
    · rintro (hready | hup)
      · exact hstays (hw.ready (.inl hready))
      · cases hup
  | releaseInfraLock =>
    obtain ⟨-, rfl⟩ := hnext
    have hready := hw.ready
    obtain ⟨own, last, gone, sect, ready⟩ := l
    cases sect with
    | up => exact hleave (by rintro ⟨⟩) (by rintro ⟨⟩) (by rintro made ⟨⟩) fun _ => hstays (hready (.inr rfl))
    | _ =>
      refine hleave (by rintro ⟨⟩) (by rintro ⟨⟩) (by rintro made ⟨⟩) ?_
      rintro (hr | hup)
      · exact hstays (hready (.inl hr))
      · cases hup
  | updateCtx =>
    exact hkeep rfl (by rw [hsem.2]) (by rw [hnext.2]) (by rw [hnext.2]) hnextDoor
  | createSwitch =>
    exact hkeep rfl (by rw [(memory_step hsem rfl).1]) (by rw [hnext.1]) (by rw [hnext.1]) hnextDoor
  | _ =>
    have hsame := show l' = _ from hnext
    exact hkeep rfl (by rw [(memory_step hsem rfl).1]) (by rw [hsame]) (by rw [hsame]) hnextDoor

/-- What another worker knows. -/
theorem Working.other (hw : Working R w j lj door) (h : R.Distinct) (hji : j ≠ i)
    (hi : i ∈ R.items) (hj : j ∈ R.items) (halone : lj.sect.held = true → l.sect.held = false)
    (hok : (sysLogic R (some i)).ok o l) (hsem : sysSem R.driver o w r w') :
    Working R w' j lj door := by
  -- While another makes the infrastructure, the hook records its own.
  have hinfra : lj.sect.held = true →
      w'.rest.ctx.buildInfra = w.rest.ctx.buildInfra ∧
        ((R.recorded w').filter (· ∈ R.infra)).Sublist ((R.recorded w).filter (· ∈ R.infra)) := by
    intro hheld
    have hfree := halone hheld
    constructor
    · rcases infra_step hok hsem with heq | ⟨hsect, -⟩
      · exact heq
      · rw [hsect] at hfree
        cases hfree
    · rcases hook_step h hi hok hsem with hsub | ⟨_, _, _, _, e, -, -, hcan, heq⟩
      · exact hsub.filter _
      · rcases hcan.cases with ⟨made, hsect, -⟩ | ⟨-, hroom, -⟩
        · rw [hsect] at hfree
          cases hfree
        · rw [heq, filter_concat_of_not_mem fun hmem =>
            h.not_own_of_infra hi hmem (mem_of_concat_sublist hroom)]
  refine ⟨?_, hw.builds, hw.locked, fun made hmade => ?_, fun made hmade => ?_,
    fun hready => active_step hok hsem (hw.ready hready)⟩
  · rcases hook_step h hi hok hsem with hsub | ⟨_, _, _, _, e, -, -, hcan, heq⟩
    · exact (hsub.filter _).trans hw.own
    · have hnot : e ∉ ownEntries j := by
        intro hown
        rcases hcan.cases with ⟨made, -, hroom⟩ | ⟨-, hroom, -⟩
        · exact h.not_own_of_infra hj (mem_of_concat_sublist hroom) hown
        · exact hji (h.owner_unique hj hi hown (mem_of_concat_sublist hroom))
      rw [heq, filter_concat_of_not_mem hnot]
      exact hw.own
  · rw [(hinfra (by rw [hmade]; rfl)).1]
    exact hw.down made hmade
  · refine (hw.made made hmade).imp_right fun hsub => ?_
    exact (hinfra (by rw [hmade]; rfl)).2.trans hsub

end Steps

/-! ### The invariant is kept -/

section Keeping

variable {P : Process} {R : RunConfig} {w w' : World Sys} {m : MainLocal} {stage stage' : Stage}
  {cur : Option (List Item)} {ts : Watched} {items : List Item} {i : Item} {l l' : Local}
  {door door' : Bool}

theorem Watched.workers_idle (h : ts.workers i = .idle) : ts i = .idle := Ghost.map_eq_idle.mp h

/-- The invariant, with one worker moved that is not idle any more. -/
theorem Orderly.update {g : Ghost (Local × Bool) Err} (ho : Orderly R w stage cur ts)
    (hg : g ≠ .idle) (hself : ∀ l door, g = .active (l, door) → Working R w i l door) :
    Orderly R w stage cur (Function.update ts i g) := by
  refine { ho with idle := fun hopen j hj hidle => ?_, worker := fun j l door hact => ?_ }
  · by_cases hji : j = i
    · subst hji
      rw [Function.update_self] at hidle
      exact absurd hidle hg
    · rw [Function.update_of_ne hji] at hidle
      exact ho.idle hopen j hj hidle
  · by_cases hji : j = i
    · subst hji
      rw [Function.update_self] at hact
      exact hself l door hact
    · rw [Function.update_of_ne hji] at hact
      exact ho.worker j l door hact

/-- A hook that starts has recorded nothing. -/
theorem Orderly.start (ho : Orderly R w stage (some items) ts) (hi : i ∈ R.items)
    (hidle : ts i = .idle) :
    Orderly R w stage (some items) (Function.update ts i (.active (Local.init, false))) := by
  refine ho.update (by rintro ⟨⟩) ?_
  rintro l door ⟨⟩
  refine ⟨?_, (by rintro ⟨⟩), (by rintro ⟨⟩), (by rintro made ⟨⟩), (by rintro made ⟨⟩),
    by rintro (⟨⟨⟩⟩ | ⟨⟨⟩⟩)⟩
  rw [filter_eq_nil_of_disjoint (ho.idle (ho.mapping items rfl).1 i hi hidle)]
  exact List.nil_sublist _

/-- A call of a hook. -/
theorem Orderly.task_inner (h : R.Distinct) {o : SysOp} {r : Except Err (sysSig.Res o)}
    (hk : Kept R w m (some items) ts.workers) (ho : Orderly R w stage (some items) ts)
    (hi : i ∈ items) (hact : ts i = .active (l, door)) (hok : (sysLogic R (some i)).ok o l)
    (hdoor : (doorLogic i.1.builds (P.records i)).ok o door) (hsem : sysSem R.driver o w r w')
    (hafresh : BuildsAfresh R (.inner o) w r) (hnext : (sysLogic R (some i)).next o l r l')
    (hnextDoor : (doorLogic i.1.builds (P.records i)).next o door r door') :
    Orderly R w' stage (some items) (Function.update ts i (.active (l', door'))) := by
  have hacti : ts.workers i = .active l := Watched.workers_active hact
  have hitem := (hk.thread i l hacti).item
  have hw := ho.worker i l door hact
  obtain ⟨hopen, htorn⟩ := ho.mapping items rfl
  have hstep := hook_step h hitem hok hsem
  refine ⟨?_, ho.mapping, fun _ j hj hidle e he => ?_, fun j lj doorj hj => ?_, ?_⟩
  · rcases hstep with hsub | ⟨kind, n, planName, metadata, e, rfl, -, hcan, heq⟩
    · exact ho.sorted.sublist hsub
    rw [heq]
    rcases hcan.cases with ⟨made, hsect, hroom⟩ | ⟨-, hroom, -⟩
    · -- What is made is under the lock, in the build walk, before anything is built.
      have hwalk := hw.builds (by rw [hsect]; rfl)
      have hbuilding : stage = .building := by
        cases stage with
        | building => rfl
        | torn => rw [htorn rfl i hi] at hwalk; cases hwalk
        | closed => exact absurd rfl hopen
      refine ho.sorted.concat_infra h (mem_of_concat_sublist hroom) ?_
        (ho.unbuilt hbuilding (hw.down made hsect))
      rcases hw.made made hsect with ⟨hshut, rfl⟩ | hsub
      · obtain rfl := hdoor.2 hshut
        rw [filter_eq_nil_of_disjoint (unlisted_recorded h (hafresh rfl))]
        exact hroom
      · exact (hsub.append (List.Sublist.refl _)).trans hroom
    · refine ho.sorted.concat_own h hitem (mem_of_concat_sublist hroom)
        ((hw.own.append (List.Sublist.refl _)).trans hroom) fun j hj hlater => ?_
      -- What is scheduled later has not started.
      exact ho.idle hopen j hj
        (Watched.workers_idle (hk.progress.idle_of_later R.nodup_schedule hi hlater))
  · have hji : j ≠ i := by
      rintro rfl
      rw [Function.update_self] at hidle
      cases hidle
    rw [Function.update_of_ne hji] at hidle
    have hnot := ho.idle hopen j hj hidle
    rcases hstep with hsub | ⟨kind, n, planName, metadata, e', -, -, hcan, heq⟩
    · exact fun hmem => hnot e he (hsub.subset hmem)
    · rw [heq]
      intro hmem
      rcases List.mem_append.mp hmem with hmem | hmem
      · exact hnot e he hmem
      rw [List.mem_singleton.mp hmem] at he
      rcases hcan.cases with ⟨made, -, hroom⟩ | ⟨-, hroom, -⟩
      · exact h.not_own_of_infra hj (mem_of_concat_sublist hroom) he
      · exact hji (h.owner_unique hj hitem he (mem_of_concat_sublist hroom))
  · by_cases hji : j = i
    · subst hji
      rw [Function.update_self] at hj
      cases hj
      exact hw.step h hitem hok hdoor hsem hafresh hnext hnextDoor
    · rw [Function.update_of_ne hji] at hj
      have hactj : ts.workers j = .active lj := Watched.workers_active hj
      refine (ho.worker j lj doorj hj).other h hji hitem (hk.thread j lj hactj).item ?_ hok hsem
      intro hheld
      by_contra hheld'
      rw [Bool.not_eq_false] at hheld'
      exact hji (hk.alone j i lj l hactj hacti hheld hheld')
  · intro hbuilding hdown n hn e he
    have hwasDown : w.rest.ctx.buildInfra.active = false := by
      by_contra hup
      rw [Bool.not_eq_false] at hup
      rw [active_step hok hsem hup] at hdown
      cases hdown
    have hnot := ho.unbuilt hbuilding hwasDown n hn e he
    rcases hstep with hsub | ⟨kind, n', planName, metadata, e', -, -, hcan, heq⟩
    · exact fun hmem => hnot (hsub.subset hmem)
    · rw [heq]
      intro hmem
      rcases List.mem_append.mp hmem with hmem | hmem
      · exact hnot hmem
      rw [List.mem_singleton.mp hmem] at he
      rcases hcan.cases with ⟨made, -, hroom⟩ | ⟨-, hroom, hready⟩
      · exact h.not_own_of_infra hn (mem_of_concat_sublist hroom) he
      · -- Who builds has seen the infrastructure up.
        obtain rfl := h.owner_unique hn hitem he (mem_of_concat_sublist hroom)
        rw [hw.ready (.inl (hready rfl))] at hwasDown
        cases hwasDown

/-- A call of a worker that is not one of the hook's. -/
theorem Orderly.task_outer {o : RunOp SysOp} {r : Except Err ((runSig sysSig).Res o)}
    (ho : Orderly R w stage cur ts) (hact : ts i = .active (l, door)) (houter : ∀ x, o ≠ .inner x)
    (hok : (taskLogic R i).ok o l) (hsem : runSem (sysInner R.driver) o w r w') :
    Orderly R w' stage cur (Function.update ts i (.active (l, door))) := by
  rw [Discipline.update_eq_self_of_eq hact]
  obtain ⟨hrest, hres | ⟨rfl, -⟩⟩ := runSem_step hsem houter
  · have hrecorded : R.recorded w' = R.recorded w := by
      rw [RunConfig.recorded, hres, RunConfig.recorded]
    refine ⟨hrecorded ▸ ho.sorted, ho.mapping, hrecorded ▸ ho.idle, fun j lj doorj hj => ?_, ?_⟩
    · have hw := ho.worker j lj doorj hj
      exact ⟨hrecorded ▸ hw.own, hw.builds, hw.locked, hrest ▸ hw.down, hrecorded ▸ hw.made,
        hrest ▸ hw.ready⟩
    · rw [hrecorded, hrest]
      exact ho.unbuilt
  · exact hok.elim

/-- The main thread appends nothing. -/
theorem main_sublist (h : R.Distinct) {o : RunOp SysOp} {r : Except Err ((runSig sysSig).Res o)}
    (hok : (mainLogic R).ok (.inl o) m) (hsem : runSem (sysInner R.driver) o w r w') :
    (R.recorded w').Sublist (R.recorded w) := by
  by_cases houter : ∀ x, o ≠ .inner x
  · obtain ⟨-, hres | ⟨-, hledger⟩⟩ := runSem_step hsem houter
    · rw [RunConfig.recorded, hres]
      exact List.Sublist.refl _
    · rw [RunConfig.recorded, World.resources, hledger]
      exact List.nil_sublist _
  · obtain ⟨x, rfl⟩ := not_forall_not.mp houter
    have hrole : Role R none := by rintro i ⟨⟩
    cases recorded_step h hrole hok hsem with
    | same heq =>
      rw [heq]
    | record hx =>
      subst hx
      obtain ⟨i, e, hi, -⟩ := hok
      cases hi
    | forget hx heq =>
      rw [heq]
      exact List.filter_sublist

/-- Only setting it changes what is known of the build infrastructure. -/
theorem main_infra {o : RunOp SysOp} {r : Except Err ((runSig sysSig).Res o)}
    (hsem : runSem (sysInner R.driver) o w r w') (hset : ∀ infra, o ≠ .inner (.setInfra infra)) :
    w'.rest.ctx.buildInfra = w.rest.ctx.buildInfra := by
  by_cases houter : ∀ x, o ≠ .inner x
  · rw [(runSem_step hsem houter).1]
  · obtain ⟨x, rfl⟩ := not_forall_not.mp houter
    have hinner : sysSem R.driver x w r w' := hsem
    cases hx : x.onMemory with
    | false => rw [(memory_step hinner hx).1]
    | true =>
      cases x with
      | updateCtx f => rw [hinner.2]
      | setInfra infra => exact absurd rfl (hset infra)
      | acquireInfraLock => rw [hinner.2.2]
      | releaseInfraLock => rw [hinner.2]
      | _ => cases hx

/-- A call of the main thread, which is alone. -/
theorem Orderly.main_op (h : R.Distinct) {o : RunOp SysOp} {r : Except Err ((runSig sysSig).Res o)}
    (ho : Orderly R w stage none ts) (hquiet : ∀ i x, ts i ≠ .active x)
    (hok : (mainLogic R).ok (.inl o) m) (hsem : runSem (sysInner R.driver) o w r w')
    (hnext : stageLogic.next (.inl o) stage r stage') : Orderly R w' stage' none ts := by
  have hsub := main_sublist h hok hsem
  by_cases hset : ∃ infra, o = .inner (.setInfra infra)
  · obtain ⟨infra, rfl⟩ := hset
    obtain rfl : stage' = stage.set := hnext
    refine ⟨ho.sorted.sublist hsub, (by rintro items ⟨⟩), fun hopen i hi hidle e he hmem => ?_,
      fun i l door hact => absurd hact (hquiet i _), ?_⟩
    · refine ho.idle (fun hclosed => hopen ?_) i hi hidle e he (hsub.subset hmem)
      rw [hclosed]
      rfl
    · intro hbuilding
      cases stage <;> cases hbuilding
  · have hinfra := main_infra hsem fun infra heq => hset ⟨infra, heq⟩
    obtain rfl : stage' = stage := by
      cases o with
      | inner o =>
        cases o with
        | setInfra infra => exact absurd ⟨infra, rfl⟩ hset
        | _ => exact hnext
      | _ => exact hnext
    refine ⟨ho.sorted.sublist hsub, (by rintro items ⟨⟩), fun hopen i hi hidle e he hmem => ?_,
      fun i l door hact => absurd hact (hquiet i _), ?_⟩
    · exact ho.idle hopen i hi hidle e he (hsub.subset hmem)
    · rw [hinfra]
      exact fun hbuilding hdown n hn e he hmem =>
        ho.unbuilt hbuilding hdown n hn e he (hsub.subset hmem)

end Keeping

/-- The processes whose main thread follows the rule of the stages as well. -/
def stagedDiscipline {R : RunConfig} (h : R.Distinct) {P : Process} (hP : P.toRunConfig = R)
    (jobs : Option ℤ) : Discipline (restricted P jobs (BuildsAfresh R) fun _ _ => True)
      (MainLocal × Stage) (Local × Bool) :=
  (watchedDiscipline h hP jobs (BuildsAfresh R) fun _ _ => True).watchMain stageLogic
    stageLogic_next

/-- The order is kept on top of the invariant of every process. -/
def orderlyExtra {R : RunConfig} (h : R.Distinct) {P : Process} (hP : P.toRunConfig = R)
    (jobs : Option ℤ) : (stagedDiscipline h hP jobs).Extra where
  Inv := fun w _ m cur ts => Orderly R w m.2 cur ts
  main_op := by
    subst hP
    intro w log m ts o r w' m' hk ho hquiet hok hsem hnext
    exact ho.main_op h hquiet hok.1 hsem.1 hnext.2
  fork := by
    intro w log m ts items hk ho hok
    refine { ho with mapping := ?_ }
    rintro items' ⟨⟩
    exact hok.2
  start := by
    intro w log m ts items i hk ho hi hidle _
    have hkept : Kept R w m.1 (some items) (Watched.workers ts) := hk
    exact ho.start (RunConfig.mem_schedule.mp (hkept.progress.mem_sched hi)) hidle
  task_op := by
    subst hP
    rintro w log m ts items i ⟨l, door⟩ o r w' ⟨l', door'⟩ hk ho hi hact hok hsem hnext
    cases o with
    | inner o => exact ho.task_inner h hk hi hact hok.1 hok.2 hsem.1 hsem.2 hnext.1 hnext.2
    | returned walk node =>
      obtain ⟨rfl, rfl⟩ : l' = l ∧ door' = door := hnext
      exact ho.task_outer (o := .returned walk node) hact (by rintro x ⟨⟩) hok.1 hsem.1
    | mark walk node =>
      obtain ⟨rfl, rfl⟩ : l' = l ∧ door' = door := hnext
      exact ho.task_outer (o := .mark walk node) hact (by rintro x ⟨⟩) hok.1 hsem.1
    | _ => exact hok.1.elim
  finish := by
    intro w log m ts items i l r hk ho hi hact hret hexc
    exact ho.update (by rintro ⟨⟩) (by rintro l door ⟨⟩)
  tick := fun _ ho => ho
  join := by
    intro w log m ts items r m' hk ho hok hquiet hret hnext
    have hstage : m'.2 = m.2 := hnext.2
    rw [hstage]
    exact { ho with mapping := by rintro items' ⟨⟩ }

/-! ### Histories -/

/-- A process of a run that is not resumed: the first one, or one that cleans up.  Whenever the
build infrastructure is begun, nothing of it is listed. -/
def FirstBoots (R : RunConfig) (w : World Sys)
    (b : Boot (runSig sysSig) Item Err (World Sys) Unit) : Prop :=
  ∃ P jobs cmd w₀, Boots R w P jobs cmd w₀ ∧ (w.ledger = none ∨ cmd = .cleanup) ∧
    b = ⟨restricted P jobs (BuildsAfresh R) fun _ _ => True, w₀, cmd.main P⟩

/-- The histories of a run that is not resumed. -/
abbrev FirstHistory (R : RunConfig) := History Untouched (FirstBoots R)

/-- What holds between processes. -/
structure InOrder (R : RunConfig) (w : World Sys) : Prop where
  fits : ReadsEntries R w.resources
  sorted : Sorted R (R.recorded w)

theorem inOrder_of_run {R : RunConfig} (h : R.Distinct) {w : World Sys}
    {b : Boot (runSig sysSig) Item Err (World Sys) Unit} (hw : InOrder R w)
    (hb : FirstBoots R w b) {c : Proc (runSig sysSig) Item Err (World Sys) Unit}
    (hrun : b.machine.Run b.world b.main c) : InOrder R c.world := by
  obtain ⟨P, jobs, cmd, w₀, hboots, hfirst, rfl⟩ := hb
  obtain ⟨hP, hres, -, hctx⟩ := hboots.world
  have hrecorded : R.recorded w₀ = R.recorded w := by
    rw [RunConfig.recorded, hres, RunConfig.recorded]
  have hfits₀ : ReadsEntries R w₀.resources := by
    rw [hres]
    exact hw.fits
  have hempty : w.ledger = none → R.recorded w₀ = [] := by
    intro hnone
    rw [hrecorded, RunConfig.recorded, World.resources, hnone]
    rfl
  have hclosed : cmd.stage ≠ .closed → R.recorded w₀ = [] := by
    intro hopen
    rcases hfirst with hnone | rfl
    · exact hempty hnone
    · exact absurd rfl hopen
  have horderly : Orderly R w₀ cmd.stage none fun _ => .idle := by
    refine ⟨hrecorded ▸ hw.sorted, (by rintro items ⟨⟩), ?_, (by rintro i l door ⟨⟩), ?_⟩
    · intro hopen i _ _ e _
      rw [hclosed hopen]
      exact List.not_mem_nil
    · intro hbuilding _ n _ e _
      rw [hclosed (by rw [hbuilding]; rintro ⟨⟩)]
      exact List.not_mem_nil
  let D := (stagedDiscipline h hP jobs).and (orderlyExtra h hP jobs)
  have hinv : D.Inv w₀ [] (.boot, cmd.stage) none fun _ => .idle :=
    ⟨Kept.boot hfits₀ hctx, horderly⟩
  have hmain : (cmd.main P).wp D.mainLogic (fun _ _ => True) (fun _ _ => True)
      (.boot, cmd.stage) :=
    Prog.wp_mono (fun _ _ _ => trivial) (fun _ _ _ => trivial)
      (Prog.wp_prod (wp_command hP h cmd past_boot) (wp_stage_command cmd))
  obtain ⟨m, ts, hholds⟩ := D.run hinv hmain hrun
  have hend : Kept R c.world m.1 _ (Watched.workers ts) ∧ Orderly R c.world m.2 _ ts := hholds.inv
  exact ⟨hend.1.fits, hend.2.sorted⟩

end TestRange
