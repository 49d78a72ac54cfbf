/-
The main threads follow the protocol.

* `RunConfig.schedule` — the lists both walks map, one after another;
* `MainLocal`, `mainLogic`, `taskLogic` — what the main thread and the workers know, and
  the rules of their calls;
* `wp_runHook` — a worker; `wp_command` — the main thread of every command.
-/
import TestRange.Lib.Schedule
import TestRange.Orchestrator.Follows

namespace TestRange

/-- A hook of a walk. -/
abbrev Item := Walk × Node

namespace RunConfig

variable (R : RunConfig)

/-- The lists of the two walks. -/
def schedule : List (List Item) :=
  R.plan.graph.contentWaves.map (waveItems .materialize) ++
    R.plan.graph.waves.map (waveItems .realize)

theorem flatten_waveItems (walk : Walk) (waves : List (List Node)) :
    (waves.map (waveItems walk)).flatten = waves.flatten.map fun n => (walk, n) := by
  rw [List.map_flatten]
  rfl

theorem flatten_schedule : R.schedule.flatten =
    (R.plan.graph.contentWaves.flatten.map fun n => (Walk.materialize, n)) ++
      R.plan.graph.waves.flatten.map fun n => (Walk.realize, n) := by
  rw [schedule, List.flatten_append, flatten_waveItems, flatten_waveItems]

theorem nodup_schedule : R.schedule.flatten.Nodup := by
  have hinj : ∀ walk : Walk, Function.Injective fun n : Node => (walk, n) := by
    intro walk n m hnm
    exact (Prod.mk.inj hnm).2
  rw [flatten_schedule]
  refine List.nodup_append'.mpr ⟨R.plan.graph.nodup_contentWaves.map (hinj _),
    R.plan.graph.nodup_waves.map (hinj _), ?_⟩
  intro i hi hi'
  obtain ⟨n, -, rfl⟩ := List.mem_map.mp hi
  obtain ⟨m, -, hm⟩ := List.mem_map.mp hi'
  cases hm

variable {R}

theorem mem_schedule {i : Item} : i ∈ R.schedule.flatten ↔ i ∈ R.items := by
  obtain ⟨walk, n⟩ := i
  rw [flatten_schedule, mem_items, List.mem_append]
  cases walk with
  | materialize =>
    rw [← R.plan.graph.mem_contentWaves_iff]
    simp
  | realize =>
    rw [← R.plan.graph.mem_waves_iff]
    simp

end RunConfig

/-! ### The rules -/

/-- What the main thread knows. -/
structure MainLocal where
  place : Schedule.Place Item
  loc : Local
  /-- The ledger was found empty, or taken to be so. -/
  drained : Bool

/-- The protocol of a worker. -/
def taskLogic (R : RunConfig) (i : Item) : Prog.Logic (runSig sysSig) Err Local where
  ok
    | .inner o, l => (sysLogic R (some i)).ok o l
    | .returned _ _, _ => True
    | .mark _ _, _ => True
    | _, _ => False
  next
    | .inner o, l, r, l' => (sysLogic R (some i)).next o l r l'
    | _, l, _, l' => l' = l

/-- What was read are resources of the run. -/
def ReadsEntries (R : RunConfig) (rs : List Resource) : Prop :=
  ∀ r ∈ rs, ∃ e ∈ R.catalog, r.Fits R e

/-- The protocol of the main thread. -/
def mainLogic (R : RunConfig) : Prog.Logic ((runSig sysSig).withFork Item) Err MainLocal where
  ok
    | .inl (.inner o), m => (sysLogic R none).ok o m.loc
    | .inl .remove, m => m.drained = true
    | .inl (.returned _ _), _ => False
    | .inl (.mark _ _), _ => False
    | .inl _, _ => True
    | .inr items, m => m.loc.sect = .free ∧ ∃ past rest, m.place = .reached past ∧
        R.schedule = past ++ items :: rest
  next
    | .inl (.inner o), m, r, m' => ∃ l', (sysLogic R none).next o m.loc r l' ∧
        m' = { m with loc := l', drained := false }
    | .inl .readResources, m, .ok rs, m' => ReadsEntries R rs ∧
        m' = { m with drained := rs.isEmpty }
    | .inl .readResources, m, .error _, m' => m' = { m with drained := false }
    | .inl .readRemaining, m, .ok rs, m' => ReadsEntries R rs ∧
        m' = { m with drained := rs.isEmpty }
    -- An exception of the last read is taken for an empty ledger.
    | .inl .readRemaining, m, .error _, m' => m' = { m with drained := true }
    | .inl _, m, _, m' => m' = m
    | .inr items, m, .ok _, m' => ∃ past, m.place = .reached past ∧
        m' = ⟨.reached (past ++ [items]), .init, false⟩
    | .inr _, _, .error _, m' => m' = ⟨.stopped, .init, false⟩

section Threads

variable {R : RunConfig} {i : Item} {l : Local} {m : MainLocal}

/-! ### Workers -/

theorem wp_onInner {α : Type} {p : Hook α} {Q : α → Local → Prop} {E : Err → Local → Prop}
    (hp : p.wp (sysLogic R (some i)) Q E l) : (onInner p).wp (taskLogic R i) Q E l := by
  induction p generalizing l with
  | ret a => exact hp
  | raise e => exact hp
  | call o k ih => exact ⟨hp.1, fun r l' hl' => ih r (hp.2 r l' hl')⟩

theorem wp_runHook {hook : Hook Unit} (h : Follows R i hook) :
    (runHook i.1 i.2.name hook).wp (taskLogic R i) (fun _ l => l.sect = .free)
      (fun _ l => l.sect.held = false) Local.init := by
  have hheld : ∀ l : Local, l.sect = .free → l.sect.held = false := by
    intro l hl
    rw [hl]
    rfl
  unfold runHook
  refine Prog.wp_seq (wp_onInner h) fun _ l hl => ?_
  refine Prog.wp_seq (P := fun _ (l : Local) => l.sect = .free)
    (Prog.wp_perform.mpr ⟨trivial, ?_, ?_⟩) fun _ l hl => ?_
  · rintro a l' rfl
    exact hl
  · rintro err l' rfl
    exact hheld _ hl
  · refine Prog.wp_perform.mpr ⟨trivial, ?_, ?_⟩
    · rintro a l' rfl
      exact hl
    · rintro err l' rfl
      exact hheld _ hl

/-! ### The teardown of the build infrastructure -/

/-- A name that belongs to no entry, or to the one whose object it is. -/
def Settled (R : RunConfig) (o : Obj) : Prop := ∀ e ∈ R.catalog, e.name R = o.name → e.obj R = o

theorem settled_of_mem (h : R.Distinct) {e : Entry} {o : Obj} (he : e ∈ R.catalog)
    (ho : e.obj R = o) : Settled R o := by
  subst ho
  intro e' he' hname
  rw [h.name_inj he' he hname]

theorem wp_removeAndForget {o : Obj} (ho : Settled R o) :
    (removeAndForget o).wp (sysLogic R none) (fun _ l' => l'.sect = l.sect)
      (fun _ l' => l'.sect = l.sect) l := by
  unfold removeAndForget
  refine Prog.wp_seq (P := fun _ l' => l'.gone = some o ∧ l'.sect = l.sect)
    (Prog.wp_perform.mpr ⟨?_, ?_, ?_⟩) ?_
  · intro j hj
    cases hj
  · rintro a l' rfl
    exact ⟨rfl, rfl⟩
  · rintro err l' rfl
    rfl
  · rintro - l' ⟨hgone, hsect⟩
    refine Prog.wp_perform.mpr ⟨?_, ?_, ?_⟩
    · intro e he hname
      rw [ho e he hname]
      exact hgone
    · rintro a l₁ rfl
      exact hsect
    · rintro err l₁ rfl
      exact hsect

theorem read_of_up {c : Ctx} (hl : l.sect = .up) : l.read c = l := by
  simp [Local.read, hl]

theorem wp_popThen {get : Ctx → Option String} {erase : Ctx → Ctx} {f : String → Hook Unit}
    (hl : l.sect = .up) (herase : ∀ c, c.Sound R → (erase c).Sound R)
    (hf : ∀ c b, c.Sound R → get c = some b → (f b).wp (sysLogic R none)
      (fun _ l' => l'.sect = .up) (fun _ l' => l'.sect = .up) l) :
    (popThen get erase f).wp (sysLogic R none) (fun _ l' => l'.sect = .up)
      (fun _ l' => l'.sect = .up) l := by
  unfold popThen
  refine Prog.wp_seq (P := fun c l' => c.Sound R ∧ l' = l)
    (wp_readCtx fun c hc => ⟨hc, read_of_up hl⟩) ?_
  rintro c l' ⟨hc, rfl⟩
  refine Prog.wp_seq (wp_updateCtx (Q := fun _ l₁ => l₁ = l') herase rfl) ?_
  rintro - l₁ rfl
  split
  case h_1 b hb => exact hf c b hc hb
  case h_2 => exact hl

theorem wp_destroyBuildInfra (h : R.Distinct) (hl : l.sect = .up) :
    (destroyBuildInfra R.buildSwitch R.buildHome).wp (sysLogic R none) (fun _ l' => l'.sect = .up)
      (fun _ l' => l'.sect = .up) l := by
  have hremove : ∀ {o : Obj}, Settled R o → ∀ {l : Local}, l.sect = .up →
      (removeAndForget o).wp (sysLogic R none) (fun _ l' => l'.sect = .up)
        (fun _ l' => l'.sect = .up) l := by
    intro o ho l hl
    refine Prog.wp_mono ?_ ?_ (wp_removeAndForget ho)
    · exact fun _ l' hl' => hl'.trans hl
    · exact fun _ l' hl' => hl'.trans hl
  -- A network of the dictionaries is one of the run, or an uplink, which is not recorded.
  have hnetwork : ∀ {c : Ctx} {n b : String}, c.Sound R → c.networkBackends n = some b →
      Settled R (.network b) := by
    intro c n b hc hb
    rcases hc.network n b hb with ⟨e, he, ho⟩ | ⟨sw, rfl⟩
    · exact settled_of_mem h he ho
    · intro e he hname
      exact absurd hname (h.uplink sw e he)
  unfold destroyBuildInfra
  refine Prog.wp_seq (wp_popThen hl (fun c hc => hc.setSidecar (v := none) (by rintro b ⟨⟩) _)
    fun c b hc hb => ?_) fun _ l hl => ?_
  · obtain ⟨e, he, ho⟩ := hc.sidecar _ b hb
    exact hremove (settled_of_mem h he ho) hl
  refine Prog.wp_seq (P := fun _ (l : Local) => l.sect = .up)
    (Prog.wp_forM (fun _ l => l.sect = .up) ?_ (fun _ h => h) hl) fun _ l hl => ?_
  · intro _ net _ _ l hl
    exact wp_popThen hl (fun c hc => hc.setNetwork (v := none) (by rintro b ⟨⟩) _)
      fun c b hc hb => hremove (hnetwork hc hb) hl
  refine Prog.wp_seq (wp_popThen hl (fun c hc => hc.setNetwork (v := none) (by rintro b ⟨⟩) _)
    fun _ _ _ _ => hl) fun _ l hl => ?_
  refine Prog.wp_seq (wp_popThen hl (fun c hc => hc.setSwitch (v := none) (by rintro b ⟨⟩) _)
    fun c b hc hb => ?_) fun _ l hl => ?_
  · obtain ⟨e, he, ho⟩ := hc.switch _ b hb
    exact hremove (settled_of_mem h he ho) hl
  have hpool : Entry.buildPool ∈ R.catalog := RunConfig.infra_subset List.mem_cons_self
  refine Prog.wp_seq (hremove (settled_of_mem h hpool rfl) hl) fun _ l hl => ?_
  refine Prog.wp_perform.mpr ⟨⟨(by rintro ⟨⟩), .inl ⟨rfl, rfl⟩⟩, ?_, ?_⟩
  · rintro a l' ⟨-, rfl⟩
    rfl
  · rintro err l' ⟨hr, -⟩
    cases hr

theorem wp_teardownBuildInfra (h : R.Distinct) (hl : l.sect = .free) :
    teardownBuildInfra.wp (sysLogic R none) (fun _ l' => l'.sect = .free) (Fails false) l := by
  refine wp_withInfraLock hl ?_
  refine Prog.wp_seq (P := fun c l' => c.Sound R ∧
    l' = Local.read { l with sect := .locked, last := none } c) (wp_readCtx fun c hc => ⟨hc, rfl⟩) ?_
  rintro c l' ⟨hc, rfl⟩
  have hreleased : ∀ l' : Local, l'.released.sect = .free := by
    intro l'
    unfold Local.released
    split <;> rfl
  by_cases hactive : c.buildInfra.active = true
  · have hup : (Local.read { l with sect := .locked, last := none } c).sect = .up := by
      simp [Local.read, hactive]
    rw [if_pos hactive, (hc.infra hactive).1, (hc.infra hactive).2]
    refine Prog.wp_mono (fun _ l' hl' => ?_) (fun _ l' hl' => ?_) (wp_destroyBuildInfra h hup)
    · exact ⟨by rw [hl']; rfl, hreleased l'⟩
    · rw [Fails, hl']
      rfl
  · rw [if_neg hactive]
    exact ⟨by simp [Local.read, hactive, Section.held], hreleased _⟩

/-! ### The main thread by itself -/

variable (R) in
/-- The protocol of the main thread, for its own calls. -/
def runLogic : Prog.Logic (runSig sysSig) Err MainLocal where
  ok := fun o => (mainLogic R).ok (.inl o)
  next := fun o => (mainLogic R).next (.inl o)

theorem wp_lift {α : Type} {p : Prog (runSig sysSig) Err α} {Q : α → MainLocal → Prop}
    {E : Err → MainLocal → Prop} (hp : p.wp (runLogic R) Q E m) :
    (MainProg.lift p : MainProg (runSig sysSig) Item Err α).wp (mainLogic R) Q E m := by
  induction p generalizing m with
  | ret a => exact hp
  | raise e => exact hp
  | call o k ih => exact ⟨hp.1, fun r m' hm' => ih r (hp.2 r m' hm')⟩

/-- The calls of a hook, made by the main thread. -/
theorem wp_inner {α : Type} {p : Hook α} {place : Schedule.Place Item} {Q : α → MainLocal → Prop}
    {E : Err → MainLocal → Prop} (hp : p.wp (sysLogic R none) (fun a l => Q a ⟨place, l, false⟩)
      (fun e l => E e ⟨place, l, false⟩) l) :
    (onInner p).wp (runLogic R) Q E ⟨place, l, false⟩ := by
  induction p generalizing l with
  | ret a => exact hp
  | raise e => exact hp
  | call o k ih =>
    refine ⟨hp.1, ?_⟩
    rintro r m' ⟨l', hl', rfl⟩
    exact ih r (hp.2 r l' hl')

/-- No further demand on an exit. -/
def Anyhow {α : Type} (_ : α) (_ : MainLocal) : Prop := True

theorem wp_setPhase {phase : Phase} {Q : Unit → MainLocal → Prop} {E : Err → MainLocal → Prop}
    (hQ : Q () m) (hE : ∀ e, E e m) : (runOp (.setPhase phase)).wp (runLogic R) Q E m := by
  refine Prog.wp_perform.mpr ⟨trivial, ?_, ?_⟩
  · rintro a m' rfl
    exact hQ
  · rintro e m' rfl
    exact hE e

theorem wp_main_work : (onInner (sysOp .work)).wp (runLogic R) Anyhow Anyhow m := by
  refine ⟨trivial, ?_⟩
  rintro (e | a) m' -
  · exact trivial
  · exact trivial

/-- A recorded resource of the run is destroyed before it is forgotten. -/
theorem wp_destroyAndForget (h : R.Distinct) {r : Resource} (hr : ∃ e ∈ R.catalog, r.Fits R e) :
    (destroyAndForget r).wp (runLogic R) Anyhow Anyhow m := by
  obtain ⟨e, he, hfits⟩ := hr
  have htarget : (destroyTarget r.kind r.backendName r.metadata).toOption = some (e.obj R) := by
    have := hfits.target
    rw [Resource.target] at this
    rw [this]
    rfl
  unfold destroyAndForget
  refine Prog.wp_seq (P := fun _ m' => m'.loc.gone = some (e.obj R)) (Prog.wp_perform.mpr ⟨rfl, ?_, ?_⟩) ?_
  · rintro a m' ⟨l', rfl, rfl⟩
    exact htarget
  · exact fun _ _ _ => trivial
  · intro _ m' hgone
    refine Prog.wp_perform.mpr ⟨?_, (fun _ _ _ => trivial), fun _ _ _ => trivial⟩
    intro e' he' hname
    rw [h.name_inj he' he (hname.trans hfits.name)]
    exact hgone

theorem wp_finishTeardown (hm : m.drained = true) :
    finishTeardown.wp (runLogic R) Anyhow Anyhow m := by
  unfold finishTeardown
  refine Prog.wp_seq (wp_setPhase (Q := fun _ m' => m' = m) rfl fun _ => trivial) ?_
  rintro - m' rfl
  refine Prog.wp_seq (P := fun _ m₁ => m₁ = m') (Prog.wp_perform.mpr ⟨trivial, ?_, fun _ _ _ => trivial⟩) ?_
  · rintro a m₁ rfl
    rfl
  · rintro - m₁ rfl
    exact Prog.wp_perform.mpr ⟨hm, (fun _ _ _ => trivial), fun _ _ _ => trivial⟩

theorem wp_teardown (h : R.Distinct) : teardown.wp (runLogic R) Anyhow Anyhow m := by
  unfold teardown
  refine Prog.wp_seq (P := Anyhow) ?_ fun _ m _ => ?_
  · exact (congrFun Prog.wp_ignore _).mpr (wp_setPhase trivial fun _ => trivial)
  refine Prog.wp_seq (P := fun r _ => ∀ rs, r = .ok rs → ReadsEntries R rs) ?_ ?_
  · refine (congrFun Prog.wp_attempt _).mpr (Prog.wp_perform.mpr ⟨trivial, ?_, ?_⟩)
    · rintro rs m' ⟨hrs, -⟩ rs' ⟨⟩
      exact hrs
    · rintro e m' - rs' ⟨⟩
  rintro (e | rs) m' hrs
  · exact trivial
  · refine Prog.wp_seq (P := Anyhow) (Prog.wp_forM Anyhow ?_ (fun _ _ => trivial) trivial)
      fun _ m _ => ?_
    · intro before r after hsplit m _
      refine (congrFun Prog.wp_ignore _).mpr (wp_destroyAndForget h (hrs rs rfl r ?_))
      rw [← List.mem_reverse, hsplit]
      simp
    -- What the last read answers, or is taken to answer.
    refine Prog.wp_seq (P := fun r m' => (∀ rs, r = .ok rs → m'.drained = rs.isEmpty) ∧
      ∀ e, r = .error e → m'.drained = true) ?_ ?_
    · refine (congrFun Prog.wp_attempt _).mpr (Prog.wp_perform.mpr ⟨trivial, ?_, ?_⟩)
      · rintro rs m' ⟨-, rfl⟩
        refine ⟨?_, by rintro e ⟨⟩⟩
        rintro rs' ⟨⟩
        rfl
      · rintro e m' rfl
        exact ⟨(by rintro rs ⟨⟩), fun _ _ => rfl⟩
    · rintro (e | rem) m' ⟨hok, herr⟩
      · exact (congrFun Prog.wp_ignore _).mpr (wp_finishTeardown (herr e rfl))
      · dsimp only
        split_ifs with hempty
        · refine (congrFun Prog.wp_ignore _).mpr (wp_finishTeardown ?_)
          rw [hok rem rfl]
          exact hempty
        · exact trivial

theorem wp_cleanupResources (h : R.Distinct) {rs : List Resource} (hrs : ReadsEntries R rs) :
    (cleanupResources rs).wp (runLogic R) Anyhow Anyhow m := by
  induction rs generalizing m with
  | nil => exact trivial
  | cons r rs ih =>
    unfold cleanupResources
    refine Prog.wp_seq (P := Anyhow) ?_ fun _ m _ => ?_
    · exact (congrFun Prog.wp_attempt _).mpr (wp_destroyAndForget h (hrs r List.mem_cons_self))
    · refine Prog.wp_seq (P := Anyhow) (ih fun x hx => hrs x (List.mem_cons_of_mem r hx)) ?_
      exact fun _ _ _ => trivial

theorem wp_cleanupRun (h : R.Distinct) : cleanupRun.wp (runLogic R) Anyhow Anyhow m := by
  -- A read that finds nothing lets `state.json` go.
  have hread : ∀ m, (runOp .readResources).wp (runLogic R)
      (fun rs m' => ReadsEntries R rs ∧ (rs.isEmpty = true → m'.drained = true)) Anyhow m := by
    intro m
    refine Prog.wp_perform.mpr ⟨trivial, ?_, fun _ _ _ => trivial⟩
    rintro rs m' ⟨hrs, rfl⟩
    exact ⟨hrs, fun h => h⟩
  unfold cleanupRun
  refine Prog.wp_seq (hread m) ?_
  rintro rs m ⟨hrs, hempty⟩
  split_ifs with hrsEmpty
  · refine Prog.wp_seq (wp_setPhase (Q := fun _ m' => m' = m) rfl fun _ => trivial) ?_
    rintro - m' rfl
    exact Prog.wp_perform.mpr
      ⟨hempty hrsEmpty, (fun _ _ _ => trivial), fun _ _ _ => trivial⟩
  · refine Prog.wp_seq (P := Anyhow) wp_main_work fun _ m _ => ?_
    refine Prog.wp_seq (P := Anyhow) ?_ fun clean m _ => ?_
    · refine (congrFun Prog.wp_tryFinally _).mpr ?_
      refine Prog.wp_mono (Q := Anyhow) (E := Anyhow) (fun _ m _ => wp_main_work)
        (fun _ m _ => wp_main_work) ?_
      refine Prog.wp_seq (P := Anyhow) (wp_setPhase trivial fun _ => trivial) fun _ m _ => ?_
      exact wp_cleanupResources h fun r hr => hrs r (List.mem_reverse.mp hr)
    · refine Prog.wp_seq (hread m) ?_
      rintro rem m ⟨-, hrem⟩
      split_ifs with hremEmpty hclean
      · refine Prog.wp_seq (wp_setPhase (Q := fun _ m' => m' = m) rfl fun _ => trivial) ?_
        rintro - m' rfl
        exact Prog.wp_perform.mpr
          ⟨hrem hremEmpty, (fun _ _ _ => trivial), fun _ _ _ => trivial⟩
      · refine Prog.wp_seq (wp_setPhase (Q := fun _ m' => m' = m) rfl fun _ => trivial) ?_
        exact fun _ _ _ => trivial
      · exact trivial

/-! ### The walks -/

/-- The main thread between two calls. -/
def AtRest {α : Type} (_ : α) (m : MainLocal) : Prop := m.loc.sect = .free ∧ m.drained = false

/-- The main thread is past some lists. -/
def Past {α : Type} (past : List (List Item)) (a : α) (m : MainLocal) : Prop :=
  m.place = .reached past ∧ AtRest a m

theorem wp_walkWaves {walk : Walk} {waves : List (List Node)} (past rest : List (List Item))
    (hsched : R.schedule = past ++ waves.map (waveItems walk) ++ rest) (hm : Past past () m) :
    (walkWaves walk waves : Main).wp (mainLogic R) (Past (past ++ waves.map (waveItems walk))) AtRest
      m := by
  refine Prog.wp_forM (fun done => Past (past ++ done.map (waveItems walk)) ()) ?_
    (fun _ h => h) (by simpa using hm)
  rintro done wave after rfl m ⟨hplace, hrest⟩
  refine Prog.wp_perform.mpr ⟨⟨hrest.1, past ++ done.map (waveItems walk),
    after.map (waveItems walk) ++ rest, hplace, ?_⟩, ?_, ?_⟩
  · rw [hsched]
    simp
  · rintro a m' ⟨past', hplace', rfl⟩
    rw [hplace] at hplace'
    cases hplace'
    exact ⟨by simp, rfl, rfl⟩
  · rintro e m' rfl
    exact ⟨rfl, rfl⟩

theorem wp_lift_setPhase {phase : Phase} {Q : Unit → MainLocal → Prop}
    {E : Err → MainLocal → Prop} (hQ : Q () m) (hE : ∀ e, E e m) :
    (MainProg.lift (runOp (.setPhase phase)) : Main).wp (mainLogic R) Q E m :=
  wp_lift (wp_setPhase hQ hE)

theorem wp_lift_work {past : List (List Item)} (hm : Past past () m) :
    (MainProg.lift (onInner (sysOp .work)) : Main).wp (mainLogic R) (Past past) AtRest m := by
  obtain ⟨place, l, drained⟩ := m
  obtain ⟨hplace, hl, hdrained⟩ := hm
  cases hdrained
  exact wp_lift (wp_inner (wp_work ⟨hplace, hl, rfl⟩ fun _ => ⟨hl, rfl⟩))

/-- After the build walk, whatever came of it, the build infrastructure is torn down. -/
theorem wp_lift_teardownBuildInfra (h : R.Distinct) {Q : Unit → MainLocal → Prop}
    (hm : AtRest () m) (hQ : ∀ m', m'.place = m.place → AtRest () m' → Q () m') :
    (MainProg.lift (onInner teardownBuildInfra) : Main).wp (mainLogic R) Q AtRest m := by
  obtain ⟨place, l, drained⟩ := m
  obtain ⟨hl, hdrained⟩ := hm
  cases hdrained
  refine wp_lift (wp_inner (Prog.wp_mono (fun a l' hl' => ?_) (fun _ l' hl' => ?_)
    (wp_teardownBuildInfra h hl)))
  · exact hQ ⟨place, l', false⟩ rfl ⟨hl', rfl⟩
  -- An exception leaves the lock released.
  refine ⟨?_, rfl⟩
  unfold Fails at hl'
  cases hsect : l'.sect with
  | free => rfl
  | locked => rw [hsect] at hl'; cases hl'
  | creating made => rw [hsect] at hl'; cases hl'
  | up => rw [hsect] at hl'; cases hl'

variable {P : Process}

theorem wp_buildWalk (hP : P.toRunConfig = R) (h : R.Distinct) (hm : Past [] () m) :
    (buildWalk P).wp (mainLogic R)
      (Past (R.plan.graph.contentWaves.map (waveItems .materialize))) AtRest m := by
  subst hP
  unfold buildWalk materializeGraph
  refine Prog.wp_seq (wp_lift_setPhase (Q := Past []) hm fun _ => hm.2) fun _ m hm => ?_
  refine Prog.wp_seq (wp_lift_work hm) fun _ m hm => ?_
  refine (congrFun Prog.wp_tryFinally _).mpr ?_
  refine Prog.wp_mono ?_ ?_ (wp_walkWaves [] _ rfl hm)
  · rintro a m ⟨hplace, hrest⟩
    refine wp_lift_teardownBuildInfra h hrest fun m' hplace' hrest' => ⟨?_, hrest'⟩
    rw [hplace', hplace]
    rfl
  · intro e m hrest
    exact wp_lift_teardownBuildInfra h hrest fun m' _ hrest' => hrest'

theorem wp_realizeGraph
    (hm : Past (R.plan.graph.contentWaves.map (waveItems .materialize)) () m) :
    (realizeGraph R.plan.graph : Main).wp (mainLogic R) AtRest AtRest m := by
  unfold realizeGraph
  refine Prog.wp_seq (wp_lift_setPhase (Q := Past _) hm fun _ => hm.2) fun _ m hm => ?_
  refine Prog.wp_mono (fun _ m hm => hm.2) (fun _ _ he => he)
    (wp_walkWaves _ [] (by rw [List.append_nil]; rfl) hm)

theorem wp_bringUp (hP : P.toRunConfig = R) (h : R.Distinct) {requireCache : Bool}
    (hm : Past [] () m) : (bringUp P requireCache).wp (mainLogic R) AtRest AtRest m := by
  unfold bringUp
  refine Prog.wp_seq (P := Past []) ?_ fun _ m hm => ?_
  · split_ifs
    · unfold requireCached
      refine Prog.wp_seq (wp_lift_work hm) fun _ m hm => ?_
      split_ifs
      · exact hm
      · exact hm.2
    · exact hm
  · refine Prog.wp_seq (wp_buildWalk hP h hm) fun _ m hm => ?_
    subst hP
    exact wp_realizeGraph hm

/-- **Every main thread follows the protocol.** -/
theorem wp_command (hP : P.toRunConfig = R) (h : R.Distinct) (cmd : Command) (hm : Past [] () m) :
    (cmd.main P).wp (mainLogic R) Anyhow Anyhow m := by
  cases cmd with
  | run requireCache leak =>
    refine Prog.wp_seq (P := Anyhow) ?_ fun up m _ => ?_
    · refine (congrFun Prog.wp_attempt _).mpr ?_
      exact Prog.wp_mono (fun _ _ _ => trivial) (fun _ _ _ => trivial) (wp_bringUp hP h hm)
    rcases up with e | a
    · exact Prog.wp_seq (wp_lift (wp_teardown h)) fun _ _ _ => trivial
    · dsimp only
      split_ifs
      · refine Prog.wp_seq (wp_lift_setPhase (Q := Anyhow) trivial fun _ => trivial) fun _ m _ => ?_
        exact wp_lift (Prog.wp_perform.mpr ⟨trivial, (fun _ _ _ => trivial), fun _ _ _ => trivial⟩)
      · exact wp_lift (wp_teardown h)
  | build =>
    refine Prog.wp_seq (P := Anyhow) ?_ fun built m _ => ?_
    · refine (congrFun Prog.wp_attempt _).mpr ?_
      exact Prog.wp_mono (fun _ _ _ => trivial) (fun _ _ _ => trivial) (wp_buildWalk hP h hm)
    refine Prog.wp_seq (wp_lift (wp_teardown h)) fun _ m _ => ?_
    exact Prog.wp_ofExcept.mpr ⟨fun _ _ => trivial, fun _ _ => trivial⟩
  | cleanup => exact wp_lift (wp_cleanupRun h)

end Threads

end TestRange
