/-
Which backend a run is on.

`state.json` names the driver of the run and its URI, once and for all: `initialize` writes
them and `cleanup` rebuilds the driver from them.  A resume binds a driver of its own, from
the profile it is given, and compares no more than the name of the plan.

* `resolveBackend` — the binding of a plan and a profile;
* `Backends` — several backends, and through which driver each object was asked for;
* `Launches` — how the processes of a run start: a fresh one, resumes, cleanups;
* `on_recorded_backend` — as long as resumes stay on the recorded backend, whatever is
  listed was asked for through the recorded driver.
-/
import TestRange.Orchestrator.Covered

namespace TestRange

/-! ### Bindings -/

/-- A backend, by the driver that talks to it: `DRIVER_NAME` and `uri`. -/
structure Backend where
  driverName : String
  uri : String
  deriving DecidableEq

/-- A connection profile: its scheme, and what `build_driver` makes. -/
structure Profile where
  scheme : String
  driver : Backend

/-- Why a plan and a profile do not bind. -/
inductive BindError
  /-- No profile was given; the scheme the plan pins, if any. -/
  | noProfile (pinned : Option String)
  | mismatch (selected pinned : String)

/-- The backend of a plan and a profile; `pinned` is the scheme of the plan's entry, if it is a
concrete one. -/
def resolveBackend (pinned : Option String) : Option Profile → Except BindError Backend
  | none => .error (.noProfile pinned)
  | some profile =>
    match pinned with
    | some scheme =>
      if profile.scheme = scheme then .ok profile.driver else .error (.mismatch profile.scheme scheme)
    | none => .ok profile.driver

/-- The backend that `state.json` names: the driver `cleanup_run` instantiates. -/
def State.backend (s : State) : Backend := ⟨s.driverClass, s.driverUri⟩

/-! ### Several backends -/

/-- Several backends, each with what a process keeps in memory for it; and, for the record,
what was asked for through which driver. -/
structure Backends where
  sys : Backend → Sys
  made : List (Backend × Obj)

/-- What was asked for, with one more call. -/
def recordMade (b : Backend) (o : SysOp) (made : List (Backend × Obj)) : List (Backend × Obj) :=
  match o.creates with
  | some x => (b, x) :: made
  | none => made

/-- A call through the driver of the backend `b`: it acts on that backend alone. -/
def throughSem (b : Backend) (drv : Driver) : Prog.Sem sysSig Err (World Backends) :=
  fun o w r w' => sysSem drv o ⟨w.ledger, w.rest.sys b⟩ r ⟨w'.ledger, w'.rest.sys b⟩ ∧
    (∀ b', b' ≠ b → w'.rest.sys b' = w.rest.sys b') ∧ w'.rest.made = recordMade b o w.rest.made

/-- The calls of hooks, on one of several backends. -/
def through (b : Backend) (drv : Driver) : InnerSem sysSig Err Backends where
  sem := throughSem b drv
  late := Err.late
  nodes_eq := fun h => (sysInner drv).nodes_eq h.1

/-- The machine of a process that is bound to a backend. -/
def boundMachine (P : Process) (b : Backend) (jobs : Option ℤ) :
    Machine (runSig sysSig) (Walk × Node) Err (World Backends) :=
  walkMachine Node.name (through b P.driver) (hooks P) jobs

/-- The memory of a new process. -/
def Backends.restart (B : Backends) : Backends := { B with sys := fun b => (B.sys b).restart }

/-- A resume refuses another plan, by its name. -/
def resumeMain (P : Process) (cmd : Command) (s : State) : Main :=
  if s.planName = P.plan.name then cmd.main P else throw .orchestrator

/-- How the processes of the run `runId` start, where resumes are bound as `rebinds` allows: one
that is fresh, before anything was asked for, resumes of it, and cleanups.  Each has a plan and
a profile of its own. -/
inductive Launches (runId : String) (rebinds : State → Backend → Prop) : World Backends →
    Boot (runSig sysSig) (Walk × Node) Err (World Backends) Unit → Prop
  | fresh {w : World Backends} {P : Process} {cmd : Command} {b : Backend} (hrun : P.runId = runId)
      (pinned : Option String) (profile : Option Profile)
      (hbind : resolveBackend pinned profile = .ok b) (jobs : Option ℤ) (hcmd : cmd ≠ .cleanup)
      (hnew : w.ledger = none) (hmade : w.rest.made = []) (hfresh : ∀ n, P.reattach n = false)
      (now : String) :
      Launches runId rebinds w ⟨boundMachine P b jobs,
        ⟨some (.initial runId P.plan.name b.driverName b.uri now), w.rest.restart⟩, cmd.main P⟩
  | resume {w : World Backends} {P : Process} {cmd : Command} {b : Backend} {s : State}
      (hrun : P.runId = runId) (pinned : Option String) (profile : Option Profile)
      (hbind : resolveBackend pinned profile = .ok b) (jobs : Option ℤ) (hcmd : cmd ≠ .cleanup)
      (hold : w.ledger = some s) (hstamps : ∀ n, P.reattach n = true ↔ s.Stamped .realize n)
      (hrebinds : rebinds s b) :
      Launches runId rebinds w ⟨boundMachine P b jobs, ⟨some s, w.rest.restart⟩, resumeMain P cmd s⟩
  | cleanup {w : World Backends} {P : Process} {s : State} (hrun : P.runId = runId)
      (jobs : Option ℤ) (hold : w.ledger = some s) :
      Launches runId rebinds w ⟨boundMachine P s.backend jobs, ⟨some s, w.rest.restart⟩,
        Command.main P .cleanup⟩

/-- Nothing has been asked for yet. -/
def Unasked (w : World Backends) : Prop := w.ledger = none ∧ w.rest.made = []

/-- Whatever is listed in `state.json` was asked for through the driver it names. -/
def OnRecorded (w : World Backends) : Prop :=
  ∀ s, w.ledger = some s → ∀ r ∈ s.resources, ∀ x, r.target = .ok x →
    ∀ b, (b, x) ∈ w.rest.made → b = s.backend

/-! ### The recorded backend stays -/

/-- No mutation changes the backend that is recorded. -/
theorem backend_apply {m : Mutation} {s s' : State} (h : m.apply s = .ok s') :
    s'.backend = s.backend := by
  cases m with
  | confirm backendName metadata now =>
    simp only [Mutation.apply] at h
    split at h
    · simp only [State.replaceResource] at h
      split at h
      · cases h
        rfl
      · cases h
    · cases h
  | _ =>
    cases h
    rfl

/-- Recorded and asked for on one backend only. -/
structure Bound (b : Backend) (w : World Backends) : Prop where
  recorded : ∀ s, w.ledger = some s → s.backend = b
  made : ∀ p ∈ w.rest.made, p.1 = b

variable {b : Backend} {w w' : World Backends}

theorem Bound.onRecorded (h : Bound b w) : OnRecorded w := by
  intro s hs r _ x _ b' hb'
  rw [h.recorded s hs]
  exact h.made _ hb'

/-- A mutation keeps the recorded backend. -/
theorem backend_mutates {Ω : Type} {m : String → Mutation} {w w' : World Ω} {r : Except Err Unit}
    (h : mutates Err.late m w r w') (hw : ∀ s, w.ledger = some s → s.backend = b) :
    ∀ s, w'.ledger = some s → s.backend = b := by
  rcases h with ⟨-, s, now, s', hs, happly, rfl⟩ | ⟨-, rfl⟩
  · intro t ht
    cases ht
    rw [backend_apply happly]
    exact hw s hs
  · exact hw

/-- No operation changes the backend that is recorded, whatever the process is bound to. -/
theorem backend_step {b₁ : Backend} {drv : Driver} {o : RunOp SysOp}
    {r : Except Err ((runSig sysSig).Res o)} (h : runSem (through b₁ drv) o w r w')
    (hw : ∀ s, w.ledger = some s → s.backend = b) : ∀ s, w'.ledger = some s → s.backend = b := by
  cases o with
  | inner o =>
    obtain ⟨hsem, -, -⟩ := h
    cases ho : o.mutation with
    | none =>
      have hledger : w'.ledger = w.ledger := ledger_eq_of_mutation hsem ho
      rw [hledger]
      exact hw
    | some m =>
      obtain ⟨r', ⟨-, hmutates⟩, -⟩ := storeCall_of_mutation hsem ho
      have hkept := backend_mutates hmutates hw
      exact hkept
  | returned walk node =>
    rw [h.2]
    exact hw
  | mark walk node => exact backend_mutates h hw
  | setPhase phase => exact backend_mutates h hw
  | readResources =>
    rw [h.1]
    exact hw
  | readRemaining =>
    rw [h.1]
    exact hw
  | release =>
    have hsame : w' = w := h
    rw [hsame]
    exact hw
  | remove =>
    rcases h with ⟨-, rfl⟩ | ⟨-, rfl⟩
    · intro s hs
      cases hs
    · exact hw

/-- Apart from the calls of hooks, operations ask for nothing. -/
theorem rest_step {b₁ : Backend} {drv : Driver} {o : RunOp SysOp}
    {r : Except Err ((runSig sysSig).Res o)} (h : runSem (through b₁ drv) o w r w') :
    (∃ o' r', throughSem b₁ drv o' w r' w') ∨ w'.rest = w.rest := by
  have hmutation : ∀ {m : String → Mutation} {r : Except Err Unit}, mutates Err.late m w r w' →
      w'.rest = w.rest := by
    rintro m r (⟨-, s, now, s', -, -, rfl⟩ | ⟨-, rfl⟩)
    · rfl
    · rfl
  cases o with
  | inner o => exact .inl ⟨o, r, h⟩
  | returned walk node => exact .inr (by rw [h.2])
  | mark walk node => exact .inr (hmutation h)
  | setPhase phase => exact .inr (hmutation h)
  | readResources => exact .inr (by rw [h.1])
  | readRemaining => exact .inr (by rw [h.1])
  | release => exact .inr (congrArg World.rest (show w' = w from h))
  | remove =>
    rcases h with ⟨-, rfl⟩ | ⟨-, rfl⟩
    · exact .inr rfl
    · exact .inr rfl

/-- An operation of a process that is bound to `b`. -/
theorem Bound.step {drv : Driver} {o : RunOp SysOp} {r : Except Err ((runSig sysSig).Res o)}
    (h : runSem (through b drv) o w r w') (hw : Bound b w) : Bound b w' := by
  refine ⟨backend_step h hw.recorded, ?_⟩
  rcases rest_step h with ⟨o', r', -, -, hmade⟩ | hrest
  · intro p hp
    rw [hmade] at hp
    unfold recordMade at hp
    split at hp
    · rcases List.mem_cons.mp hp with rfl | hp
      · rfl
      · exact hw.made p hp
    · exact hw.made p hp
  · rw [hrest]
    exact hw.made

/-- A process starts bound to the backend that is recorded. -/
theorem Launches.bound {runId : String}
    {boot : Boot (runSig sysSig) (Walk × Node) Err (World Backends) Unit} (hw : Bound b w)
    (h : Launches runId (fun s b => b = s.backend) w boot) :
    ∃ b drv, Bound b boot.world ∧ boot.machine.sem = runSem (through b drv) := by
  cases h with
  | @fresh P _ b' hrun pinned profile hbind jobs hcmd hnew hmade hfresh now =>
    refine ⟨b', P.driver, ⟨?_, ?_⟩, rfl⟩
    · intro s hs
      cases hs
      rfl
    · intro p hp
      have hnone : p ∈ w.rest.made := hp
      rw [hmade] at hnone
      cases hnone
  | @resume P _ b' s hrun pinned profile hbind jobs hcmd hold hstamps hrebinds =>
    have hb : b' = b := hrebinds.trans (hw.recorded s hold)
    subst hb
    refine ⟨b', P.driver, ⟨?_, hw.made⟩, rfl⟩
    intro t ht
    cases ht
    exact hw.recorded s hold
  | @cleanup P s hrun jobs hold =>
    have hb : s.backend = b := hw.recorded s hold
    subst hb
    refine ⟨s.backend, P.driver, ⟨?_, hw.made⟩, rfl⟩
    intro t ht
    cases ht
    rfl

/-- **Everything is on the recorded backend**, along every history of a fresh run, resumes of it
and cleanups in which every resume is bound to the backend that `state.json` names. -/
theorem on_recorded_backend {runId : String}
    {boot : Boot (runSig sysSig) (Walk × Node) Err (World Backends) Unit}
    {c : Proc (runSig sysSig) (Walk × Node) Err (World Backends) Unit}
    (hist : History Unasked (Launches runId fun s b => b = s.backend) boot c) :
    OnRecorded c.world := by
  have hinit : ∀ w, Unasked w → ∃ b, Bound b w := by
    rintro w ⟨hledger, hmade⟩
    refine ⟨⟨"", ""⟩, ?_, ?_⟩
    · intro s hs
      rw [hledger] at hs
      cases hs
    · intro p hp
      rw [hmade] at hp
      cases hp
  have hrun : ∀ w boot, (∃ b, Bound b w) → Launches runId (fun s b => b = s.backend) w boot →
      ∀ c, boot.machine.Run boot.world boot.main c → ∃ b, Bound b c.world := by
    rintro w boot ⟨b, hw⟩ hlaunch c hc
    obtain ⟨b', drv, hboot, hsem⟩ := hlaunch.bound hw
    refine ⟨b', hc.keeps (I := Bound b') ?_ hboot⟩
    intro o w r w' hstep
    rw [hsem] at hstep
    exact Bound.step hstep
  obtain ⟨⟨b, hb⟩, -⟩ := History.invariant (I := fun w => ∃ b, Bound b w) hinit hrun hist
  exact hb.onRecorded

/-! ### A process on one of several backends -/

/-- A world with one backend, as one of several: what is live there was asked for. -/
def OneOf (b : Backend) (w : World Sys) (v : World Backends) : Prop :=
  v.ledger = w.ledger ∧ v.rest.sys b = w.rest ∧ ∀ x ∈ w.rest.live, (b, x) ∈ v.rest.made

/-- A call on one backend, as one of several. -/
theorem OneOf.call {R : RunConfig} {o : SysOp} {r : Except Err (sysSig.Res o)} {w w' : World Sys}
    {v : World Backends} (hsem : sysSem R.driver o w r w') (h : OneOf b w v) :
    ∃ v', throughSem b R.driver o v r v' ∧ OneOf b w' v' := by
  obtain ⟨hledger, hsys, hlive⟩ := h
  refine ⟨⟨w'.ledger, Function.update v.rest.sys b w'.rest, recordMade b o v.rest.made⟩,
    ⟨?_, ?_, rfl⟩, rfl, ?_, ?_⟩
  · show sysSem R.driver o ⟨v.ledger, v.rest.sys b⟩ r
      ⟨w'.ledger, Function.update v.rest.sys b w'.rest b⟩
    rw [hledger, hsys, Function.update_self]
    exact hsem
  · intro b' hb'
    exact Function.update_of_ne hb' _ _
  · exact Function.update_self _ _ _
  · intro x hx
    show (b, x) ∈ recordMade b o v.rest.made
    unfold recordMade
    cases ho : o.creates with
    | none => exact hlive x (live_other hsem ho hx)
    | some y =>
      rcases live_creates hsem ho hx with rfl | hold
      · exact List.mem_cons_self
      · exact List.mem_cons_of_mem _ (hlive x hold)

/-- An operation on one backend, as one of several. -/
theorem OneOf.step {R : RunConfig} {o : RunOp SysOp} {r : Except Err ((runSig sysSig).Res o)}
    {w w' : World Sys} {v : World Backends} (hsem : runSem (sysInner R.driver) o w r w')
    (h : OneOf b w v) : ∃ v', runSem (through b R.driver) o v r v' ∧ OneOf b w' v' := by
  have hmutation : ∀ {m : String → Mutation} {r : Except Err Unit}, mutates Err.late m w r w' →
      ∃ v', mutates Err.late m v r v' ∧ OneOf b w' v' := by
    rintro m r (⟨heff, s, now, s', hs, happly, rfl⟩ | ⟨hno, rfl⟩)
    · exact ⟨⟨some s', v.rest⟩, .inl ⟨heff, s, now, s', h.1.trans hs, happly, rfl⟩, rfl, h.2⟩
    · exact ⟨v, .inr ⟨hno, rfl⟩, h⟩
  have hread : ∀ {r : Except Err (List Resource)}, readsResources w r w' →
      ∃ v', readsResources v r v' ∧ OneOf b w' v' := by
    rintro r ⟨rfl, hr⟩
    refine ⟨v, ⟨rfl, ?_⟩, h⟩
    rw [h.1]
    exact hr
  cases o with
  | inner o => exact h.call hsem
  | returned walk node =>
    obtain ⟨rfl, rfl⟩ := hsem
    exact ⟨v, ⟨rfl, rfl⟩, h⟩
  | mark walk node => exact hmutation hsem
  | setPhase phase => exact hmutation hsem
  | readResources => exact hread hsem
  | readRemaining => exact hread hsem
  | release =>
    have hsame : w' = w := hsem
    rw [hsame]
    exact ⟨v, rfl, h⟩
  | remove =>
    rcases hsem with ⟨heff, rfl⟩ | ⟨hno, rfl⟩
    · exact ⟨⟨none, v.rest⟩, .inl ⟨heff, rfl⟩, rfl, h.2⟩
    · exact ⟨v, .inr ⟨hno, rfl⟩, h⟩

/-! ### A resume on another backend -/

namespace PoolRun

/-- The backend of the fresh run. -/
def first : Backend := ⟨"LibvirtDriver", "qemu:///system"⟩

/-- The world before the run. -/
def untouched : World Backends := ⟨none, ⟨fun _ => before.rest, []⟩⟩

/-- The fresh process, which is killed before it asks for anything. -/
def freshBoot : Boot (runSig sysSig) (Walk × Node) Err (World Backends) Unit :=
  ⟨boundMachine process first (some 1), ⟨some created, untouched.rest.restart⟩,
    Command.main process (.run false true)⟩

theorem launches_fresh (rebinds : State → Backend → Prop) :
    Launches run.runId rebinds untouched freshBoot :=
  .fresh (P := process) (b := first) rfl none (some ⟨"libvirt", first⟩) rfl (some 1)
    (show Command.run false true ≠ .cleanup by simp) rfl rfl (fun _ => rfl) ""

/-- The process that resumes it, bound to `b`. -/
def resumeBoot (b : Backend) : Boot (runSig sysSig) (Walk × Node) Err (World Backends) Unit :=
  ⟨boundMachine process b (some 1), ⟨some created, untouched.rest.restart.restart⟩,
    resumeMain process (.run false true) created⟩

theorem launches_resume {rebinds : State → Backend → Prop} {b : Backend} (hb : rebinds created b) :
    Launches run.runId rebinds freshBoot.world (resumeBoot b) :=
  .resume (P := process) (s := created) rfl none (some ⟨"libvirt", b⟩) rfl (some 1)
    (show Command.run false true ≠ .cleanup by simp) rfl (by
      intro n
      simp [process, State.Stamped, created, State.initial, State.nodeRecord]) hb

/-- The resumed process brings the range up on its own backend, and lists it where `state.json`
still names the first one. -/
theorem resumed_run (b : Backend) : ∃ c,
    (boundMachine process b (some 1)).Run (resumeBoot b).world (resumeBoot b).main c ∧
      (b, .pool backend) ∈ c.world.rest.made ∧ ∃ s, c.world.ledger = some s ∧ s.backend = first ∧
        ∃ r ∈ s.resources, r.target = .ok (.pool backend) := by
  have hallow : Permits fun _ _ _ => True := ⟨fun _ _ _ _ => trivial, fun _ _ _ _ _ => trivial⟩
  obtain ⟨s, rest, hs, hlive, hmain⟩ := ends_leaked hallow (s := created) rfl before.rest.restart
    (fun _ _ _ => trivial) rfl rfl
  obtain ⟨log, hrun⟩ := Machine.Run.of_ends hmain .boot
  have hrel : OneOf b ⟨some created, before.rest.restart⟩ (resumeBoot b).world :=
    ⟨rfl, rfl, by simp [before, Sys.restart]⟩
  obtain ⟨v, hv, hledger, -, hmade⟩ := hrun.simulate (M := M fun _ _ _ => True)
    (N := boundMachine process b (some 1)) rfl rfl
    (fun o w r w' v hsem hrel => OneOf.step (R := run) hsem.1 hrel) (fun _ _ _ _ _ => trivial) hrel
  have hbackend : ∀ s, v.ledger = some s → s.backend = first :=
    hv.keeps (I := fun w => ∀ s, w.ledger = some s → s.backend = first)
      (fun o w r w' hstep hw => backend_step hstep hw) (by rintro s ⟨⟩; rfl)
  refine ⟨_, hv, hmade _ (by simp [hlive]), s, hledger, hbackend s hledger, ?_⟩
  exact ⟨_, by rw [hs]; exact List.mem_singleton_self _, rfl⟩

/-- Resumed on its own backend, the pool is listed and was asked for there. -/
theorem resumed_on_recorded : ∃ boot c,
    History Unasked (Launches run.runId fun s b => b = s.backend) boot c ∧
      (first, .pool backend) ∈ c.world.rest.made ∧ OnRecorded c.world := by
  obtain ⟨c, hrun, hmade, -⟩ := resumed_run first
  have hist : History Unasked (Launches run.runId fun s b => b = s.backend) (resumeBoot first) c :=
    .then_run (.first ⟨rfl, rfl⟩ (launches_fresh _)) (launches_resume rfl) hrun
  exact ⟨_, c, hist, hmade, on_recorded_backend hist⟩

/-- Resumed through another connection, the pool is created there and listed under the first
one. -/
theorem resumed_elsewhere : ¬∀ boot c, History Unasked (Launches run.runId fun _ _ => True) boot c →
    OnRecorded c.world := by
  intro h
  obtain ⟨c, hrun, hmade, s, hs, hbackend, r, hr, htarget⟩ :=
    resumed_run ⟨"LibvirtDriver", "qemu+ssh://other/system"⟩
  have hist : History Unasked (Launches run.runId fun _ _ => True) (resumeBoot _) c :=
    .then_run (.first ⟨rfl, rfl⟩ (launches_fresh _)) (launches_resume trivial) hrun
  have hsame := h _ c hist s hs r hr _ htarget _ hmade
  rw [hbackend] at hsame
  exact absurd hsame (by decide)

end PoolRun

end TestRange
