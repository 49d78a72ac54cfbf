/-
The processes of a run: `run`, `build` and `cleanup`, and their histories.

A process brings the range up in two walks and tears it down; whenever it stops, killed
or done, another may resume the run from `state.json` or clean it up.

* `runMain`, `buildMain`, `cleanupRun` — the main threads;
* `Boots` — how a process of a run finds the world;
* `machine` — the machine of a process, for every number of jobs;
* `Makes` — the calls a hook may make;
* `ends_onInner`, `ends_runHook` — its hooks in big steps.
-/
import TestRange.Lib.BigStep
import TestRange.Lib.Footprint
import TestRange.Orchestrator.Provision
import TestRange.Orchestrator.Teardown

namespace TestRange

/-- A main thread. -/
abbrev Main := MainProg (runSig sysSig) (Walk × Node) Err Unit

/-! ### Main threads -/

section Mains

variable (P : Process)

/-- The build walk of a process. -/
def buildWalk : Main :=
  materializeGraph (sysOp .work) teardownBuildInfra P.plan.graph

/-- `run --require-cache` fails on a miss. -/
def requireCached : Main := do
  MainProg.lift (onInner (sysOp .work))
  if P.plan.hyp.vms.all fun v => (P.probe v).cached then pure () else throw .orchestrator

/-- Both walks. -/
def bringUp (requireCache : Bool) : Main := do
  (if requireCache then requireCached P else pure ())
  buildWalk P
  realizeGraph P.plan.graph

/-- Bring the range up and, unless it leaks, tear it down. -/
def runMain (requireCache leak : Bool) : Main := do
  match ← (bringUp P requireCache).attempt with
  | .error e =>
    MainProg.lift teardown
    throw e
  | .ok _ =>
    if leak then
      MainProg.lift (runOp (.setPhase .leaked))
      MainProg.lift (runOp .release)
    else MainProg.lift teardown

/-- Warm the cache only. -/
def buildMain : Main := do
  let built ← (buildWalk P).attempt
  MainProg.lift teardown
  Prog.ofExcept built

/-- Destroy some resources; whether all of that went well. -/
def cleanupResources : List Resource → Prog (runSig sysSig) Err Bool
  | [] => pure true
  | r :: rest => do
    let outcome ← (destroyAndForget r).attempt
    let others ← cleanupResources rest
    pure (outcome.isOk && others)

/-- Tear down a run that has no owner. -/
def cleanupRun : Prog (runSig sysSig) Err Unit := do
  let resources ← runOp .readResources
  if resources.isEmpty then
    runOp (.setPhase .done)
    runOp .remove
  else
    onInner (sysOp .work)
    let clean ← Prog.tryFinally (do
      runOp (.setPhase .cleanup)
      cleanupResources resources.reverse) (onInner (sysOp .work))
    let remaining ← runOp .readResources
    if remaining.isEmpty then
      runOp (.setPhase .done)
      if clean then runOp .remove else pure ()
    else pure ()

end Mains

/-! ### Histories -/

/-- What a process is started to do. -/
inductive Command
  | run (requireCache leak : Bool)
  | build
  | cleanup

/-- The main thread of a command. -/
def Command.main (P : Process) : Command → Main
  | .run requireCache leak => runMain P requireCache leak
  | .build => buildMain P
  | .cleanup => MainProg.lift cleanupRun

/-- The machine of a process. -/
def machine (P : Process) (jobs : Option ℤ) : Machine (runSig sysSig) (Walk × Node) Err (World Sys) :=
  walkMachine Node.name (sysInner P.driver) (hooks P) jobs

/-- The memory of a new process. -/
def Sys.restart (s : Sys) : Sys :=
  { s with segments := fun _ => none, ctx := .fresh, infraLock := false }

/-- How a process of the run `R` starts: with a new `state.json`, with the one that is
there, whose stamps say which nodes are reattached, or to clean up. -/
inductive Boots (R : RunConfig) : World Sys →
    Process → Option ℤ → Command → World Sys → Prop
  | fresh {w : World Sys} {P : Process} (hP : P.toRunConfig = R) (jobs : Option ℤ)
      {cmd : Command} (hcmd : cmd ≠ .cleanup) (hnew : w.ledger = none)
      (hfresh : ∀ n, P.reattach n = false) (driverClass driverUri now : String) :
      Boots R w P jobs cmd
        ⟨some (.initial R.runId R.plan.name driverClass driverUri now), w.rest.restart⟩
  | reopen {w : World Sys} {P : Process} (hP : P.toRunConfig = R) (jobs : Option ℤ)
      {cmd : Command} (hcmd : cmd ≠ .cleanup) {s : State} (hold : w.ledger = some s)
      (hstamps : ∀ n, P.reattach n = true ↔ s.Stamped .realize n) :
      Boots R w P jobs cmd ⟨some s, w.rest.restart⟩
  | cleanup {w : World Sys} {P : Process} (hP : P.toRunConfig = R) (jobs : Option ℤ) {s : State}
      (hold : w.ledger = some s) : Boots R w P jobs .cleanup ⟨some s, w.rest.restart⟩

/-! ### What a hook calls -/

/-- All calls of a hook are among these. -/
abbrev Makes {α : Type} (own : Set SysOp) (p : Hook α) : Prop :=
  Prog.Within (S := sysSig) (fun o : SysOp => ({o} : Set SysOp)) own p

theorem makes_sysOp {own : Set SysOp} {o : SysOp} (h : o ∈ own) : Makes own (sysOp o) :=
  .perform (Set.singleton_subset_iff.mpr h)

/-! ### Big steps of a process -/

/-- The machine of a process, where only some answers and some starts come about. -/
abbrev restricted (P : Process) (jobs : Option ℤ)
    (allow : (o : RunOp SysOp) → World Sys → Except Err ((runSig sysSig).Res o) → Prop)
    (startOk : Walk × Node → World Sys → Prop) :
    Machine (runSig sysSig) (Walk × Node) Err (World Sys) :=
  (machine P jobs).restrict allow startOk

section BigSteps

variable {P : Process} {jobs : Option ℤ}
  {allow : (o : RunOp SysOp) → World Sys → Except Err ((runSig sysSig).Res o) → Prop}
  {startOk : Walk × Node → World Sys → Prop} {w w₁ w₂ : World Sys} {own : Set SysOp}

/-- The calls of a hook, in a process that allows them. -/
theorem ends_onInner {α : Type} {p : Hook α} {out : Except Err α} (hp : Makes own p)
    (hallow : ∀ o ∈ own, ∀ w r, allow (.inner o) w r)
    (hends : Prog.Ends (sysSem P.driver) p w out w₁) :
    Prog.Ends (restricted P jobs allow startOk).sem (onInner p) w out w₁ := by
  obtain ⟨tr, htr⟩ := hends
  induction htr with
  | ret a w => exact .ret a w
  | raise e w => exact .raise e w
  | call hsem hk ih =>
    have hcall := hallow _ (Set.singleton_subset_iff.mp hp.1)
    exact .call ⟨hsem, hcall _ _⟩ (ih (hp.2 _))

/-- A hook that returns and is stamped. -/
theorem ends_runHook {i : Walk × Node} (hhook : Makes own (hooks P i.1 i.2))
    (hallow : ∀ o ∈ own, ∀ w r, allow (.inner o) w r)
    (hends : Prog.Ends (sysSem P.driver) (hooks P i.1 i.2) w (.ok ()) w₁)
    (hreturned : allow (.returned i.1 i.2.name) w₁ (.ok ()))
    (hmark : (restricted P jobs allow startOk).sem (.mark i.1 i.2.name) w₁ (.ok ()) w₂) :
    Prog.Ends (restricted P jobs allow startOk).sem ((restricted P jobs allow startOk).fn i) w
      (.ok ()) w₂ :=
  .bind (ends_onInner hhook hallow hends)
    (.bind (.perform ⟨⟨rfl, rfl⟩, hreturned⟩) (.perform hmark))

/-- A hook that raises. -/
theorem ends_runHook_raise {i : Walk × Node} {e : Err} (hhook : Makes own (hooks P i.1 i.2))
    (hallow : ∀ o ∈ own, ∀ w r, allow (.inner o) w r)
    (hends : Prog.Ends (sysSem P.driver) (hooks P i.1 i.2) w (.error e) w₁) :
    Prog.Ends (restricted P jobs allow startOk).sem ((restricted P jobs allow startOk).fn i) w
      (.error e) w₁ :=
  .bind_raise (ends_onInner hhook hallow hends)

end BigSteps

end TestRange
