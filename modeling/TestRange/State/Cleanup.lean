/-
Cleaning up runs that have no owner.

`cleanup_run` replays `state.json` in reverse: it destroys each resource and forgets it, and
what raises on the way is recorded and left behind.  `cleanup_all` does that for every run
directory and turns whatever a run raises into a result.

* `Cleanup.cleanupRun`, `Cleanup.cleanupAll` — the two, as programs of calls;
* `Cleanup.exec_cleanupLoop` — what the loop over the resources leaves;
* `Cleanup.cleanup_accounts` — every resource is accounted for, in one call and in any
  number of them, and every run directory in a sweep.
-/
import Mathlib.Data.List.Nodup
import TestRange.Lib.Prog
import TestRange.State.Store

namespace TestRange

namespace Cleanup

/-! ### Calls -/

/-- What may be raised, with its text. -/
inductive Exc
  /-- `StateLockedError` -/
  | locked (text : String)
  /-- any other `StateError` -/
  | state (text : String)
  | other (text : String)

/-- `str(e)` -/
def Exc.text : Exc → String
  | .locked text => text
  | .state text => text
  | .other text => text

/-- The calls made for a run. -/
inductive Op
  | exists
  | requireDead
  | read
  | setPhase (phase : Phase)
  | forget (backendName : String)
  | remove
  | instantiate (driverClass driverUri : String)
  | connect
  | disconnect
  | destroy (kind backendName : String) (metadata : Dict)

abbrev cleanupSig : Sig where
  Op := String × Op
  Res
    | (_, .exists) => Bool
    | (_, .read) => State
    | _ => Unit

abbrev CleanupProg (α : Type) : Type := Prog cleanupSig Exc α

section Calls

variable (run : String)

def stateExists : CleanupProg Bool := Prog.perform (S := cleanupSig) (run, .exists)

def requireDead : CleanupProg Unit := Prog.perform (S := cleanupSig) (run, .requireDead)

def read : CleanupProg State := Prog.perform (S := cleanupSig) (run, .read)

def setPhase (phase : Phase) : CleanupProg Unit := Prog.perform (S := cleanupSig) (run, .setPhase phase)

def forget (backendName : String) : CleanupProg Unit :=
  Prog.perform (S := cleanupSig) (run, .forget backendName)

def remove : CleanupProg Unit := Prog.perform (S := cleanupSig) (run, .remove)

def instantiate (driverClass driverUri : String) : CleanupProg Unit :=
  Prog.perform (S := cleanupSig) (run, .instantiate driverClass driverUri)

def connect : CleanupProg Unit := Prog.perform (S := cleanupSig) (run, .connect)

def disconnect : CleanupProg Unit := Prog.perform (S := cleanupSig) (run, .disconnect)

def destroy (kind backendName : String) (metadata : Dict) : CleanupProg Unit :=
  Prog.perform (S := cleanupSig) (run, .destroy kind backendName metadata)

end Calls

/-! ### Programs -/

/-- `CleanupResult` -/
structure CleanupResult where
  runId : String
  destroyed : List String
  skipped : List String
  errors : List (String × String)

/-- One resource: destroyed first, then forgotten. -/
def cleanupResource (run : String) (r : Resource) : CleanupProg Unit := do
  destroy run r.kind r.backendName r.metadata
  forget run r.backendName

/-- The loop over the resources: what was destroyed, and what raised. -/
def cleanupLoop (run : String) : List Resource → CleanupProg (List String × List (String × String))
  | [] => pure ([], [])
  | r :: rest => do
    let outcome ← (cleanupResource run r).attempt
    let others ← cleanupLoop run rest
    match outcome with
    | .ok _ => pure (r.backendName :: others.1, others.2)
    | .error e => pure (others.1, (r.backendName, e.text) :: others.2)

/-- The end of a cleanup: done and removed, done, or neither. -/
def finalize (run : String) (remaining : List Resource) (errors : List (String × String)) :
    CleanupProg Unit :=
  if remaining.isEmpty && errors.isEmpty then do
    setPhase run .done
    remove run
  else if remaining.isEmpty then setPhase run .done
  else pure ()

/-- Clean up a ledger that is not empty. -/
def cleanupLedger (run : String) (state : State) : CleanupProg CleanupResult := do
  instantiate run state.driverClass state.driverUri
  connect run
  let done ← Prog.tryFinally (do
    setPhase run .cleanup
    cleanupLoop run state.resources.reverse) (disconnect run)
  let final ← read run
  finalize run final.resources done.2
  pure ⟨run, done.1, [], done.2⟩

/-- An empty ledger is reclaimed without a backend. -/
def reclaim (run : String) : CleanupProg CleanupResult := do
  setPhase run .done
  remove run
  pure ⟨run, [], [], []⟩

/-- `cleanup_run` -/
def cleanupRun (run : String) (dryRun : Bool) : CleanupProg CleanupResult := do
  if ← stateExists run then
    requireDead run
    let state ← read run
    if dryRun then pure ⟨run, [], state.resources.reverse.map (·.backendName), []⟩
    else if state.resources.isEmpty then reclaim run
    else cleanupLedger run state
  else throw (.state ("no state.json under runs/" ++ run))

/-- What is reported for a run that raised. -/
def failed (run : String) : Exc → CleanupResult
  | .locked text => ⟨run, [], [], [("(locked)", text)]⟩
  | .state text => ⟨run, [], [], [("(state)", text)]⟩
  | .other text => ⟨run, [], [], [("(driver)", text)]⟩

/-- `cleanup_all`, over the run directories. -/
def cleanupAll (dryRun : Bool) : List String → CleanupProg (List CleanupResult)
  | [] => pure []
  | run :: runs => do
    let result ← (cleanupRun run dryRun).tryCatch fun e => pure (failed run e)
    let rest ← cleanupAll dryRun runs
    pure (result :: rest)

/-! ### Run directories and backends -/

/-- How the calls for a resource end.  A `forget` that raises may have taken effect: the
directory is synced after `state.json` has been replaced. -/
structure Outcome where
  destroy : Except Exc Unit
  forget : Except Exc Unit
  landed : Bool

/-- How both calls end. -/
def Outcome.result (o : Outcome) : Except Exc Unit :=
  match o.destroy with
  | .ok _ => o.forget
  | .error e => .error e

/-- The resource is gone from the ledger. -/
def Outcome.gone (o : Outcome) : Bool := o.destroy.isOk && (o.forget.isOk || o.landed)

/-- The `forget` raised after it had taken effect. -/
def Outcome.lost (o : Outcome) : Bool := o.destroy.isOk && !o.forget.isOk && o.landed

/-- What is reported for the resource. -/
def Outcome.message (o : Outcome) : Option String :=
  match o.result with
  | .ok _ => none
  | .error e => some e.text

/-- What is gone was forgotten, or lost by a `forget` that raised. -/
theorem Outcome.gone_eq (o : Outcome) : o.gone = (o.result.isOk || o.lost) := by
  unfold gone result lost
  cases o.destroy with
  | error e => rfl
  | ok _ => cases o.forget <;> simp [Except.isOk, Except.toBool]

/-- A resource is reported as raised exactly when its calls are not both answered. -/
theorem Outcome.message_isSome (o : Outcome) : o.message.isSome = !o.result.isOk := by
  unfold message
  cases o.result <;> rfl

/-- A run directory: its ledger, whether a process owns it, and the destroy calls that were
made for it. -/
structure RunDir where
  state : Option State
  owned : Bool
  destroys : List (String × String × Dict)

/-- The run directories of a state root. -/
abbrev Root : Type := String → RunDir

/-- What the calls do where only those of single resources fail. -/
def handler (outcome : String → Outcome) : Prog.Handler cleanupSig Exc Root
  | (run, .exists), w => (.ok (w run).state.isSome, w)
  | (run, .requireDead), w =>
    (if (w run).owned then .error (.locked ("run " ++ run ++ " is owned by a live process " ++
      "(state.lock held); kill it or wait for it to exit, then re-run cleanup.")) else .ok (), w)
  | (run, .read), w => ((w run).state.elim (.error (.state ("no state at runs/" ++ run))) .ok, w)
  | (run, .setPhase phase), w =>
    (.ok (), Function.update w run { w run with
      state := (w run).state.map fun s => { s with phase := phase.name } })
  | (run, .forget n), w =>
    ((outcome n).forget,
      if (outcome n).forget.isOk || (outcome n).landed then
        Function.update w run { w run with state := (w run).state.map (·.removeResource n) }
      else w)
  | (run, .remove), w => (.ok (), Function.update w run { w run with state := none })
  | (_, .instantiate _ _), w => (.ok (), w)
  | (_, .connect), w => (.ok (), w)
  | (_, .disconnect), w => (.ok (), w)
  | (run, .destroy kind n metadata), w =>
    ((outcome n).destroy, Function.update w run { w run with
      destroys := (w run).destroys ++ [(kind, n, metadata)] })

section Exec

variable {outcome : String → Outcome} {run : String} {w : Root}

@[simp] theorem exec_stateExists : (stateExists run).exec (handler outcome) w =
    (.ok (w run).state.isSome, w) := rfl

theorem exec_requireDead (h : (w run).owned = false) :
    (requireDead run).exec (handler outcome) w = (.ok (), w) := by
  show Prog.exec (handler outcome) (Prog.perform (S := cleanupSig) (run, .requireDead)) w = _
  rw [Prog.exec_perform, handler, h]
  rfl

variable (outcome) in
theorem exec_requireDead_locked (h : (w run).owned = true) :
    ∃ e, (requireDead run).exec (handler outcome) w = (.error e, w) := by
  refine ⟨.locked ("run " ++ run ++ " is owned by a live process " ++
    "(state.lock held); kill it or wait for it to exit, then re-run cleanup."), ?_⟩
  show Prog.exec (handler outcome) (Prog.perform (S := cleanupSig) (run, .requireDead)) w = _
  rw [Prog.exec_perform, handler, h]
  rfl

theorem exec_read {s : State} (h : (w run).state = some s) :
    (read run).exec (handler outcome) w = (.ok s, w) := by
  show Prog.exec (handler outcome) (Prog.perform (S := cleanupSig) (run, .read)) w = _
  rw [Prog.exec_perform, handler, h]
  rfl

@[simp] theorem exec_setPhase (phase : Phase) : (setPhase run phase).exec (handler outcome) w =
    (.ok (), Function.update w run { w run with
      state := (w run).state.map fun s => { s with phase := phase.name } }) := rfl

@[simp] theorem exec_remove : (remove run).exec (handler outcome) w =
    (.ok (), Function.update w run { w run with state := none }) := rfl

@[simp] theorem exec_instantiate (driverClass driverUri : String) :
    (instantiate run driverClass driverUri).exec (handler outcome) w = (.ok (), w) := rfl

@[simp] theorem exec_connect : (connect run).exec (handler outcome) w = (.ok (), w) := rfl

@[simp] theorem exec_disconnect : (disconnect run).exec (handler outcome) w = (.ok (), w) := rfl

theorem exec_destroy (kind n : String) (metadata : Dict) :
    (destroy run kind n metadata).exec (handler outcome) w =
      ((outcome n).destroy, Function.update w run { w run with
        destroys := (w run).destroys ++ [(kind, n, metadata)] }) := by
  show Prog.exec (handler outcome) (Prog.perform (S := cleanupSig) (run, .destroy kind n metadata)) w = _
  rw [Prog.exec_perform, handler]

theorem exec_forget (n : String) : (forget run n).exec (handler outcome) w =
    ((outcome n).forget,
      if (outcome n).forget.isOk || (outcome n).landed then
        Function.update w run { w run with state := (w run).state.map (·.removeResource n) }
      else w) := by
  show Prog.exec (handler outcome) (Prog.perform (S := cleanupSig) (run, .forget n)) w = _
  rw [Prog.exec_perform, handler]

/-- One resource: the call is made, and the ledger has lost the resource if it is gone. -/
theorem exec_cleanupResource (r : Resource) :
    (cleanupResource run r).exec (handler outcome) w =
      ((outcome r.backendName).result, Function.update w run { w run with
        state := if (outcome r.backendName).gone then (w run).state.map (·.removeResource r.backendName)
          else (w run).state
        destroys := (w run).destroys ++ [(r.kind, r.backendName, r.metadata)] }) := by
  rw [cleanupResource, Prog.bind_eq_bind, Prog.exec_bind, exec_destroy, Outcome.result, Outcome.gone]
  cases (outcome r.backendName).destroy with
  | error e => rfl
  | ok _ =>
    rw [Prog.andThen_ok, exec_forget, Function.update_self]
    cases (outcome r.backendName).forget with
    | ok _ => exact Prod.ext rfl (Function.update_idem ..)
    | error e =>
      cases (outcome r.backendName).landed with
      | true => exact Prod.ext rfl (Function.update_idem ..)
      | false => rfl

/-- The resources that stay in the ledger when some names have been gone through. -/
def survivors (outcome : String → Outcome) (names : List String) (rs : List Resource) : List Resource :=
  rs.filter fun x => !((outcome x.backendName).gone && decide (x.backendName ∈ names))

/-- The resources that stay when one name has been gone through. -/
def without (outcome : String → Outcome) (n : String) (rs : List Resource) : List Resource :=
  if (outcome n).gone then rs.filter (·.backendName ≠ n) else rs

theorem survivors_cons (n : String) (names : List String) (rs : List Resource) :
    survivors outcome names (without outcome n rs) = survivors outcome (n :: names) rs := by
  unfold survivors without
  by_cases hgone : (outcome n).gone = true
  · rw [if_pos hgone, List.filter_filter]
    refine List.filter_congr fun x _ => ?_
    by_cases hx : x.backendName = n
    · simp [hx, hgone]
    · simp [hx]
  · rw [if_neg hgone]
    refine List.filter_congr fun x _ => ?_
    by_cases hx : x.backendName = n
    · simp [hx, hgone]
    · simp [hx]

/-- What the loop leaves and reports. -/
theorem exec_cleanupLoop (rs : List Resource) {s : State} (hs : (w run).state = some s) :
    (cleanupLoop run rs).exec (handler outcome) w =
      (.ok ((rs.filter fun r => (outcome r.backendName).result.isOk).map (·.backendName),
          rs.filterMap fun r => (outcome r.backendName).message.map fun text => (r.backendName, text)),
        Function.update w run { w run with
          state := some { s with resources := survivors outcome (rs.map (·.backendName)) s.resources }
          destroys := (w run).destroys ++ rs.map fun r => (r.kind, r.backendName, r.metadata) }) := by
  induction rs generalizing w s with
  | nil =>
    have hall : survivors outcome [] s.resources = s.resources := by simp [survivors]
    have hsame : ({ w run with
        state := some { s with resources := survivors outcome [] s.resources }
        destroys := (w run).destroys ++ [] } : RunDir) = w run := by
      rw [hall, List.append_nil, ← hs]
    rw [List.map_nil, List.map_nil, hsame, Function.update_eq_self]
    rfl
  | cons r rs ih =>
    simp only [cleanupLoop, Prog.bind_eq_bind, Prog.exec_bind, Prog.exec_attempt, exec_cleanupResource,
      Prog.andThen_ok]
    -- The ledger the rest of the loop finds.
    have hstate : (if (outcome r.backendName).gone = true then
        (some s).map (·.removeResource r.backendName) else some s) =
        some { s with resources := without outcome r.backendName s.resources } := by
      unfold without
      split_ifs <;> rfl
    have hrest := ih (w := Function.update w run { w run with
        state := some { s with resources := without outcome r.backendName s.resources }
        destroys := (w run).destroys ++ [(r.kind, r.backendName, r.metadata)] })
      (s := { s with resources := without outcome r.backendName s.resources })
      (by rw [Function.update_self])
    rw [hs, hstate, hrest, Prog.andThen_ok, Function.update_self, Function.update_idem]
    dsimp only
    rw [survivors_cons]
    cases hresult : (outcome r.backendName).result with
    | ok _ =>
      have hmessage : (outcome r.backendName).message = none := by
        rw [Outcome.message, hresult]
      have hok : (outcome r.backendName).result.isOk = true := by
        rw [hresult]
        rfl
      simp [hok, hmessage]
    | error e =>
      have hmessage : (outcome r.backendName).message = some e.text := by
        rw [Outcome.message, hresult]
      have hok : ¬ (outcome r.backendName).result.isOk = true := by
        rw [hresult]
        simp [Except.isOk, Except.toBool]
      simp [hok, hmessage]

/-- The names that are reported as destroyed. -/
def destroyedOf (outcome : String → Outcome) (s : State) : List String :=
  (s.resources.reverse.filter fun r => (outcome r.backendName).result.isOk).map (·.backendName)

/-- What is reported as raised. -/
def errorsOf (outcome : String → Outcome) (s : State) : List (String × String) :=
  s.resources.reverse.filterMap fun r =>
    (outcome r.backendName).message.map fun text => (r.backendName, text)

/-- What stays in the ledger. -/
def remainingOf (outcome : String → Outcome) (s : State) : List Resource :=
  s.resources.filter fun r => !(outcome r.backendName).gone

/-- The calls to the backend. -/
def callsOf (s : State) : List (String × String × Dict) :=
  s.resources.reverse.map fun r => (r.kind, r.backendName, r.metadata)

theorem survivors_all (s : State) :
    survivors outcome (s.resources.reverse.map (·.backendName)) s.resources = remainingOf outcome s := by
  refine List.filter_congr fun x hx => ?_
  have hmem : x.backendName ∈ s.resources.reverse.map (·.backendName) :=
    List.mem_map_of_mem (List.mem_reverse.mpr hx)
  rw [decide_eq_true hmem, Bool.and_true]

/-- Where nothing raised, nothing stays. -/
theorem remainingOf_of_errorsOf {s : State} (h : errorsOf outcome s = []) : remainingOf outcome s = [] := by
  rw [remainingOf, List.filter_eq_nil_iff]
  intro r hr
  have hnone := List.filterMap_eq_nil_iff.mp h r (List.mem_reverse.mpr hr)
  have hmessage : (outcome r.backendName).message.isSome = false := by
    rw [Option.map_eq_none_iff.mp hnone]
    rfl
  have hok : (outcome r.backendName).result.isOk = true := by
    rw [Outcome.message_isSome] at hmessage
    simpa using hmessage
  simp [Outcome.gone_eq, hok]

/-- The ledger a call leaves. -/
def stateAfter (outcome : String → Outcome) (s : State) : Option State :=
  if errorsOf outcome s = [] then none
  else some { s with
    phase := (if remainingOf outcome s = [] then Phase.done else Phase.cleanup).name
    resources := remainingOf outcome s }

/-- The end of a cleanup, in the world the loop leaves. -/
theorem exec_finalize {s : State} (hs : (w run).state = some { s with
      phase := Phase.cleanup.name, resources := remainingOf outcome s }) :
    (finalize run (remainingOf outcome s) (errorsOf outcome s)).exec (handler outcome) w =
      (.ok (), Function.update w run { w run with state := stateAfter outcome s }) := by
  unfold finalize stateAfter
  by_cases herrors : errorsOf outcome s = []
  · -- Nothing raised: the run is done and removed.
    have hnone := remainingOf_of_errorsOf herrors
    simp only [hnone, herrors, List.isEmpty_nil, Bool.and_self, if_true, Prog.bind_eq_bind, Prog.exec_bind,
      exec_setPhase, Prog.andThen_ok, exec_remove, Function.update_self, Function.update_idem]
  · have hempty : (errorsOf outcome s).isEmpty = false := by simpa using herrors
    rw [hempty, Bool.and_false, if_neg (by decide), if_neg herrors]
    by_cases hremaining : remainingOf outcome s = []
    · rw [hremaining] at hs ⊢
      rw [if_pos (by rfl), if_pos rfl, exec_setPhase, hs]
      rfl
    · rw [if_neg (by simpa using hremaining), if_neg hremaining, ← hs, Function.update_eq_self]
      rfl

theorem exec_cleanupLedger {s : State} (hs : (w run).state = some s) :
    (cleanupLedger run s).exec (handler outcome) w =
      (.ok ⟨run, destroyedOf outcome s, [], errorsOf outcome s⟩, Function.update w run { w run with
        state := stateAfter outcome s
        destroys := (w run).destroys ++ callsOf s }) := by
  have hdisconnect : ∀ w, ((disconnect run).exec (handler outcome) w).1 = .ok () := fun w => rfl
  -- The loop starts from the ledger in the cleanup phase.
  have hloop : (cleanupLoop run s.resources.reverse).exec (handler outcome) (Function.update w run
      { w run with state := some { s with phase := Phase.cleanup.name } }) =
      (.ok (destroyedOf outcome s, errorsOf outcome s), Function.update w run { w run with
        state := some { s with phase := Phase.cleanup.name, resources := remainingOf outcome s }
        destroys := (w run).destroys ++ callsOf s }) := by
    refine (exec_cleanupLoop s.resources.reverse
      (s := { s with phase := Phase.cleanup.name }) (by rw [Function.update_self])).trans ?_
    rw [Function.update_self, Function.update_idem, survivors_all]
    rfl
  -- The end reads the ledger the loop left.
  have hfinalize : (finalize run (remainingOf outcome s) (errorsOf outcome s)).exec (handler outcome)
      (Function.update w run { w run with
        state := some { s with phase := Phase.cleanup.name, resources := remainingOf outcome s }
        destroys := (w run).destroys ++ callsOf s }) =
      (.ok (), Function.update w run { w run with
        state := stateAfter outcome s
        destroys := (w run).destroys ++ callsOf s }) := by
    rw [exec_finalize (by rw [Function.update_self]), Function.update_self, Function.update_idem]
  simp only [cleanupLedger, Prog.bind_eq_bind, Prog.exec_bind, exec_instantiate, exec_connect,
    Prog.andThen_ok, Prog.exec_tryFinally hdisconnect, exec_setPhase, hs, Option.map_some, hloop,
    exec_disconnect]
  rw [exec_read (by rw [Function.update_self]), Prog.andThen_ok, Prog.exec_bind]
  dsimp only
  rw [hfinalize]
  rfl

/-- **One call**: what it reports, and what it leaves. -/
theorem exec_cleanupRun {s : State} (hs : (w run).state = some s) (hdead : (w run).owned = false) :
    (cleanupRun run false).exec (handler outcome) w =
      (.ok ⟨run, destroyedOf outcome s, [], errorsOf outcome s⟩, Function.update w run { w run with
        state := stateAfter outcome s
        destroys := (w run).destroys ++ callsOf s }) := by
  simp only [cleanupRun, Prog.bind_eq_bind, Prog.exec_bind, exec_stateExists, hs, Option.isSome_some,
    Prog.andThen_ok, if_true, exec_requireDead hdead, exec_read hs, Bool.false_eq_true, if_false]
  by_cases hempty : s.resources.isEmpty = true
  · -- An empty ledger: nothing to report, and nothing to keep.
    have hnil : s.resources = [] := by simpa using hempty
    have herrors : errorsOf outcome s = [] := by rw [errorsOf, hnil]; rfl
    have hdestroyed : destroyedOf outcome s = [] := by rw [destroyedOf, hnil]; rfl
    have hcalls : callsOf s = [] := by rw [callsOf, hnil]; rfl
    rw [if_pos hempty, herrors, hdestroyed, hcalls, stateAfter, if_pos herrors, List.append_nil]
    simp only [reclaim, Prog.bind_eq_bind, Prog.exec_bind, exec_setPhase, exec_remove, Prog.andThen_ok,
      Function.update_self, Function.update_idem]
    rfl
  · rw [if_neg hempty]
    exact exec_cleanupLedger hs

/-- A dry run changes nothing. -/
theorem exec_dryRun : ((cleanupRun run true).exec (handler outcome) w).2 = w := by
  simp only [cleanupRun, Prog.bind_eq_bind, Prog.exec_bind, exec_stateExists, Prog.andThen_ok]
  cases hs : (w run).state with
  | none => rfl
  | some s =>
    cases hdead : (w run).owned with
    | true =>
      obtain ⟨e, hlocked⟩ := exec_requireDead_locked outcome hdead
      simp only [Option.isSome_some, if_true, Prog.exec_bind, hlocked, Prog.andThen_error]
    | false =>
      simp only [Option.isSome_some, if_true, Prog.exec_bind, exec_requireDead hdead, exec_read hs,
        Prog.andThen_ok]
      rfl

/-! ### Accounts -/

/-- The names reported as raised. -/
theorem errorsOf_names (s : State) : (errorsOf outcome s).map (·.1) =
    (s.resources.reverse.filter fun r => !(outcome r.backendName).result.isOk).map (·.backendName) := by
  rw [errorsOf]
  induction s.resources.reverse with
  | nil => rfl
  | cons r rs ih =>
    have hmessage := Outcome.message_isSome (outcome r.backendName)
    cases hr : (outcome r.backendName).message with
    | none =>
      rw [hr] at hmessage
      simp only [List.filterMap_cons, hr, Option.map_none, List.filter_cons, ← hmessage, Option.isSome_none,
        Bool.false_eq_true, if_false, ih]
    | some text =>
      rw [hr] at hmessage
      simp only [List.filterMap_cons, hr, Option.map_some, List.filter_cons, ← hmessage, Option.isSome_some,
        if_true, List.map_cons, ih]

/-- Every name is reported once. -/
theorem reported_perm (s : State) : (destroyedOf outcome s ++ (errorsOf outcome s).map (·.1)).Perm
    (s.resources.map (·.backendName)) := by
  rw [errorsOf_names, destroyedOf, ← List.map_append]
  refine List.Perm.map _ ((List.filter_append_perm _ _).trans ?_)
  exact List.reverse_perm _

/-- The ledger keeps what is reported as raised, less what a raising `forget` lost. -/
theorem remainingOf_eq (s : State) : remainingOf outcome s = s.resources.filter fun r =>
    decide (r.backendName ∈ (errorsOf outcome s).map (·.1)) && !(outcome r.backendName).lost := by
  refine List.filter_congr fun r hr => ?_
  have hmem : r.backendName ∈ (errorsOf outcome s).map (·.1) ↔
      (outcome r.backendName).result.isOk = false := by
    rw [errorsOf_names, List.mem_map]
    constructor
    · rintro ⟨x, hx, hname⟩
      rw [← hname]
      simpa using (List.mem_filter.mp hx).2
    · intro hraised
      exact ⟨r, List.mem_filter.mpr ⟨List.mem_reverse.mpr hr, by simpa using hraised⟩, rfl⟩
  rw [Outcome.gone_eq, Bool.not_or]
  congr 1
  cases hok : (outcome r.backendName).result.isOk <;> simp [hmem, hok]

/-! ### Repeated calls -/

/-- The resources a run directory records. -/
def RunDir.ledger (d : RunDir) : List Resource := d.state.elim [] (·.resources)

/-- The run directories after a call with each of these outcomes. -/
def after (run : String) (calls : List (String → Outcome)) (w : Root) : Root :=
  calls.foldl (fun w outcome => ((cleanupRun run false).exec (handler outcome) w).2) w

theorem after_concat (calls : List (String → Outcome)) : after run (calls ++ [outcome]) w =
    ((cleanupRun run false).exec (handler outcome) (after run calls w)).2 := by
  rw [after, List.foldl_append]
  rfl

/-- A run that has no ledger is left as it is. -/
theorem exec_cleanupRun_none (hs : (w run).state = none) :
    ((cleanupRun run false).exec (handler outcome) w).2 = w := by
  simp only [cleanupRun, Prog.bind_eq_bind, Prog.exec_bind, exec_stateExists, hs, Option.isSome_none,
    Prog.andThen_ok, Bool.false_eq_true, if_false]
  rfl

theorem ledger_stateAfter (s : State) (d : RunDir) :
    RunDir.ledger { d with state := stateAfter outcome s } = remainingOf outcome s := by
  unfold stateAfter
  split_ifs with herrors
  · exact (remainingOf_of_errorsOf herrors).symm
  · rfl
  · rfl

/-- A call leaves a run without an owner, and a part of its ledger. -/
theorem call_shrinks (hdead : (w run).owned = false) :
    (((cleanupRun run false).exec (handler outcome) w).2 run).owned = false ∧
      (((cleanupRun run false).exec (handler outcome) w).2 run).ledger.Sublist (w run).ledger := by
  cases hs : (w run).state with
  | none =>
    rw [exec_cleanupRun_none hs]
    exact ⟨hdead, List.Sublist.refl _⟩
  | some s =>
    rw [exec_cleanupRun hs hdead]
    dsimp only
    rw [Function.update_self]
    refine ⟨hdead, ?_⟩
    rw [ledger_stateAfter s { w run with destroys := (w run).destroys ++ callsOf s }, RunDir.ledger, hs]
    exact List.filter_sublist

/-- A call whose destroys and forgets are all answered ends the run. -/
theorem call_ends (hdead : (w run).owned = false)
    (hok : ∀ r ∈ (w run).ledger, (outcome r.backendName).result.isOk = true) :
    (((cleanupRun run false).exec (handler outcome) w).2 run).state = none := by
  cases hs : (w run).state with
  | none =>
    rw [exec_cleanupRun_none hs]
    exact hs
  | some s =>
    rw [RunDir.ledger, hs] at hok
    have herrors : errorsOf outcome s = [] := by
      refine List.filterMap_eq_nil_iff.mpr fun r hr => ?_
      have hmessage := Outcome.message_isSome (outcome r.backendName)
      rw [hok r (List.mem_reverse.mp hr)] at hmessage
      have hnone : (outcome r.backendName).message = none := by simpa using hmessage
      rw [hnone]
      rfl
    rw [exec_cleanupRun hs hdead]
    dsimp only
    rw [Function.update_self]
    exact if_pos herrors

theorem owned_after (hdead : (w run).owned = false) (calls : List (String → Outcome)) :
    (after run calls w run).owned = false := by
  induction calls generalizing w with
  | nil => exact hdead
  | cons outcome calls ih => exact ih (call_shrinks hdead).1

end Exec

/-! ### Sweeps -/

section Sweep

variable {W : Type} {h : Prog.Handler cleanupSig Exc W} {x x' : W} {run : String} {result : CleanupResult}

/-- What a ledger's cleanup returns carries the name of its run. -/
theorem runId_cleanupLedger {s : State} (hresult : (cleanupLedger run s).exec h x = (.ok result, x')) :
    result.runId = run := by
  simp only [cleanupLedger, Prog.bind_eq_bind, Prog.exec_bind, Prog.andThen_eq_ok] at hresult
  obtain ⟨_, _, -, _, _, -, _, _, -, _, _, -, _, _, -, hend⟩ := hresult
  cases hend
  rfl

/-- What a cleanup returns carries the name of its run. -/
theorem runId_cleanupRun {dryRun : Bool} (hresult : (cleanupRun run dryRun).exec h x = (.ok result, x')) :
    result.runId = run := by
  simp only [cleanupRun, Prog.bind_eq_bind, Prog.exec_bind, Prog.andThen_eq_ok] at hresult
  obtain ⟨found, x₁, -, hrest⟩ := hresult
  cases found with
  | false => cases hrest
  | true =>
    simp only [if_true, Prog.exec_bind, Prog.andThen_eq_ok] at hrest
    obtain ⟨_, x₂, -, s, x₃, -, hrest⟩ := hrest
    cases dryRun with
    | true =>
      cases hrest
      rfl
    | false =>
      rw [if_neg (by decide)] at hrest
      split_ifs at hrest
      · simp only [reclaim, Prog.bind_eq_bind, Prog.exec_bind, Prog.andThen_eq_ok] at hrest
        obtain ⟨_, _, -, _, _, -, hend⟩ := hrest
        cases hend
        rfl
      · exact runId_cleanupLedger hrest

variable (h x) in
/-- A sweep returns a result for every run directory, whatever the calls do. -/
theorem exec_cleanupAll (dryRun : Bool) (dirs : List String) :
    ∃ results, ((cleanupAll dryRun dirs).exec h x).1 = .ok results ∧ results.map (·.runId) = dirs := by
  induction dirs generalizing x with
  | nil => exact ⟨[], rfl, rfl⟩
  | cons run runs ih =>
    simp only [cleanupAll, Prog.bind_eq_bind, Prog.exec_bind, Prog.exec_tryCatch]
    rcases hrun : (cleanupRun run dryRun).exec h x with ⟨e | result, x₁⟩
    · -- What the run raised is its result.
      obtain ⟨results, hresults, hnames⟩ := ih x₁
      rcases hrest : (cleanupAll dryRun runs).exec h x₁ with ⟨r, x₂⟩
      rw [hrest] at hresults
      cases hresults
      refine ⟨failed run e :: results, ?_, ?_⟩
      · simp [hrest]
      · rw [List.map_cons, hnames]
        cases e <;> rfl
    · obtain ⟨results, hresults, hnames⟩ := ih x₁
      rcases hrest : (cleanupAll dryRun runs).exec h x₁ with ⟨r, x₂⟩
      rw [hrest] at hresults
      cases hresults
      refine ⟨result :: results, ?_, ?_⟩
      · simp [hrest]
      · rw [List.map_cons, hnames, runId_cleanupRun hrun]

end Sweep

/-- What one call reports and leaves, for a ledger `s` that has no owner. -/
structure Accounted (outcome : String → Outcome) (run : String) (s : State) (w w' : Root)
    (result : CleanupResult) : Prop where
  /-- every resource is destroyed once, the last recorded first -/
  destroys : (w' run).destroys = (w run).destroys ++ callsOf s
  /-- every name is in one of the two lists, once -/
  reported : (result.destroyed ++ result.errors.map (·.1)).Perm (s.resources.map (·.backendName))
  once : (result.destroyed ++ result.errors.map (·.1)).Nodup
  /-- the ledger keeps what raised, less what a raising `forget` lost -/
  kept : (w' run).ledger = s.resources.filter fun r =>
    decide (r.backendName ∈ result.errors.map (·.1)) && !(outcome r.backendName).lost
  removed : (w' run).state = none ↔ result.errors = []
  /-- no other run is touched -/
  others : ∀ other ≠ run, w' other = w other

/-- **Cleanup accounts for every resource and converges.** -/
theorem cleanup_accounts {run : String} {w : Root} {s : State} (hs : (w run).state = some s)
    (hdead : (w run).owned = false) (hnames : (s.resources.map (·.backendName)).Nodup) :
    (∀ outcome, ∃ result w', (cleanupRun run false).exec (handler outcome) w = (.ok result, w') ∧
      Accounted outcome run s w w' result) ∧
    (∀ calls outcome,
      (after run (calls ++ [outcome]) w run).ledger.Sublist (after run calls w run).ledger ∧
      ((∀ r ∈ (after run calls w run).ledger, (outcome r.backendName).result.isOk = true) →
        (after run (calls ++ [outcome]) w run).state = none)) ∧
    (∀ outcome, ((cleanupRun run true).exec (handler outcome) w).2 = w) ∧
    ∀ (W : Type) (h : Prog.Handler cleanupSig Exc W) (x : W) (dryRun : Bool) (dirs : List String),
      ∃ results, ((cleanupAll dryRun dirs).exec h x).1 = .ok results ∧ results.map (·.runId) = dirs := by
  refine ⟨fun outcome => ?_, fun calls outcome => ?_, fun outcome => exec_dryRun,
    fun W h x dryRun dirs => exec_cleanupAll h x dryRun dirs⟩
  · refine ⟨_, _, exec_cleanupRun hs hdead, ?_⟩
    refine ⟨?_, reported_perm s, (reported_perm s).nodup_iff.mpr hnames, ?_, ?_, ?_⟩
    · rw [Function.update_self]
    · rw [Function.update_self, ← remainingOf_eq]
      exact ledger_stateAfter s { w run with destroys := (w run).destroys ++ callsOf s }
    · rw [Function.update_self]
      show stateAfter outcome s = none ↔ errorsOf outcome s = []
      unfold stateAfter
      split_ifs with herrors <;> simp [herrors]
    · intro other hother
      exact Function.update_of_ne hother _ _
  · -- Every call finds the run without an owner.
    have howned := owned_after hdead calls
    rw [after_concat]
    exact ⟨(call_shrinks howned).2, call_ends howned⟩

/-! ### Runs whose owner died -/

namespace Orphan

/-- The resource of a virtual machine. -/
def machine : Resource := ⟨"vm", "tr-web-1", some "web", "2024-01-01T00:00:00Z", none, .empty⟩

/-- A ledger that records it. -/
def ledger : State :=
  ⟨1, "run-1", "plan", "LibvirtDriver", "qemu:///system", "run", "2024-01-01T00:00:00Z", [machine], []⟩

/-- The run directories: one, whose owner died. -/
def root : Root := fun _ => ⟨some ledger, false, []⟩

/-- The resources of a run with a network, a disk and a machine, in the order they were recorded. -/
def network : Resource := ⟨"network", "tr-net-1", some "net", "2024-01-01T00:00:00Z", none, .empty⟩

def disk : Resource := ⟨"volume", "tr-disk-1", some "disk", "2024-01-01T00:00:00Z", none, .empty⟩

def three : State := { ledger with resources := [network, disk, machine] }

def rootOfThree : Root := fun _ => ⟨some three, false, []⟩

/-- The machine is destroyed, destroying the disk raises, and forgetting the network raises once the
ledger is replaced. -/
def mixed : String → Outcome
  | "tr-disk-1" => ⟨.error (.other "busy"), .ok (), false⟩
  | "tr-net-1" => ⟨.ok (), .error (.other "sync"), true⟩
  | _ => ⟨.ok (), .ok (), false⟩

/-- The disk stays recorded; the network is reported and no longer recorded.  A second call, in which
nothing raises, removes what is left. -/
theorem accounts_mixed : ∃ result w', (cleanupRun "run-1" false).exec (handler mixed) rootOfThree =
      (.ok result, w') ∧ Accounted mixed "run-1" three rootOfThree w' result ∧
    result.destroyed = ["tr-web-1"] ∧ result.errors.map (·.1) = ["tr-disk-1", "tr-net-1"] ∧
    ( w' "run-1").ledger = [disk] ∧
    (after "run-1" [mixed, fun _ => ⟨.ok (), .ok (), false⟩] rootOfThree "run-1").state = none := by
  have hstate : (rootOfThree "run-1").state = some three := rfl
  have hnames : (three.resources.map (·.backendName)).Nodup := by decide
  obtain ⟨hone, hmore, -⟩ := cleanup_accounts hstate rfl hnames
  obtain ⟨result, w', hexec, haccounted⟩ := hone mixed
  have hcomputed : (cleanupRun "run-1" false).exec (handler mixed) rootOfThree = (.ok _, _) := rfl
  obtain ⟨hresult, rfl⟩ := Prod.mk.inj (hexec.symm.trans hcomputed)
  cases hresult
  exact ⟨_, _, hexec, haccounted, rfl, rfl, rfl, (hmore [mixed] _).2 fun _ _ => rfl⟩

/-- A `forget` that raises once the ledger is replaced: the machine is reported as raised and is
not in the ledger.  One that raises before: every destroy succeeded, and the ledger stays. -/
theorem forget_raises :
    (∃ result left, (cleanupRun "run-1" false).exec
        (handler fun _ => ⟨.ok (), .error (.other "sync"), true⟩) root = (.ok result, left) ∧
      result.errors.map (·.1) = ["tr-web-1"] ∧ (left "run-1").ledger = []) ∧
    ∃ result left, (cleanupRun "run-1" false).exec
        (handler fun _ => ⟨.ok (), .error (.other "disk full"), false⟩) root = (.ok result, left) ∧
      result.errors.map (·.1) = ["tr-web-1"] ∧ (left "run-1").state ≠ none := by
  constructor
  · exact ⟨_, _, rfl, rfl, rfl⟩
  · refine ⟨_, _, rfl, rfl, ?_⟩
    exact Option.some_ne_none _

end Orphan

end Cleanup

end TestRange
