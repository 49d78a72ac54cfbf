/-
Who owns a run.

`state.lock` is locked by the process that owns the run.  A cleanup probes that lock and
drops it again before it acts, and the end of a run unlinks the file; `flock` holds per
inode and is released by the kernel when the process dies.

* `Ownership.isRunning`, `Ownership.acquireLock`, `Ownership.initializeRun`, `Ownership.reopen`,
  `Ownership.remove`, `Ownership.forgetRun` — the methods as programs of single file
  operations; `Ownership.impl` does the calls of a cleanup by such programs;
* `Ownership.sem` — what an operation of a process does to the run directory;
* `Ownership.system` — the processes that run them.
-/
import Mathlib.Data.Fintype.Prod
import TestRange.Lib.Threads
import TestRange.State.Cleanup

namespace TestRange

namespace Ownership

open Cleanup (Exc CleanupResult)

/-! ### Operations -/

/-- What the lock file is opened for. -/
inductive Use
  /-- `_acquire_lock`, kept in `_lock_fd` -/
  | own
  /-- `is_running` -/
  | probe
  deriving DecidableEq

inductive Op
  | mkdir
  | isDir
  | stateExists
  | openLock (use : Use)
  | flock (use : Use)
  | unlock (use : Use)
  | close (use : Use)
  /-- `self._lock_fd is not None` -/
  | hasLock
  /-- `self._lock_fd = fd` -/
  | keepLock
  /-- `self._lock_fd = None` -/
  | dropLock
  | writePid
  | unlinkPid
  | readState
  | writeState (s : State)
  | unlinkState
  | unlinkLock
  | unlinkPartials
  | rmdir
  | instantiate (driverClass driverUri : String)
  | connect
  | disconnect
  | destroy (kind backendName : String) (metadata : Dict)

/-- Destroying a resource, rewriting the ledger and removing it. -/
def Op.acts : Op → Bool
  | .writeState _ => true
  | .unlinkState => true
  | .destroy _ _ _ => true
  | _ => false

abbrev lockSig : Sig where
  Op := Op
  Res
    | .isDir => Bool
    | .stateExists => Bool
    | .hasLock => Bool
    | .readState => State
    | _ => Unit

abbrev LockProg (α : Type) : Type := Prog lockSig Exc α

def isDir : LockProg Bool := Prog.perform (S := lockSig) .isDir

def stateExists : LockProg Bool := Prog.perform (S := lockSig) .stateExists

def hasLock : LockProg Bool := Prog.perform (S := lockSig) .hasLock

def readState : LockProg State := Prog.perform (S := lockSig) .readState

def mkdir : LockProg Unit := Prog.perform (S := lockSig) .mkdir

def openLock (use : Use) : LockProg Unit := Prog.perform (S := lockSig) (.openLock use)

def flock (use : Use) : LockProg Unit := Prog.perform (S := lockSig) (.flock use)

def unlock (use : Use) : LockProg Unit := Prog.perform (S := lockSig) (.unlock use)

def close (use : Use) : LockProg Unit := Prog.perform (S := lockSig) (.close use)

def keepLock : LockProg Unit := Prog.perform (S := lockSig) .keepLock

def dropLock : LockProg Unit := Prog.perform (S := lockSig) .dropLock

def writePid : LockProg Unit := Prog.perform (S := lockSig) .writePid

def unlinkPid : LockProg Unit := Prog.perform (S := lockSig) .unlinkPid

def writeState (s : State) : LockProg Unit := Prog.perform (S := lockSig) (.writeState s)

def unlinkState : LockProg Unit := Prog.perform (S := lockSig) .unlinkState

def unlinkLock : LockProg Unit := Prog.perform (S := lockSig) .unlinkLock

def unlinkPartials : LockProg Unit := Prog.perform (S := lockSig) .unlinkPartials

def rmdir : LockProg Unit := Prog.perform (S := lockSig) .rmdir

/-! ### Methods -/

section Methods

variable (run : String)

/-- `_acquire_lock` -/
def acquireLock : LockProg Unit := do
  if ← hasLock then pure ()
  else
    openLock .own
    (flock .own).tryCatch fun _ => do
      close .own
      throw (.locked ("run " ++ run ++ " is owned by a live process " ++
        "(state.lock held); kill it or wait for it to exit."))
    keepLock

/-- `_release_lock` -/
def releaseLock : LockProg Unit := do
  if ← hasLock then
    unlock .own
    close .own
    dropLock
  else pure ()

/-- `is_running`: the lock is taken and dropped at once. -/
def isRunning : LockProg Bool := do
  openLock .probe
  Prog.tryFinally (do
    match ← (flock .probe).attempt with
    | .error _ => pure true
    | .ok _ =>
      unlock .probe
      pure false) (close .probe)

/-- `require_dead` -/
def requireDead : LockProg Unit := do
  if ← isRunning then
    throw (.locked ("run " ++ run ++ " is owned by a live process " ++
      "(state.lock held); kill it or wait for it to exit, then re-run cleanup."))
  else pure ()

/-- `initialize`, with the state it writes. -/
def initializeRun (s : State) : LockProg Unit := do
  mkdir
  if ← stateExists then
    throw (.state ("state already exists at " ++ run ++ "/state.json; " ++
      "either resume this run or run `testrange cleanup` first"))
  else
    acquireLock run
    writePid
    writeState s

/-- `reopen` -/
def reopen : LockProg State := do
  if ← stateExists then
    requireDead run
    acquireLock run
    writePid
    readState
  else throw (.state ("no state to resume at " ++ run ++ "/state.json"))

/-- `release` -/
def release : LockProg Unit := do
  releaseLock
  unlinkPid

def unlinkLedger : LockProg Unit := do
  if ← stateExists then unlinkState else pure ()

/-- `remove` of a store that has no lock to release. -/
def removeFiles : LockProg Unit := do
  unlinkLedger
  unlinkPid
  unlinkLock
  unlinkPartials
  rmdir.ignore

/-- `remove` -/
def remove : LockProg Unit := do
  releaseLock
  removeFiles

/-- `set_phase` and `forget`: read, change and write. -/
def rewrite (f : State → State) : LockProg Unit := do
  let s ← readState
  writeState (f s)

/-- The calls of `cleanup_run`, on a store of its own. -/
def impl : (o : Cleanup.cleanupSig.Op) → LockProg (Cleanup.cleanupSig.Res o)
  | (_, .exists) => stateExists
  | (_, .requireDead) => requireDead run
  | (_, .read) => readState
  | (_, .setPhase phase) => rewrite fun s => { s with phase := phase.name }
  | (_, .forget n) => rewrite (·.removeResource n)
  | (_, .remove) => removeFiles
  | (_, .instantiate driverClass driverUri) =>
    Prog.perform (S := lockSig) (.instantiate driverClass driverUri)
  | (_, .connect) => Prog.perform (S := lockSig) .connect
  | (_, .disconnect) => Prog.perform (S := lockSig) .disconnect
  | (_, .destroy kind n metadata) => Prog.perform (S := lockSig) (.destroy kind n metadata)

/-- `cleanup_run` -/
def cleanupRun (dryRun : Bool) : LockProg CleanupResult :=
  (Cleanup.cleanupRun run dryRun).subst (impl run)

/-- The names in a ledger. -/
def recordedNames : LockProg (List String) := do
  let s ← readState
  pure (s.resources.map (·.backendName))

/-- What `forget_run` reports: the names in a ledger that can be read. -/
def forgottenNames : LockProg (List String) := do
  if ← stateExists then
    recordedNames.tryCatch fun
      | .other text => Prog.raise (.other text)
      | _ => Prog.ret []
  else pure []

/-- `forget_run` -/
def forgetRun : LockProg (List String) := do
  if ← isDir then
    requireDead run
    let forgotten ← forgottenNames
    removeFiles
    pure forgotten
  else throw (.state ("no run dir at " ++ run))

end Methods

/-! ### Jobs -/

/-- What a process may be doing. -/
inductive Job
  | initializeRun (s : State)
  | reopen
  | release
  | remove
  | probe
  | cleanup (dryRun : Bool)
  | forget

/-- `cleanup_run` and `forget_run`, unless nothing is to be done. -/
def Job.acts : Job → Bool
  | .cleanup dryRun => !dryRun
  | .forget => true
  | _ => false

/-- The jobs after which the process owns the run. -/
def Job.owns : Job → Bool
  | .initializeRun _ => true
  | .reopen => true
  | _ => false

def program (run : String) : Job → LockProg Unit
  | .initializeRun s => initializeRun run s
  | .reopen => (reopen run).bind fun _ => pure ()
  | .release => release
  | .remove => remove
  | .probe => isRunning.bind fun _ => pure ()
  | .cleanup dryRun => (cleanupRun run dryRun).bind fun _ => pure ()
  | .forget => (forgetRun run).bind fun _ => pure ()

/-! ### The run directory -/

/-- An open file description of the lock file. -/
structure File where
  inode : ℕ
  locked : Bool

/-- The run directory, what the processes have open, and who owns the run. -/
structure World (ι : Type) where
  /-- the directory is there -/
  dir : Bool
  /-- `state.json`: its state, or how reading it fails -/
  state : Option (Except Exc State)
  pid : Option ι
  /-- `state.lock`, and the inodes that were never used -/
  lockFile : Option ℕ
  fresh : ℕ
  files : ι × Use → Option File
  /-- `_lock_fd` is set -/
  store : ι → Bool
  /-- the process has returned from `initialize` or `reopen` and has not released since -/
  owner : ι → Bool
  /-- a probe of its job found the run without an owner -/
  cleared : ι → Bool

section Sem

variable {ι : Type} [DecidableEq ι]

/-- No other description of the inode is locked. -/
def Free (w : World ι) (x : ι × Use) (inode : ℕ) : Prop :=
  ∀ y, y ≠ x → (w.files y).all (fun g => !(g.inode == inode && g.locked)) = true

/-- `os.open(lock_path, O_CREAT | O_RDWR)` -/
def opened (w : World ι) (x : ι × Use) : World ι :=
  { w with
    files := Function.update w.files x (some ⟨w.lockFile.getD w.fresh, false⟩)
    lockFile := some (w.lockFile.getD w.fresh)
    fresh := if w.lockFile.isSome then w.fresh else w.fresh + 1 }

/-- A lock that is taken. -/
def locked (w : World ι) (p : ι) (use : Use) (f : File) : World ι :=
  { w with
    files := Function.update w.files (p, use) (some { f with locked := true })
    cleared := if use = .probe then Function.update w.cleared p true else w.cleared }

/-- Ownership ends with the lock. -/
def disowned (w : World ι) (p : ι) (use : Use) : ι → Bool :=
  if use = .own then Function.update w.owner p false else w.owner

/-- What an operation of a process answers and does.  Every operation may raise before it has
taken effect, save those on a lock that is held and on the fields of the store; a write of
the state may also raise after. -/
def sem (p : ι) : Prog.Sem lockSig Exc (World ι)
  | .hasLock, w, r, w' => r = .ok (w.store p) ∧ w' = w
  | .keepLock, w, r, w' => r = .ok () ∧ w' = { w with store := Function.update w.store p true }
  | .dropLock, w, r, w' => r = .ok () ∧ w' = { w with store := Function.update w.store p false }
  | .unlock use, w, r, w' => r = .ok () ∧ w' = { w with
      files := Function.update w.files (p, use) ((w.files (p, use)).map fun f => { f with locked := false })
      owner := disowned w p use }
  | .close use, w, r, w' => r = .ok () ∧ w' = { w with
      files := Function.update w.files (p, use) none
      owner := disowned w p use }
  | .mkdir, w, r, w' => (∃ e, r = .error e ∧ w' = w) ∨ r = .ok () ∧ w' = { w with dir := true }
  | .isDir, w, r, w' => (∃ e, r = .error e ∧ w' = w) ∨ r = .ok w.dir ∧ w' = w
  | .stateExists, w, r, w' => (∃ e, r = .error e ∧ w' = w) ∨ r = .ok w.state.isSome ∧ w' = w
  | .openLock use, w, r, w' => (∃ e, r = .error e ∧ w' = w) ∨
      w.dir = true ∧ r = .ok () ∧ w' = opened w (p, use)
  | .flock use, w, r, w' => (∃ e, r = .error e ∧ w' = w) ∨
      ∃ f, w.files (p, use) = some f ∧ Free w (p, use) f.inode ∧ r = .ok () ∧ w' = locked w p use f
  | .writePid, w, r, w' => (∃ e, r = .error e ∧ w' = w) ∨ r = .ok () ∧ w' = { w with pid := some p }
  | .unlinkPid, w, r, w' => (∃ e, r = .error e ∧ w' = w) ∨ r = .ok () ∧ w' = { w with pid := none }
  | .readState, w, r, w' => ((∃ e, r = .error e) ∨ w.state = some r) ∧ w' = w
  | .writeState s, w, r, w' => (∃ e, r = .error e ∧ w' = w) ∨
      w.dir = true ∧ w' = { w with state := some (.ok s) }
  | .unlinkState, w, r, w' => (∃ e, r = .error e ∧ w' = w) ∨ r = .ok () ∧ w' = { w with state := none }
  | .unlinkLock, w, r, w' => (∃ e, r = .error e ∧ w' = w) ∨ r = .ok () ∧ w' = { w with lockFile := none }
  | .rmdir, w, r, w' => (∃ e, r = .error e ∧ w' = w) ∨
      w.state = none ∧ w.pid = none ∧ w.lockFile = none ∧ r = .ok () ∧ w' = { w with dir := false }
  | _, w, _, w' => w' = w

/-- The processes.  A job starts with no probe made; one that takes the lock makes its process
the owner when it returns; the kernel closes the files of a process that dies. -/
def system (run : String) : System lockSig Exc ι Job (World ι) where
  program := program run
  sem := sem
  starts p _ w := { w with cleared := Function.update w.cleared p false }
  ends p j r w :=
    match r with
    | .ok _ => { w with owner := if j.owns then Function.update w.owner p true else w.owner }
    | .error _ => w
  dies p w := { w with
    files := fun x => if x.1 = p then none else w.files x
    store := Function.update w.store p false
    owner := Function.update w.owner p false }

end Sem

end Ownership

end TestRange
