/-
The state store: read, change and rewrite one file under a lock.

Every mutation of the ledger is a method of the store that takes the lock, reads and
decodes `state.json`, applies a pure update and writes the result through
`state.json.partial` and a rename.  The methods are modelled as programs of single
file operations, run by any number of threads in any interleaving; a crash is a run
that simply stops, so whatever holds after every prefix holds at every crash point.

* `Store.Reachable` — the configurations threads can bring a store to;
* `Store.reachable_inv` — the invariant: the file holds the text of the state
  that the finished mutations lead to, in the order they took the lock, and a
  thread inside the lock knows what the file and the temporary file hold;
* `Store.linearizable` — what is found on disk at any time is the result of the
  completed mutations, with or without the one in flight, and every call that has
  ended is one of them in its place;
* `Store.runs_method` — a call that nothing disturbs returns.
-/
import Mathlib.Data.List.ModifyLast
import Mathlib.Logic.Relation
import TestRange.Lib.BigStep
import TestRange.State.Schema

namespace TestRange

/-! ### Mutations -/

/-- A mutating method of the store with its arguments; `now` is the clock reading
the method takes. -/
inductive Mutation
  | recordIntent (kind backendName : String) (planName : Option String) (metadata : Dict)
      (now : String)
  | confirm (backendName : String) (metadata : Dict) (now : String)
  | forget (backendName : String)
  | setPhase (phase : String)
  | markNodeMaterialized (name now : String)
  | markNodeRealized (name now : String)

namespace Mutation

/-- What a mutation makes of the state it reads. -/
def apply : Mutation → State → Except StateError State
  | recordIntent kind backendName planName metadata now, s =>
    .ok (s.withResource
      { kind, backendName, planName, intentAt := now, outcomeAt := none, metadata })
  | confirm backendName metadata now, s =>
    match s.resources.find? (·.backendName = backendName) with
    | some r => s.replaceResource backendName (r.withOutcome now metadata)
    | none => .error (.unknown backendName)
  | forget backendName, s => .ok (s.removeResource backendName)
  | setPhase phase, s => .ok { s with phase }
  | markNodeMaterialized name now, s =>
    let prior := (s.nodeRecord name).getD ⟨name, none, none⟩
    .ok (s.withNodeRecord { prior with materializedAt := some now })
  | markNodeRealized name now, s =>
    let prior := (s.nodeRecord name).getD ⟨name, none, none⟩
    .ok (s.withNodeRecord { prior with realizedAt := some now })

/-- Mutations whose metadata is read back exactly. -/
def Plain : Mutation → Prop
  | recordIntent _ _ _ metadata _ => metadata.Plain
  | confirm _ metadata _ => metadata.Plain
  | _ => True

/-- A mutation keeps the state one whose text is read back exactly. -/
theorem Plain.apply {m : Mutation} (hm : m.Plain) {s s' : State} (hs : s.Plain)
    (h : m.apply s = .ok s') : s'.Plain := by
  cases m with
  | recordIntent kind backendName planName metadata now =>
    cases h
    refine ⟨hs.version, fun r hr => ?_⟩
    rcases List.mem_append.mp hr with hr | hr
    · exact hs.resources r hr
    · rw [List.mem_singleton.mp hr]
      exact hm
  | confirm backendName metadata now =>
    simp only [Mutation.apply] at h
    split at h
    case h_2 => cases h
    case h_1 r hfind =>
    have hr : r.Plain := hs.resources r (List.mem_of_find?_eq_some hfind)
    rw [State.replaceResource] at h
    split_ifs at h
    cases h
    refine ⟨hs.version, fun r' hr' => ?_⟩
    obtain ⟨r₀, hr₀, rfl⟩ := List.mem_map.mp hr'
    split_ifs
    · exact Dict.Plain.update hr hm
    · exact hs.resources r₀ hr₀
  | forget backendName =>
    cases h
    exact ⟨hs.version, fun r hr => hs.resources r (List.mem_filter.mp hr).1⟩
  | setPhase phase =>
    cases h
    exact ⟨hs.version, hs.resources⟩
  | markNodeMaterialized name now =>
    cases h
    exact ⟨hs.version, hs.resources⟩
  | markNodeRealized name now =>
    cases h
    exact ⟨hs.version, hs.resources⟩

/-- Mutations applied one after another. -/
def applyAll (ms : List Mutation) (s : State) : Except StateError State :=
  ms.foldlM (fun s m => m.apply s) s

theorem applyAll_append_singleton (ms : List Mutation) (m : Mutation) (s : State) :
    applyAll (ms ++ [m]) s = (applyAll ms s).bind fun s' => m.apply s' := by
  rw [applyAll, List.foldlM_append]
  simp [applyAll]
  rfl

end Mutation

/-- The state `initialize` writes for a fresh run. -/
def State.initial (runId planName driverClass driverUri now : String) : State where
  schemaVersion := TestRange.schemaVersion
  runId := runId
  planName := planName
  driverClass := driverClass
  driverUri := driverUri
  phase := Phase.preflight.name
  createdAt := now
  resources := []
  nodes := []

theorem State.initial_plain (runId planName driverClass driverUri now : String) :
    (State.initial runId planName driverClass driverUri now).Plain :=
  ⟨rfl, fun _ hr => nomatch hr⟩

namespace Store

/-! ### The methods as programs of file operations -/

/-- The lock and file operations a method performs. -/
inductive FileOp
  | acquire
  | release
  /-- `state_path.exists()` -/
  | exists
  /-- `state_path.read_text()` -/
  | readText
  /-- Open `state.json.partial` for writing, which empties it. -/
  | openPartial
  /-- Write one more character to it. -/
  | append (c : Char)
  /-- Open it again, `os.fsync` it and close it. -/
  | fsync
  /-- Rename it onto `state.json`. -/
  | replace
  /-- Open the directory, `os.fsync` it and close it. -/
  | fsyncDir

/-- The store's signature: only two operations return something. -/
abbrev fileSig : Sig where
  Op := FileOp
  Res
    | .exists => Bool
    | .readText => List Char
    | _ => Unit

/-- Exceptions of the methods: the store's own, or an operating system error. -/
inductive Fault
  | state (e : StateError)
  | os

/-- A method of the store. -/
abbrev Method (α : Type) : Type := Prog fileSig Fault α

def acquire : Method Unit := Prog.perform (S := fileSig) FileOp.acquire

def release : Method Unit := Prog.perform (S := fileSig) FileOp.release

def stateExists : Method Bool := Prog.perform (S := fileSig) FileOp.exists

def readText : Method (List Char) := Prog.perform (S := fileSig) FileOp.readText

def openPartial : Method Unit := Prog.perform (S := fileSig) FileOp.openPartial

def append (c : Char) : Method Unit := Prog.perform (S := fileSig) (FileOp.append c)

def fsync : Method Unit := Prog.perform (S := fileSig) FileOp.fsync

def replace : Method Unit := Prog.perform (S := fileSig) FileOp.replace

def fsyncDir : Method Unit := Prog.perform (S := fileSig) FileOp.fsyncDir

/-- `durable_replace` -/
def durableReplace : Method Unit := do
  fsync
  replace
  fsyncDir

/-- `with self._rmw_lock:` -/
def withLock {α : Type} (body : Method α) : Method α := do
  acquire
  body.tryFinally release

/-- The answer of a pure function of the schema, its exception raised. -/
def liftState {α : Type} : Except StateError α → Method α
  | .ok a => .ret a
  | .error e => .raise (.state e)

/-- `StateStore.read`. -/
def read : Method State := do
  if ← stateExists then
    let text ← readText
    liftState (State.loads text)
  else throw (.state .missing)

/-- `_write_state_atomic`. -/
def writeStateAtomic (s : State) : Method Unit := do
  openPartial
  s.dumps.forM append
  durableReplace

/-- `confirm`: the search and the write are inside the lock, the exception for an
unknown name is raised after it. -/
def confirm (backendName : String) (metadata : Dict) (outcome : String) : Method Unit := do
  let found ← withLock do
    let s ← read
    match s.resources.find? (·.backendName = backendName) with
    | some r =>
      let s' ← liftState (s.replaceResource backendName (r.withOutcome outcome metadata))
      writeStateAtomic s'
      return true
    | none => return false
  if found then return () else throw (.state (.unknown backendName))

/-- A mutation that writes what it makes of the state it reads. -/
def readModifyWrite (f : State → State) : Method Unit :=
  withLock do
    let s ← read
    writeStateAtomic (f s)

/-- The program of each method. -/
def method : Mutation → Method Unit
  | .recordIntent kind backendName planName metadata now =>
    readModifyWrite fun s => s.withResource
      { kind, backendName, planName, intentAt := now, outcomeAt := none, metadata }
  | .confirm backendName metadata now => confirm backendName metadata now
  | .forget backendName => readModifyWrite fun s => s.removeResource backendName
  | .setPhase phase => readModifyWrite fun s => { s with phase }
  | .markNodeMaterialized name now => readModifyWrite fun s =>
    let prior := (s.nodeRecord name).getD ⟨name, none, none⟩
    s.withNodeRecord { prior with materializedAt := some now }
  | .markNodeRealized name now => readModifyWrite fun s =>
    let prior := (s.nodeRecord name).getD ⟨name, none, none⟩
    s.withNodeRecord { prior with realizedAt := some now }

/-! ### Threads -/

/-- A call that has taken the lock, in the order of the lock. -/
structure Entry (ι : Type) where
  thread : ι
  mutation : Mutation
  /-- What it has written was renamed onto `state.json`. -/
  stored : Bool
  /-- It has given the lock back. -/
  released : Bool

/-- The run directory and the lock; `log` lists the calls in the order in which they
took the lock, so that the entry of the lock's owner is the last one. -/
structure World (ι : Type) where
  stateJson : Option (List Char)
  statePartial : Option (List Char)
  lock : Option ι
  log : List (Entry ι)

/-- The calls in the order of the lock. -/
def World.order {ι : Type} (w : World ι) : List (ι × Mutation) :=
  w.log.map fun e => (e.thread, e.mutation)

variable {ι : Type} [DecidableEq ι]

/-- What an operation of thread `t`, inside a call of `m`, answers and does.  File
operations may fail before they have an effect. -/
def sem (t : ι) (m : Mutation) : Prog.Sem fileSig Fault (World ι)
  | .acquire, w, r, w' => w.lock = none ∧ r = .ok () ∧
      w' = { w with lock := some t, log := w.log ++ [⟨t, m, false, false⟩] }
  | .release, w, r, w' => r = .ok () ∧
      w' = { w with lock := none, log := w.log.modifyLast fun e => { e with released := true } }
  | .exists, w, r, w' => w' = w ∧ (r = .ok w.stateJson.isSome ∨ r = .error .os)
  | .readText, w, r, w' => w' = w ∧ ((∃ text, w.stateJson = some text ∧ r = .ok text) ∨
      r = .error .os)
  | .openPartial, w, r, w' => (r = .ok () ∧ w' = { w with statePartial := some [] }) ∨
      (r = .error .os ∧ w' = w)
  | .append c, w, r, w' =>
      (∃ text, w.statePartial = some text ∧ r = .ok () ∧
        w' = { w with statePartial := some (text ++ [c]) }) ∨
      (r = .error .os ∧ w' = w)
  | .fsync, w, r, w' => w' = w ∧ (r = .ok () ∨ r = .error .os)
  | .replace, w, r, w' =>
      (∃ text, w.statePartial = some text ∧ r = .ok () ∧
        w' = { w with
          stateJson := some text
          statePartial := none
          log := w.log.modifyLast fun e => { e with stored := true } }) ∨
      (r = .error .os ∧ w' = w)
  | .fsyncDir, w, r, w' => w' = w ∧ (r = .ok () ∨ r = .error .os)

/-- A call that has ended, and how. -/
structure Call (ι : Type) where
  thread : ι
  mutation : Mutation
  out : Except Fault Unit

/-- The threads of a process over the run directory.  A thread is idle or inside a
call, with what is left of the method's program; `ended` lists the calls that have
ended, in the order in which they did. -/
structure Config (ι : Type) where
  world : World ι
  threads : ι → Option (Mutation × Method Unit)
  ended : List (Call ι)

/-- One step of one thread. -/
inductive Step : Config ι → Config ι → Prop
  /-- A thread calls a method. -/
  | invoke {c : Config ι} (t : ι) (m : Mutation) (hm : m.Plain) (hidle : c.threads t = none) :
      Step c { c with threads := Function.update c.threads t (some (m, method m)) }
  /-- It performs its next operation. -/
  | op {c : Config ι} {t : ι} {m : Mutation} {o : FileOp}
      {k : Except Fault (fileSig.Res o) → Method Unit} {r : Except Fault (fileSig.Res o)}
      {w' : World ι} (hrun : c.threads t = some (m, .call o k)) (hsem : sem t m o c.world r w') :
      Step c { c with world := w', threads := Function.update c.threads t (some (m, k r)) }
  /-- The call returns or raises. -/
  | leave {c : Config ι} {t : ι} {m : Mutation} {out : Except Fault Unit}
      (hrun : c.threads t = some (m, .ofExcept out)) :
      Step c { c with
        threads := Function.update c.threads t none
        ended := c.ended ++ [⟨t, m, out⟩] }

/-- The configurations reached from a run directory that holds `s₀` and perhaps a
temporary file a crash has left there. -/
inductive Reachable (s₀ : State) : Config ι → Prop
  | init (tmp : Option (List Char)) :
      Reachable s₀ ⟨⟨some s₀.dumps, tmp, none, []⟩, fun _ => none, []⟩
  | step {c c' : Config ι} (h : Reachable s₀ c) (hstep : Step c c') : Reachable s₀ c'

/-- The mutations that are complete: stored, and no longer in flight, in the order of
the lock. -/
def completed (log : List (Entry ι)) : List Mutation :=
  (log.filter fun e => e.released && e.stored).map Entry.mutation

/-- The entry of a call that has ended.  A call that has returned is complete, and one
that the store has refused is not; an error of the operating system comes before the
rename or after it. -/
structure Accounts (call : Call ι) (e : Entry ι) : Prop where
  mutation : e.mutation = call.mutation
  released : e.released = true
  returned : call.out = .ok () → e.stored = true
  refused : ∀ x, call.out = .error (.state x) → e.stored = false

/-! ### What a thread knows along a method -/

/-- How far a thread has come in its method, and what it knows there. -/
inductive Pos
  /-- Before the lock. -/
  | start
  /-- Inside the lock. -/
  | holding
  /-- Inside, having read `s`. -/
  | saw (s : State)
  /-- Inside, having read `s`, with `text` in the temporary file. -/
  | staged (s : State) (text : List Char)
  /-- Inside, after the rename. -/
  | stored
  /-- After the lock. -/
  | finished (changed : Bool)

/-- The positions inside the lock. -/
def Pos.Inside : Pos → Prop
  | .start => False
  | .finished _ => False
  | _ => True

/-- Whether the file has been renamed into place. -/
def Pos.changed : Pos → Bool
  | .stored => true
  | .finished b => b
  | _ => false

/-- The protocol of a call of `m`: in which position each operation is allowed, and
where its answer leads. -/
def protocol (m : Mutation) : Prog.Logic fileSig Fault Pos where
  ok
    | .acquire, l => l = .start
    | .release, l => l.Inside
    | .exists, l => l = .holding
    | .readText, l => l = .holding
    | .openPartial, l => ∃ s, l = .saw s
    | .append _, l => ∃ s text, l = .staged s text
    | .fsync, l => ∃ s text, l = .staged s text
    | .replace, l => ∃ s s', l = .staged s s'.dumps ∧ m.apply s = .ok s'
    | .fsyncDir, l => l = .stored
  next
    | .acquire, _, r, l' => r = .ok () ∧ l' = .holding
    | .release, l, r, l' => r = .ok () ∧ l' = .finished l.changed
    | .exists, l, _, l' => l' = l
    | .readText, l, r, l' => (∃ s, s.Plain ∧ r = .ok s.dumps ∧ l' = .saw s) ∨
        (r = .error .os ∧ l' = l)
    | .openPartial, l, r, l' => (∃ s, l = .saw s ∧ r = .ok () ∧ l' = .staged s []) ∨
        (r = .error .os ∧ l' = l)
    | .append c, l, r, l' =>
        (∃ s text, l = .staged s text ∧ r = .ok () ∧ l' = .staged s (text ++ [c])) ∨
        (r = .error .os ∧ l' = l)
    | .fsync, l, _, l' => l' = l
    | .replace, l, r, l' => (r = .ok () ∧ l' = .stored) ∨ (r = .error .os ∧ l' = l)
    | .fsyncDir, l, r, l' => l' = l ∧ (r = .ok () ∨ r = .error .os)

section Wp

attribute [local irreducible] State.dumps

variable {m : Mutation} {α : Type} {E : Fault → Pos → Prop}

theorem wp_stateExists {Q : Bool → Pos → Prop} (hQ : ∀ b, Q b .holding)
    (hE : ∀ e, E e .holding) : stateExists.wp (protocol m) Q E .holding := by
  refine (Prog.wp_perform (S := fileSig) (G := protocol m) (o := FileOp.exists)).mpr ⟨rfl, ?_, ?_⟩
  · rintro b l rfl
    exact hQ b
  · rintro e l rfl
    exact hE e

theorem wp_readText {Q : List Char → Pos → Prop} (hQ : ∀ s, s.Plain → Q s.dumps (.saw s))
    (hE : ∀ e, E e .holding) : readText.wp (protocol m) Q E .holding := by
  refine (Prog.wp_perform (S := fileSig) (G := protocol m) (o := FileOp.readText)).mpr ⟨rfl, ?_, ?_⟩
  · rintro text l (⟨s, hs, htext, rfl⟩ | ⟨h, -⟩)
    · cases htext
      exact hQ s hs
    · cases h
  · rintro e l (⟨s, -, h, -⟩ | ⟨-, rfl⟩)
    · cases h
    · exact hE e

theorem wp_openPartial {s : State} {Q : Unit → Pos → Prop} (hQ : Q () (.staged s []))
    (hE : ∀ e, E e (.saw s)) : openPartial.wp (protocol m) Q E (.saw s) := by
  refine (Prog.wp_perform (S := fileSig) (G := protocol m) (o := FileOp.openPartial)).mpr ⟨⟨s, rfl⟩, ?_, ?_⟩
  · rintro ⟨⟩ l (⟨s', hl, -, rfl⟩ | ⟨h, -⟩)
    · cases hl
      exact hQ
    · cases h
  · rintro e l (⟨s', -, h, -⟩ | ⟨-, rfl⟩)
    · cases h
    · exact hE e

theorem wp_append {s : State} {text : List Char} {c : Char} {Q : Unit → Pos → Prop}
    (hQ : Q () (.staged s (text ++ [c]))) (hE : ∀ e, E e (.staged s text)) :
    (append c).wp (protocol m) Q E (.staged s text) := by
  refine (Prog.wp_perform (S := fileSig) (G := protocol m) (o := FileOp.append c)).mpr ⟨⟨s, text, rfl⟩, ?_, ?_⟩
  · rintro ⟨⟩ l (⟨s', text', hl, -, rfl⟩ | ⟨h, -⟩)
    · cases hl
      exact hQ
    · cases h
  · rintro e l (⟨s', text', -, h, -⟩ | ⟨-, rfl⟩)
    · cases h
    · exact hE e

theorem wp_fsync {s : State} {text : List Char} {Q : Unit → Pos → Prop}
    (hQ : Q () (.staged s text)) (hE : ∀ e, E e (.staged s text)) :
    fsync.wp (protocol m) Q E (.staged s text) := by
  refine (Prog.wp_perform (S := fileSig) (G := protocol m) (o := FileOp.fsync)).mpr ⟨⟨s, text, rfl⟩, ?_, ?_⟩
  · rintro ⟨⟩ l rfl
    exact hQ
  · rintro e l rfl
    exact hE e

theorem wp_replace {s s' : State} {Q : Unit → Pos → Prop} (hm : m.apply s = .ok s')
    (hQ : Q () .stored) (hE : ∀ e, E e (.staged s s'.dumps)) :
    replace.wp (protocol m) Q E (.staged s s'.dumps) := by
  refine (Prog.wp_perform (S := fileSig) (G := protocol m) (o := FileOp.replace)).mpr ⟨⟨s, s', rfl, hm⟩, ?_, ?_⟩
  · rintro ⟨⟩ l (⟨-, rfl⟩ | ⟨h, -⟩)
    · exact hQ
    · cases h
  · rintro e l (⟨h, -⟩ | ⟨-, rfl⟩)
    · cases h
    · exact hE e

theorem wp_fsyncDir {Q : Unit → Pos → Prop} (hQ : Q () .stored) (hE : E .os .stored) :
    fsyncDir.wp (protocol m) Q E .stored := by
  refine (Prog.wp_perform (S := fileSig) (G := protocol m) (o := FileOp.fsyncDir)).mpr ⟨rfl, ?_, ?_⟩
  · rintro ⟨⟩ l ⟨rfl, -⟩
    exact hQ
  · rintro e l ⟨rfl, h | h⟩
    · cases h
    · cases h
      exact hE

theorem wp_release {Q : Unit → Pos → Prop} {l : Pos} (hl : l.Inside)
    (hQ : Q () (.finished l.changed)) : release.wp (protocol m) Q E l := by
  refine (Prog.wp_perform (S := fileSig) (G := protocol m) (o := FileOp.release)).mpr ⟨hl, ?_, ?_⟩
  · rintro ⟨⟩ l' ⟨-, rfl⟩
    exact hQ
  · rintro e l' ⟨h, -⟩
    cases h

theorem wp_acquire {Q : Unit → Pos → Prop} (hQ : Q () .holding) :
    acquire.wp (protocol m) Q E .start := by
  refine (Prog.wp_perform (S := fileSig) (G := protocol m) (o := FileOp.acquire)).mpr ⟨rfl, ?_, ?_⟩
  · rintro ⟨⟩ l ⟨-, rfl⟩
    exact hQ
  · rintro e l ⟨h, -⟩
    cases h

theorem wp_read {Q : State → Pos → Prop} (hQ : ∀ s, s.Plain → Q s (.saw s))
    (hE : ∀ e l, l.Inside → l.changed = false → E e l) :
    read.wp (protocol m) Q E .holding := by
  rw [read, Prog.bind_eq_bind, Prog.wp_bind]
  refine wp_stateExists (fun there => ?_) fun e => hE e _ trivial rfl
  cases there with
  | false => exact hE _ _ trivial rfl
  | true =>
    rw [if_pos rfl, Prog.bind_eq_bind, Prog.wp_bind]
    refine wp_readText (fun s hs => ?_) fun e => hE e _ trivial rfl
    rw [State.loads_dumps hs]
    exact hQ s hs

theorem wp_appendAll {s : State} {text : List Char} {Q : PUnit → Pos → Prop}
    (hQ : Q ⟨⟩ (.staged s text)) (hE : ∀ e l, l.Inside → l.changed = false → E e l) :
    (text.forM append).wp (protocol m) Q E (.staged s []) := by
  refine Prog.wp_forM (fun done l => l = .staged s done) ?_ ?_ rfl
  · rintro done c rest - l rfl
    exact wp_append rfl fun e => hE e _ trivial rfl
  · rintro l rfl
    exact hQ

theorem wp_writeStateAtomic {s s' : State} {Q : Unit → Pos → Prop} (hm : m.apply s = .ok s')
    (hQ : Q () .stored) (hE : ∀ e l, l.Inside → l.changed = false → E e l)
    (hlate : E .os .stored) :
    (writeStateAtomic s').wp (protocol m) Q E (.saw s) := by
  simp only [writeStateAtomic, durableReplace, Prog.bind_eq_bind, Prog.wp_bind]
  refine wp_openPartial ?_ fun e => hE e _ trivial rfl
  refine wp_appendAll ?_ hE
  refine wp_fsync ?_ fun e => hE e _ trivial rfl
  refine wp_replace hm ?_ fun e => hE e _ trivial rfl
  exact wp_fsyncDir hQ hlate

theorem wp_withLock {body : Method α} {Q : α → Pos → Prop}
    (h : body.wp (protocol m) (fun a l => l.Inside ∧ Q a (.finished l.changed))
      (fun e l => l.Inside ∧ E e (.finished l.changed)) .holding) :
    (withLock body).wp (protocol m) Q E .start := by
  rw [withLock, Prog.bind_eq_bind, Prog.wp_bind]
  refine wp_acquire ?_
  rw [Prog.wp_tryFinally]
  exact Prog.wp_mono (fun a l hl => wp_release hl.1 hl.2) (fun e l hl => wp_release hl.1 hl.2) h

/-- A call that returns has changed the file. -/
def Returned (_ : Unit) (l : Pos) : Prop := l = .finished true

/-- One that raises has not, but where the directory could not be synced after the rename. -/
def Raised (x : Fault) (l : Pos) : Prop := l = .finished false ∨ (x = .os ∧ l = .finished true)

theorem wp_readModifyWrite {f : State → State} (hm : ∀ s, m.apply s = .ok (f s)) :
    (readModifyWrite f).wp (protocol m) Returned Raised .start := by
  rw [readModifyWrite]
  refine wp_withLock ?_
  rw [Prog.bind_eq_bind, Prog.wp_bind]
  have hE : ∀ (e : Fault) (l : Pos), l.Inside → l.changed = false →
      l.Inside ∧ Raised e (.finished l.changed) := fun e l hl hc => ⟨hl, .inl (by rw [hc])⟩
  have hlate : Pos.Inside .stored ∧ Raised .os (.finished (Pos.changed .stored)) :=
    ⟨trivial, .inr ⟨rfl, rfl⟩⟩
  refine wp_read (fun s _ => ?_) hE
  exact wp_writeStateAtomic (hm s) ⟨trivial, rfl⟩ hE hlate

theorem wp_confirm {backendName : String} {metadata : Dict} {now : String} :
    (confirm backendName metadata now).wp (protocol (.confirm backendName metadata now))
      Returned Raised .start := by
  have hE : ∀ (e : Fault) (l : Pos), l.Inside → l.changed = false →
      l.Inside ∧ Raised e (.finished l.changed) := fun e l hl hc => ⟨hl, .inl (by rw [hc])⟩
  have hlate : Pos.Inside .stored ∧ Raised .os (.finished (Pos.changed .stored)) :=
    ⟨trivial, .inr ⟨rfl, rfl⟩⟩
  rw [confirm, Prog.bind_eq_bind, Prog.wp_bind]
  refine wp_withLock ?_
  rw [Prog.bind_eq_bind, Prog.wp_bind]
  refine wp_read (fun s _ => ?_) hE
  split
  case h_2 => exact ⟨trivial, .inl rfl⟩
  case h_1 r hfind =>
  have hname : decide (r.backendName = backendName) = true := by
    have := List.find?_some hfind
    exact this
  have hany : s.resources.any (·.backendName = backendName) = true := by
    rw [List.any_eq_true]
    exact ⟨r, List.mem_of_find?_eq_some hfind, hname⟩
  have happly : Mutation.apply (.confirm backendName metadata now) s =
      s.replaceResource backendName (r.withOutcome now metadata) := by
    simp only [Mutation.apply, hfind]
  simp only [State.replaceResource, hany, if_true] at happly ⊢
  simp only [liftState, Prog.bind_eq_bind, Prog.bind_ret, Prog.wp_bind]
  exact wp_writeStateAtomic happly ⟨trivial, rfl⟩ hE hlate

/-- Every method follows the protocol of its mutation. -/
theorem wp_method (m : Mutation) : (method m).wp (protocol m) Returned Raised .start := by
  cases m with
  | confirm backendName metadata now => exact wp_confirm
  | _ => exact wp_readModifyWrite fun s => rfl

end Wp

/-! ### The invariant -/

/-- Where a thread stands when its method is over. -/
theorem outcome_of_wp {m : Mutation} {out : Except Fault Unit} {l : Pos}
    (h : (Prog.ofExcept out : Method Unit).wp (protocol m) Returned Raised l) :
    ∃ stored, l = .finished stored ∧ (out = .ok () → stored = true) ∧
      ∀ x, out = .error (.state x) → stored = false := by
  rcases out with x | ⟨⟩
  · rcases h with hl | ⟨rfl, hl⟩
    · exact ⟨false, hl, fun h => (nomatch h), fun _ _ => rfl⟩
    · exact ⟨true, hl, fun _ => rfl, fun _ h => nomatch h⟩
  · exact ⟨true, h, fun _ => rfl, fun _ h => nomatch h⟩

/-- What the files hold when the lock's owner is at `l`: `base` is the state of the
completed mutations, `s` the state in the file. -/
def Fits (m : Mutation) (tmp : Option (List Char)) (base s : State) : Pos → Prop
  | .saw s' => s = base ∧ s' = base
  | .staged s' text => s = base ∧ s' = base ∧ tmp = some text
  | .stored => m.apply base = .ok s
  | _ => s = base

/-- The part of the log before the lock's owner, and the owner's own entry. -/
def Owner (c : Config ι) (pos : ι → Pos) (base s : State) : Option ι → Prop
  | none => s = base ∧ ∀ e ∈ c.world.log, e.released = true
  | some t => ∃ m p pre, c.threads t = some (m, p) ∧
      c.world.log = pre ++ [⟨t, m, (pos t).changed, false⟩] ∧
      (∀ e ∈ pre, e.released = true) ∧ Fits m c.world.statePartial base s (pos t)

/-- The entry of a call of `m` that has not ended: there is none before the lock. -/
def Pos.entries (t : ι) (m : Mutation) : Pos → List (Entry ι)
  | .start => []
  | .finished b => [⟨t, m, b, true⟩]
  | l => [⟨t, m, l.changed, false⟩]

omit [DecidableEq ι] in
theorem Pos.Inside.entries {l : Pos} (h : l.Inside) (t : ι) (m : Mutation) :
    l.entries t m = [⟨t, m, l.changed, false⟩] := by
  cases l with
  | start => exact h.elim
  | finished _ => exact h.elim
  | _ => rfl

/-- The entries of a thread are those of its calls that have ended, and of the call it
is in. -/
def Accounted (ended : List (Call ι)) (log : List (Entry ι)) (t : ι) (current : Option Mutation)
    (l : Pos) : Prop :=
  ∃ mine, List.Forall₂ Accounts (ended.filter (·.thread = t)) mine ∧
    log.filter (·.thread = t) = mine ++ current.elim [] fun m => l.entries t m

/-- The invariant of the store, with the positions of the threads. -/
structure Inv (s₀ : State) (c : Config ι) (pos : ι → Pos) (base s : State) : Prop where
  follows : ∀ t m p, c.threads t = some (m, p) →
    m.Plain ∧ p.wp (protocol m) Returned Raised (pos t)
  idle : ∀ t, c.threads t = none → pos t = .start
  inside : ∀ t, (pos t).Inside ↔ c.world.lock = some t
  plain : base.Plain ∧ s.Plain
  file : c.world.stateJson = some s.dumps
  base_eq : Mutation.applyAll (completed c.world.log) s₀ = .ok base
  owner : Owner c pos base s c.world.lock
  accounts : ∀ t, Accounted c.ended c.world.log t ((c.threads t).map Prod.fst) (pos t)

omit [DecidableEq ι] in
theorem completed_append (log log' : List (Entry ι)) :
    completed (log ++ log') = completed log ++ completed log' := by
  simp [completed]

omit [DecidableEq ι] in
/-- A call that holds the lock is not complete. -/
theorem completed_concat_open (log : List (Entry ι)) (t : ι) (m : Mutation) (stored : Bool) :
    completed (log ++ [⟨t, m, stored, false⟩]) = completed log := by
  simp [completed]

theorem filter_concat_of_ne {t t' : ι} (h : t' ≠ t) (log : List (Entry ι)) (m : Mutation)
    (stored released : Bool) :
    (log ++ [Entry.mk t m stored released]).filter (·.thread = t') = log.filter (·.thread = t') := by
  simp [h.symm]

theorem filter_concat_self (t : ι) (log : List (Entry ι)) (m : Mutation) (stored released : Bool) :
    (log ++ [Entry.mk t m stored released]).filter (·.thread = t) =
      log.filter (·.thread = t) ++ [Entry.mk t m stored released] := by
  simp

section Update

variable {s₀ base s : State} {c : Config ι} {pos : ι → Pos} {t : ι} {m : Mutation}
  {p : Method Unit}

/-- Moving one thread keeps the others where they are. -/
theorem follows_update (hinv : Inv s₀ c pos base s) {l : Pos} (hm : m.Plain)
    (hp : p.wp (protocol m) Returned Raised l) :
    ∀ t' m' p', Function.update c.threads t (some (m, p)) t' = some (m', p') →
      m'.Plain ∧ p'.wp (protocol m') Returned Raised (Function.update pos t l t') := by
  intro t' m' p' h
  by_cases ht : t' = t
  · subst ht
    rw [Function.update_self] at h
    cases h
    rw [Function.update_self]
    exact ⟨hm, hp⟩
  · rw [Function.update_of_ne ht] at h
    rw [Function.update_of_ne ht]
    exact hinv.follows t' m' p' h

theorem idle_update (hinv : Inv s₀ c pos base s) {l : Pos} :
    ∀ t', Function.update c.threads t (some (m, p)) t' = none →
      Function.update pos t l t' = .start := by
  intro t' h
  by_cases ht : t' = t
  · subst ht
    rw [Function.update_self] at h
    cases h
  · rw [Function.update_of_ne ht] at h
    rw [Function.update_of_ne ht]
    exact hinv.idle t' h

/-- The owner of the lock moves inside it. -/
theorem inside_update (hinv : Inv s₀ c pos base s) {l : Pos} (hl : l.Inside)
    (hlock : c.world.lock = some t) :
    ∀ t', (Function.update pos t l t').Inside ↔ c.world.lock = some t' := by
  intro t'
  by_cases ht : t' = t
  · subst ht
    rw [Function.update_self]
    exact ⟨fun _ => hlock, fun _ => hl⟩
  · rw [Function.update_of_ne ht]
    exact hinv.inside t'

/-- A thread outside the lock moves outside it. -/
theorem outside_update (hinv : Inv s₀ c pos base s) {l : Pos} (hl : ¬l.Inside)
    (hlock : c.world.lock ≠ some t) :
    ∀ t', (Function.update pos t l t').Inside ↔ c.world.lock = some t' := by
  intro t'
  by_cases ht : t' = t
  · subst ht
    rw [Function.update_self]
    exact ⟨fun h => absurd h hl, fun h => absurd h hlock⟩
  · rw [Function.update_of_ne ht]
    exact hinv.inside t'

/-- The owner of the lock does not see another thread's move. -/
theorem owner_update (hinv : Inv s₀ c pos base s) (hlock : c.world.lock ≠ some t) {l : Pos}
    {x : Option (Mutation × Method Unit)} {ended : List (Call ι)} :
    Owner { c with threads := Function.update c.threads t x, ended := ended }
      (Function.update pos t l) base s c.world.lock := by
  have hown := hinv.owner
  cases hc : c.world.lock with
  | none => rw [hc] at hown; exact hown
  | some t' =>
    rw [hc] at hown hlock
    have ht : t' ≠ t := fun h => hlock (congrArg some h)
    obtain ⟨m', p', pre, hrun, hlog, hpre, hfits⟩ := hown
    refine ⟨m', p', pre, ?_, ?_, hpre, ?_⟩
    · rw [← hrun]
      exact Function.update_of_ne ht _ _
    · rw [Function.update_of_ne ht]
      exact hlog
    · rw [Function.update_of_ne ht]
      exact hfits

/-- A thread moves, and the entries of the others stay. -/
theorem accounts_update (hinv : Inv s₀ c pos base s) {l : Pos} {log : List (Entry ι)}
    (hothers : ∀ t' ≠ t, log.filter (·.thread = t') = c.world.log.filter (·.thread = t'))
    (hown : Accounted c.ended log t (some m) l) :
    ∀ t', Accounted c.ended log t' ((Function.update c.threads t (some (m, p)) t').map Prod.fst)
      (Function.update pos t l t') := by
  intro t'
  by_cases ht : t' = t
  · subst ht
    rw [Function.update_self, Function.update_self]
    exact hown
  · rw [Function.update_of_ne ht, Function.update_of_ne ht, Accounted, hothers t' ht]
    exact hinv.accounts t'

/-- The entries of the lock's owner before its last one are those of its ended calls. -/
theorem accounted_owner (hinv : Inv s₀ c pos base s) (hrun : ∃ p, c.threads t = some (m, p))
    (hin : (pos t).Inside) {pre : List (Entry ι)}
    (hlog : c.world.log = pre ++ [⟨t, m, (pos t).changed, false⟩]) :
    List.Forall₂ Accounts (c.ended.filter (·.thread = t)) (pre.filter (·.thread = t)) := by
  obtain ⟨p₀, hrun⟩ := hrun
  obtain ⟨mine, hmine, hfilter⟩ := hinv.accounts t
  rw [hrun, hlog, filter_concat_self] at hfilter
  rw [Option.map_some, Option.elim_some, hin.entries] at hfilter
  obtain ⟨hpre, -⟩ := List.append_inj' hfilter rfl
  rw [hpre]
  exact hmine

/-- A thread inside the lock owns it, and the last entry is its own. -/
theorem Inv.own (hinv : Inv s₀ c pos base s) (hrun : c.threads t = some (m, p))
    (hin : (pos t).Inside) :
    c.world.lock = some t ∧ ∃ pre, c.world.log = pre ++ [⟨t, m, (pos t).changed, false⟩] ∧
      (∀ e ∈ pre, e.released = true) ∧ Fits m c.world.statePartial base s (pos t) := by
  have hown : c.world.lock = some t := (hinv.inside t).mp hin
  have hentry := hinv.owner
  rw [hown] at hentry
  obtain ⟨m', p', pre, hrun', hpre, hclosed, hfits⟩ := hentry
  rw [hrun] at hrun'
  cases hrun'
  exact ⟨hown, pre, hpre, hclosed, hfits⟩

/-- The owner of the lock performs an operation and stays inside. -/
theorem inv_inside (hinv : Inv s₀ c pos base s) (hrun : ∃ p, c.threads t = some (m, p))
    (hin : (pos t).Inside) {w' : World ι} {l' : Pos} {s' : State}
    (hp : p.wp (protocol m) Returned Raised l') (hl' : l'.Inside)
    (hlock : w'.lock = c.world.lock)
    (hlog : ∀ pre, c.world.log = pre ++ [⟨t, m, (pos t).changed, false⟩] →
      w'.log = pre ++ [⟨t, m, l'.changed, false⟩])
    (hs' : s'.Plain) (hfile : w'.stateJson = some s'.dumps)
    (hfits : Fits m w'.statePartial base s' l') :
    Inv s₀ { c with world := w', threads := Function.update c.threads t (some (m, p)) }
      (Function.update pos t l') base s' := by
  obtain ⟨p₀, hrun₀⟩ := hrun
  obtain ⟨hown, pre, hpre, hclosed, -⟩ := hinv.own hrun₀ hin
  have hm : m.Plain := (hinv.follows t m p₀ hrun₀).1
  have hmine := accounted_owner hinv ⟨_, hrun₀⟩ hin hpre
  refine ⟨follows_update hinv hm hp, idle_update hinv, ?_, ⟨hinv.plain.1, hs'⟩, hfile, ?_, ?_, ?_⟩
  · show ∀ t', _ ↔ w'.lock = some t'
    rw [hlock]
    exact inside_update hinv hl' hown
  · show Mutation.applyAll (completed w'.log) s₀ = .ok base
    rw [hlog pre hpre, completed_concat_open, ← completed_concat_open pre t m, ← hpre]
    exact hinv.base_eq
  · show Owner _ _ base s' w'.lock
    rw [hlock, hown]
    refine ⟨m, p, pre, Function.update_self _ _ _, ?_, hclosed, ?_⟩
    · rw [Function.update_self]
      exact hlog pre hpre
    · rw [Function.update_self]
      exact hfits
  · refine accounts_update hinv (fun t' ht => ?_) ⟨_, hmine, ?_⟩
    · rw [hlog pre hpre, hpre, filter_concat_of_ne ht, filter_concat_of_ne ht]
    · rw [Option.elim_some, hl'.entries, hlog pre hpre, filter_concat_self]

/-- The owner of the lock stays where it is. -/
theorem inv_stay {p' : Method Unit} (hinv : Inv s₀ c pos base s)
    (hrun : c.threads t = some (m, p')) (hin : (pos t).Inside)
    (hp : p.wp (protocol m) Returned Raised (pos t)) :
    Inv s₀ { c with threads := Function.update c.threads t (some (m, p)) }
      (Function.update pos t (pos t)) base s := by
  obtain ⟨-, -, -, -, hfits⟩ := hinv.own hrun hin
  exact inv_inside hinv ⟨_, hrun⟩ hin hp hin rfl (fun _ h => h) hinv.plain.2 hinv.file hfits

/-- A thread takes the free lock. -/
theorem inv_acquire (hinv : Inv s₀ c pos base s) (hrun : ∃ p, c.threads t = some (m, p))
    (hstart : pos t = .start) (hfree : c.world.lock = none)
    (hp : p.wp (protocol m) Returned Raised .holding) :
    Inv s₀ { c with
      world := { c.world with lock := some t, log := c.world.log ++ [⟨t, m, false, false⟩] }
      threads := Function.update c.threads t (some (m, p)) }
      (Function.update pos t .holding) base s := by
  obtain ⟨p₀, hrun⟩ := hrun
  have hown := hinv.owner
  rw [hfree] at hown
  obtain ⟨hbase, hclosed⟩ := hown
  refine ⟨follows_update hinv (hinv.follows t m p₀ hrun).1 hp, idle_update hinv, ?_, hinv.plain,
    hinv.file, ?_, ?_, ?_⟩
  · intro t'
    by_cases ht : t' = t
    · subst ht
      rw [Function.update_self]
      exact ⟨fun _ => rfl, fun _ => trivial⟩
    · rw [Function.update_of_ne ht]
      have hout : ¬(pos t').Inside := fun h => by
        have := (hinv.inside t').mp h
        rw [hfree] at this
        cases this
      exact ⟨fun h => absurd h hout, fun h => absurd (Option.some.inj h).symm ht⟩
  -- An entry that has not reached its rename does not count yet.
  · show Mutation.applyAll (completed (c.world.log ++ [⟨t, m, false, false⟩])) s₀ = .ok base
    rw [completed_concat_open]
    exact hinv.base_eq
  · refine ⟨m, p, c.world.log, Function.update_self _ _ _, ?_, hclosed, ?_⟩
    · rw [Function.update_self]
      rfl
    · rw [Function.update_self]
      exact hbase
  · refine accounts_update hinv (fun t' ht => filter_concat_of_ne ht _ _ _ _) ?_
    obtain ⟨mine, hmine, hfilter⟩ := hinv.accounts t
    rw [hrun, hstart] at hfilter
    refine ⟨mine, hmine, ?_⟩
    rw [filter_concat_self, hfilter]
    simp [Pos.entries, Pos.changed]

omit [DecidableEq ι] in
/-- The state that an owner leaves in the file: its mutation counts if it changed the file. -/
theorem Fits.applied {tmp : Option (List Char)} {l : Pos} {pre : List (Entry ι)}
    (h : Fits m tmp base s l) (hin : l.Inside)
    (hbase : Mutation.applyAll (completed pre) s₀ = .ok base) :
    Mutation.applyAll (completed (pre ++ [⟨t, m, l.changed, true⟩])) s₀ = .ok s := by
  rw [completed_append]
  cases l with
  | start => exact hin.elim
  | finished b => exact hin.elim
  | stored =>
    have happend : completed pre ++ completed [⟨t, m, true, true⟩] = completed pre ++ [m] := rfl
    show Mutation.applyAll (completed pre ++ completed [⟨t, m, true, true⟩]) s₀ = .ok s
    rw [happend, Mutation.applyAll_append_singleton, hbase]
    exact h
  | holding =>
    rw [show s = base from h]
    simpa [completed, Pos.changed] using hbase
  | saw s' =>
    rw [show s = base from h.1]
    simpa [completed, Pos.changed] using hbase
  | staged s' text =>
    rw [show s = base from h.1]
    simpa [completed, Pos.changed] using hbase

/-- The owner leaves the lock: its mutation is now complete if it changed the file. -/
theorem inv_release (hinv : Inv s₀ c pos base s) (hrun : ∃ p, c.threads t = some (m, p))
    (hin : (pos t).Inside)
    (hp : p.wp (protocol m) Returned Raised (.finished (pos t).changed)) :
    Inv s₀ { c with
      world := { c.world with
        lock := none, log := c.world.log.modifyLast fun e => { e with released := true } }
      threads := Function.update c.threads t (some (m, p)) }
      (Function.update pos t (.finished (pos t).changed)) s s := by
  obtain ⟨p₀, hrun₀⟩ := hrun
  obtain ⟨hown, pre, hpre, hclosed, hfits⟩ := hinv.own hrun₀ hin
  have hm : m.Plain := (hinv.follows t m p₀ hrun₀).1
  have hmine := accounted_owner hinv ⟨_, hrun₀⟩ hin hpre
  have hlog : c.world.log.modifyLast (fun e => { e with released := true }) =
      pre ++ [⟨t, m, (pos t).changed, true⟩] := by
    rw [hpre, List.modifyLast_concat]
  have hbase : Mutation.applyAll (completed pre) s₀ = .ok base := by
    rw [← completed_concat_open pre t m, ← hpre]
    exact hinv.base_eq
  refine ⟨follows_update hinv hm hp, idle_update hinv, ?_, ⟨hinv.plain.2, hinv.plain.2⟩,
    hinv.file, ?_, ⟨rfl, ?_⟩, ?_⟩
  · intro t'
    by_cases ht : t' = t
    · subst ht
      rw [Function.update_self]
      exact ⟨fun h => h.elim, fun h => by cases h⟩
    · rw [Function.update_of_ne ht, hinv.inside t', hown]
      exact ⟨fun h => absurd (Option.some.inj h).symm ht, fun h => by cases h⟩
  -- From here on the entry counts if it was stored, and the file has that state.
  · show Mutation.applyAll (completed (c.world.log.modifyLast _)) s₀ = .ok s
    rw [hlog]
    exact hfits.applied hin hbase
  · show ∀ e ∈ c.world.log.modifyLast _, e.released = true
    rw [hlog]
    intro e he
    rcases List.mem_append.mp he with he | he
    · exact hclosed e he
    · rw [List.mem_singleton.mp he]
  · show ∀ t', Accounted c.ended (c.world.log.modifyLast _) t' _ _
    rw [hlog]
    refine accounts_update hinv (fun t' ht => ?_) ⟨_, hmine, filter_concat_self _ _ _ _ _⟩
    rw [hpre, filter_concat_of_ne ht, filter_concat_of_ne ht]

/-- A thread leaves its call. -/
theorem inv_leave (hinv : Inv s₀ c pos base s) {out : Except Fault Unit}
    (hrun : c.threads t = some (m, .ofExcept out)) :
    Inv s₀ { c with
      threads := Function.update c.threads t none
      ended := c.ended ++ [⟨t, m, out⟩] }
      (Function.update pos t .start) base s := by
  obtain ⟨stored, hpos, hreturned, hrefused⟩ := outcome_of_wp (hinv.follows t m _ hrun).2
  have hlock : c.world.lock ≠ some t := fun h => by
    have hin := (hinv.inside t).mpr h
    rw [hpos] at hin
    exact hin
  refine ⟨?_, ?_, outside_update hinv id hlock, hinv.plain, hinv.file, hinv.base_eq,
    owner_update hinv hlock, ?_⟩
  · intro t' m' p' h
    change Function.update c.threads t none t' = some (m', p') at h
    by_cases ht : t' = t
    · subst ht
      rw [Function.update_self] at h
      cases h
    · rw [Function.update_of_ne ht] at h
      rw [Function.update_of_ne ht]
      exact hinv.follows t' m' p' h
  · intro t' h
    change Function.update c.threads t none t' = none at h
    by_cases ht : t' = t
    · subst ht
      rw [Function.update_self]
    · rw [Function.update_of_ne ht] at h
      rw [Function.update_of_ne ht]
      exact hinv.idle t' h
  · intro t'
    obtain ⟨mine, hmine, hfilter⟩ := hinv.accounts t'
    show Accounted (c.ended ++ [Call.mk t m out]) c.world.log t'
      ((Function.update c.threads t none t').map Prod.fst) _
    by_cases ht : t' = t
    · subst ht
      rw [hrun, hpos, Option.map_some, Option.elim_some] at hfilter
      have hended : (c.ended ++ [Call.mk t' m out]).filter (·.thread = t') =
          c.ended.filter (·.thread = t') ++ [Call.mk t' m out] := by simp
      -- The entry of this call is in the log already; now the call has ended too.
      refine ⟨mine ++ [⟨t', m, stored, true⟩], ?_, ?_⟩
      · rw [hended]
        exact List.rel_append hmine (.cons ⟨rfl, rfl, hreturned, hrefused⟩ .nil)
      · rw [Function.update_self, hfilter]
        simp [Pos.entries]
    · have hended : (c.ended ++ [Call.mk t m out]).filter (·.thread = t') =
          c.ended.filter (·.thread = t') := by simp [Ne.symm ht]
      rw [Function.update_of_ne ht, Function.update_of_ne ht]
      exact ⟨mine, by rwa [hended], hfilter⟩

end Update

/-- One operation of one thread keeps the invariant. -/
theorem inv_op {s₀ base s : State} {c : Config ι} {pos : ι → Pos} {t : ι} {m : Mutation}
    {o : FileOp} {k : Except Fault (fileSig.Res o) → Method Unit}
    {r : Except Fault (fileSig.Res o)} {w' : World ι} (hinv : Inv s₀ c pos base s)
    (hrun : c.threads t = some (m, .call o k)) (hsem : sem t m o c.world r w') :
    ∃ pos' base' s', Inv s₀
      { c with world := w', threads := Function.update c.threads t (some (m, k r)) }
      pos' base' s' := by
  obtain ⟨hm, hok, hnext⟩ := hinv.follows t m _ hrun
  have hrun' : ∃ p, c.threads t = some (m, p) := ⟨_, hrun⟩
  -- What the files hold, once the thread is known to be inside the lock.
  have hfits : ∀ l, pos t = l → l.Inside → Fits m c.world.statePartial base s l := by
    rintro l rfl hin
    obtain ⟨-, -, -, -, hfits⟩ := hinv.own hrun hin
    exact hfits
  have hlog : ∀ l, pos t = l → l.changed = false → ∀ l', l'.changed = false →
      ∀ pre, c.world.log = pre ++ [⟨t, m, (pos t).changed, false⟩] →
        c.world.log = pre ++ [⟨t, m, Pos.changed l', false⟩] := by
    rintro l rfl hl l' hl' pre hpre
    rw [hpre, hl, hl']
  cases o with
  | acquire =>
    obtain ⟨hfree, rfl, rfl⟩ := hsem
    exact ⟨_, _, _, inv_acquire hinv hrun' hok hfree (hnext _ _ ⟨rfl, rfl⟩)⟩
  | release =>
    obtain ⟨rfl, rfl⟩ := hsem
    exact ⟨_, _, _, inv_release hinv hrun' hok (hnext _ _ ⟨rfl, rfl⟩)⟩
  | «exists» =>
    obtain ⟨rfl, -⟩ := hsem
    have hpos : pos t = .holding := hok
    have hin : (pos t).Inside := by rw [hpos]; exact trivial
    exact ⟨_, _, _, inv_stay hinv hrun hin (hnext r _ rfl)⟩
  | readText =>
    obtain ⟨rfl, hr⟩ := hsem
    have hpos : pos t = .holding := hok
    have hin : (pos t).Inside := by rw [hpos]; exact trivial
    have hbase : s = base := hfits _ hpos trivial
    rcases hr with ⟨text, htext, rfl⟩ | rfl
    · rw [hinv.file] at htext
      cases htext
      exact ⟨_, _, _, inv_inside hinv hrun' hin
        (hnext _ (.saw s) (.inl ⟨s, hinv.plain.2, rfl, rfl⟩)) trivial rfl
        (hlog _ hpos rfl (.saw s) rfl) hinv.plain.2 hinv.file ⟨hbase, hbase⟩⟩
    · exact ⟨_, _, _, inv_stay hinv hrun hin (hnext _ _ (.inr ⟨rfl, rfl⟩))⟩
  | openPartial =>
    obtain ⟨s₁, hpos⟩ := hok
    have hin : (pos t).Inside := by rw [hpos]; exact trivial
    have hbase : s = base ∧ s₁ = base := hfits _ hpos trivial
    rcases hsem with ⟨rfl, rfl⟩ | ⟨rfl, rfl⟩
    · exact ⟨_, _, _, inv_inside hinv hrun' hin
        (hnext _ (.staged s₁ []) (.inl ⟨s₁, hpos, rfl, rfl⟩)) trivial rfl
        (hlog _ hpos rfl (.staged s₁ []) rfl) hinv.plain.2 hinv.file ⟨hbase.1, hbase.2, rfl⟩⟩
    · exact ⟨_, _, _, inv_stay hinv hrun hin (hnext _ _ (.inr ⟨rfl, rfl⟩))⟩
  | append ch =>
    obtain ⟨s₁, text, hpos⟩ := hok
    have hin : (pos t).Inside := by rw [hpos]; exact trivial
    have hbase : s = base ∧ s₁ = base ∧ c.world.statePartial = some text :=
      hfits _ hpos trivial
    rcases hsem with ⟨text', htext, rfl, rfl⟩ | ⟨rfl, rfl⟩
    · rw [hbase.2.2] at htext
      cases htext
      exact ⟨_, _, _, inv_inside hinv hrun' hin
        (hnext _ (.staged s₁ (text ++ [ch])) (.inl ⟨s₁, text, hpos, rfl, rfl⟩)) trivial rfl
        (hlog _ hpos rfl (.staged s₁ (text ++ [ch])) rfl) hinv.plain.2 hinv.file
        ⟨hbase.1, hbase.2.1, rfl⟩⟩
    · exact ⟨_, _, _, inv_stay hinv hrun hin (hnext _ _ (.inr ⟨rfl, rfl⟩))⟩
  | fsync =>
    obtain ⟨s₁, text, hpos⟩ := hok
    obtain ⟨rfl, -⟩ := hsem
    have hin : (pos t).Inside := by rw [hpos]; exact trivial
    exact ⟨_, _, _, inv_stay hinv hrun hin (hnext r _ rfl)⟩
  | replace =>
    -- The mutation takes effect here, if the rename does.
    obtain ⟨s₁, s', hpos, happly⟩ := hok
    have hin : (pos t).Inside := by rw [hpos]; exact trivial
    have hbase : s = base ∧ s₁ = base ∧ c.world.statePartial = some s'.dumps :=
      hfits _ hpos trivial
    rcases hsem with ⟨text', htext, rfl, rfl⟩ | ⟨rfl, rfl⟩
    · rw [hbase.2.2] at htext
      cases htext
      obtain ⟨-, rfl, -⟩ := hbase
      refine ⟨_, _, _, inv_inside hinv hrun' hin (hnext _ .stored (.inl ⟨rfl, rfl⟩)) trivial rfl
        (fun pre hpre => ?_) (hm.apply hinv.plain.1 happly) rfl happly⟩
      show c.world.log.modifyLast _ = _
      rw [hpre, List.modifyLast_concat]
      rfl
    · exact ⟨_, _, _, inv_stay hinv hrun hin (hnext _ _ (.inr ⟨rfl, rfl⟩))⟩
  | fsyncDir =>
    obtain ⟨rfl, hr⟩ := hsem
    have hpos : pos t = .stored := hok
    have hin : (pos t).Inside := by rw [hpos]; exact trivial
    exact ⟨_, _, _, inv_stay hinv hrun hin (hnext r _ ⟨rfl, hr⟩)⟩

/-- One step keeps the invariant. -/
theorem inv_step {s₀ base s : State} {c c' : Config ι} {pos : ι → Pos}
    (hinv : Inv s₀ c pos base s) (hstep : Step c c') :
    ∃ pos' base' s', Inv s₀ c' pos' base' s' := by
  cases hstep with
  | op hrun hsem => exact inv_op hinv hrun hsem
  | leave hrun => exact ⟨_, _, _, inv_leave hinv hrun⟩
  | invoke t m hm hidle =>
    have hpos := hinv.idle t hidle
    have hlock : c.world.lock ≠ some t := fun h => by
      have := (hinv.inside t).mpr h
      rw [hpos] at this
      exact this
    refine ⟨Function.update pos t .start, base, s, follows_update hinv hm (wp_method m),
      idle_update hinv, outside_update hinv id hlock, hinv.plain, hinv.file, hinv.base_eq,
      owner_update hinv hlock, accounts_update hinv (fun _ _ => rfl) ?_⟩
    have hown := hinv.accounts t
    rw [hidle] at hown
    exact hown

/-- **The invariant holds in every reachable configuration.** -/
theorem reachable_inv {s₀ : State} (hs₀ : s₀.Plain) {c : Config ι} (h : Reachable s₀ c) :
    ∃ pos base s, Inv s₀ c pos base s := by
  induction h with
  | init tmp =>
    refine ⟨fun _ => .start, s₀, s₀, ?_, fun _ _ => rfl, ?_, ⟨hs₀, hs₀⟩, rfl, rfl, ⟨rfl, ?_⟩, ?_⟩
    · intro t m p h
      cases h
    · intro t
      exact ⟨fun h => h.elim, fun h => nomatch h⟩
    · intro e he
      cases he
    · exact fun t => ⟨[], .nil, rfl⟩
  | step h hstep ih =>
    obtain ⟨pos, base, s, hinv⟩ := ih
    exact inv_step hinv hstep

/-! ### The order of the lock -/

theorem map_modifyLast {α β : Type} {f : α → α} {g : α → β} (h : ∀ a, g (f a) = g a)
    (l : List α) : (l.modifyLast f).map g = l.map g := by
  rcases List.eq_nil_or_concat' l with rfl | ⟨l, a, rfl⟩
  · rfl
  · rw [List.modifyLast_concat, List.map_append, List.map_append, List.map_singleton,
      List.map_singleton, h]

/-- A call keeps its place. -/
theorem order_step {c c' : Config ι} (h : Step c c') : c.world.order <+: c'.world.order := by
  cases h with
  | invoke t m hm hidle => exact List.prefix_rfl
  | leave hrun => exact List.prefix_rfl
  | @op t m o k r w' hrun hsem =>
    -- Every operation but `acquire` at most changes the flags of the last entry.
    have hsame (w' : World ι) (f : Entry ι → Entry ι) (hlog : w'.log = c.world.log.modifyLast f)
        (hf : ∀ e, ((f e).thread, (f e).mutation) = (e.thread, e.mutation)) :
        c.world.order <+: w'.order := by
      have horder : w'.order = c.world.order := by
        rw [World.order, World.order, hlog, map_modifyLast hf]
      exact horder ▸ List.prefix_rfl
    cases o with
    | acquire =>
      obtain ⟨-, -, rfl⟩ := hsem
      show c.world.order <+: (c.world.log ++ [_]).map _
      rw [List.map_append]
      exact List.prefix_append _ _
    | release =>
      obtain ⟨-, rfl⟩ := hsem
      exact hsame _ _ rfl fun _ => rfl
    | replace =>
      rcases hsem with ⟨text, -, -, rfl⟩ | ⟨-, rfl⟩
      · exact hsame _ _ rfl fun _ => rfl
      · exact List.prefix_rfl
    | «exists» =>
      obtain ⟨rfl, -⟩ := hsem
      exact List.prefix_rfl
    | readText =>
      obtain ⟨rfl, -⟩ := hsem
      exact List.prefix_rfl
    | fsync =>
      obtain ⟨rfl, -⟩ := hsem
      exact List.prefix_rfl
    | fsyncDir =>
      obtain ⟨rfl, -⟩ := hsem
      exact List.prefix_rfl
    | openPartial =>
      rcases hsem with ⟨-, rfl⟩ | ⟨-, rfl⟩
      · exact List.prefix_rfl
      · exact List.prefix_rfl
    | append ch =>
      rcases hsem with ⟨text, -, -, rfl⟩ | ⟨-, rfl⟩
      · exact List.prefix_rfl
      · exact List.prefix_rfl

theorem order_steps {c c' : Config ι} (h : Relation.ReflTransGen Step c c') :
    c.world.order <+: c'.world.order := by
  induction h with
  | refl => exact List.prefix_rfl
  | tail _ hstep ih => exact ih.trans (order_step hstep)

/-- What is in the file: the completed mutations, or these and the one in flight. -/
theorem Inv.file_holds {s₀ base s : State} {c : Config ι} {pos : ι → Pos}
    (hinv : Inv s₀ c pos base s) :
    Mutation.applyAll (completed c.world.log) s₀ = .ok s ∨
      ∃ pre e, c.world.log = pre ++ [e] ∧ e.released = false ∧
        Mutation.applyAll (completed pre ++ [e.mutation]) s₀ = .ok s := by
  have hown := hinv.owner
  cases hlock : c.world.lock with
  | none =>
    rw [hlock] at hown
    rw [hown.1]
    exact .inl hinv.base_eq
  | some t =>
    rw [hlock] at hown
    obtain ⟨m, p, pre, -, hlog, -, hfits⟩ := hown
    have hin : (pos t).Inside := (hinv.inside t).mpr hlock
    cases hpos : pos t with
    | start => rw [hpos] at hin; exact hin.elim
    | finished b => rw [hpos] at hin; exact hin.elim
    | holding =>
      rw [hpos] at hfits
      rw [show s = base from hfits]
      exact .inl hinv.base_eq
    | saw s' =>
      rw [hpos] at hfits
      rw [hfits.1]
      exact .inl hinv.base_eq
    | staged s' text =>
      rw [hpos] at hfits
      rw [hfits.1]
      exact .inl hinv.base_eq
    -- Only between its rename and its release is the owner ahead of the completed log.
    | stored =>
      rw [hpos] at hfits
      refine .inr ⟨pre, _, hlog, rfl, ?_⟩
      have hpre : Mutation.applyAll (completed pre) s₀ = .ok base := by
        rw [← completed_concat_open pre t m, ← hlog]
        exact hinv.base_eq
      rw [Mutation.applyAll_append_singleton, hpre]
      exact hfits

/-- A call in flight is the last one, and has the lock. -/
theorem Inv.in_flight {s₀ base s : State} {c : Config ι} {pos : ι → Pos}
    (hinv : Inv s₀ c pos base s) {pre post : List (Entry ι)} {e : Entry ι}
    (hlog : c.world.log = pre ++ e :: post) (hopen : e.released = false) :
    post = [] ∧ c.world.lock = some e.thread := by
  have hown := hinv.owner
  have hmem : e ∈ c.world.log := by rw [hlog]; simp
  have hreleased : ¬ e.released = true := by simp [hopen]
  cases hlock : c.world.lock with
  | none =>
    rw [hlock] at hown
    exact absurd (hown.2 e hmem) hreleased
  | some t =>
    rw [hlock] at hown
    obtain ⟨m, p, pre', -, hlog', hclosed, -⟩ := hown
    -- The only open entry is the last one.
    rcases List.eq_nil_or_concat post with rfl | ⟨post', e', rfl⟩
    · have heq : pre ++ [e] = pre' ++ [⟨t, m, (pos t).changed, false⟩] := hlog.symm.trans hlog'
      obtain ⟨-, he⟩ := List.append_inj' heq rfl
      cases he
      exact ⟨rfl, rfl⟩
    · have heq : (pre ++ e :: post') ++ [e'] = pre' ++ [⟨t, m, (pos t).changed, false⟩] := by
        rw [← hlog', hlog]
        simp
      obtain ⟨hpre, -⟩ := List.append_inj' heq rfl
      exact absurd (hclosed e (by rw [← hpre]; simp)) hreleased

/-- The calls of a thread that have ended are its first entries, in order, and at most
the call it is in has one more. -/
theorem Inv.ended_first {s₀ base s : State} {c : Config ι} {pos : ι → Pos}
    (hinv : Inv s₀ c pos base s) (t : ι) :
    ∃ mine rest, c.world.log.filter (·.thread = t) = mine ++ rest ∧
      List.Forall₂ Accounts (c.ended.filter (·.thread = t)) mine ∧ rest.length ≤ 1 ∧
      (c.threads t = none → rest = []) := by
  obtain ⟨mine, hmine, hfilter⟩ := hinv.accounts t
  refine ⟨mine, _, hfilter, hmine, ?_, fun hidle => ?_⟩
  · cases c.threads t with
    | none => exact Nat.zero_le 1
    | some mp =>
      show ((pos t).entries t mp.1).length ≤ 1
      cases pos t with
      | start => exact Nat.zero_le 1
      | _ => exact le_rfl
  · rw [hidle]
    rfl

/-! ### Calls that nothing disturbs -/

section Runs

attribute [local irreducible] State.dumps

variable {t : ι} {m : Mutation} {w : World ι} {s : State}

/-- What a method does to a state directory nobody else uses. -/
abbrev Runs (t : ι) (m : Mutation) {α : Type} (p : Method α) (w : World ι) (a : α)
    (w' : World ι) : Prop := Prog.Ends (sem t m) p w (.ok a) w'

omit [DecidableEq ι] in
theorem runs_appendAll (text done : List Char) (hdone : w.statePartial = some done) :
    Runs t m (text.forM append) w ⟨⟩ { w with statePartial := some (done ++ text) } := by
  induction text generalizing w done with
  | nil =>
    rw [List.append_nil, ← hdone]
    exact .ret _ w
  | cons c text ih =>
    have happend : Runs t m (append c) w () { w with statePartial := some (done ++ [c]) } :=
      .perform (.inl ⟨done, hdone, rfl, rfl⟩)
    refine .bind happend ?_
    have hrest := ih (w := { w with statePartial := some (done ++ [c]) }) (done ++ [c]) rfl
    rw [List.append_assoc] at hrest
    exact hrest

omit [DecidableEq ι] in
theorem runs_read (hs : s.Plain) (hfile : w.stateJson = some s.dumps) : Runs t m read w s w := by
  have hexists : Runs t m stateExists w true w := by
    refine .perform ⟨rfl, .inl ?_⟩
    rw [hfile]
    rfl
  have htext : Runs t m readText w s.dumps w := .perform ⟨rfl, .inl ⟨_, hfile, rfl⟩⟩
  refine .bind hexists ?_
  rw [if_pos rfl]
  refine .bind htext ?_
  rw [State.loads_dumps hs]
  exact .ret s w

omit [DecidableEq ι] in
/-- The owner of the lock rewrites the file. -/
theorem runs_writeStateAtomic {pre : List (Entry ι)} (s : State)
    (hlog : w.log = pre ++ [⟨t, m, false, false⟩]) :
    Runs t m (writeStateAtomic s) w () { w with
      stateJson := some s.dumps
      statePartial := none
      log := pre ++ [⟨t, m, true, false⟩] } := by
  refine .bind (.perform (.inl ⟨rfl, rfl⟩)) ?_
  refine .bind (runs_appendAll s.dumps [] rfl) ?_
  refine .bind (.perform ⟨rfl, .inl rfl⟩) ?_
  refine .bind (.perform (.inl ⟨_, rfl, rfl, rfl⟩)) ?_
  rw [hlog, List.modifyLast_concat]
  exact .perform ⟨rfl, .inl rfl⟩

omit [DecidableEq ι] in
theorem runs_readModifyWrite (f : State → State) (hs : s.Plain) (hlock : w.lock = none)
    (hfile : w.stateJson = some s.dumps) :
    Runs t m (readModifyWrite f) w ()
      ⟨some (f s).dumps, none, none, w.log ++ [⟨t, m, true, true⟩]⟩ := by
  have hbody : Runs t m (do let s ← read; writeStateAtomic (f s))
      { w with lock := some t, log := w.log ++ [⟨t, m, false, false⟩] } () _ :=
    .bind (runs_read hs hfile) (runs_writeStateAtomic (f s) rfl)
  refine .bind (.perform ⟨hlock, rfl, rfl⟩) (.tryFinally hbody (.perform ⟨rfl, ?_⟩))
  rw [List.modifyLast_concat]

omit [DecidableEq ι] in
theorem runs_confirm {s' : State} {backendName : String} {metadata : Dict} {now : String}
    (hs : s.Plain) (hlock : w.lock = none) (hfile : w.stateJson = some s.dumps)
    (happly : Mutation.apply (.confirm backendName metadata now) s = .ok s') :
    Runs t m (confirm backendName metadata now) w ()
      ⟨some s'.dumps, none, none, w.log ++ [⟨t, m, true, true⟩]⟩ := by
  simp only [Mutation.apply] at happly
  split at happly
  case h_2 => cases happly
  case h_1 r hfind =>
  have hbody : Runs t m (do
      let s ← read
      match s.resources.find? (·.backendName = backendName) with
      | some r =>
        let s' ← liftState (s.replaceResource backendName (r.withOutcome now metadata))
        writeStateAtomic s'
        return true
      | none => return false)
      { w with lock := some t, log := w.log ++ [⟨t, m, false, false⟩] } true
      ⟨some s'.dumps, none, some t, w.log ++ [⟨t, m, true, false⟩]⟩ := by
    refine .bind (runs_read hs hfile) ?_
    simp only [hfind, happly, liftState]
    exact .bind (.ret s' _) (.bind (runs_writeStateAtomic s' rfl) (.ret _ _))
  refine .bind (.bind (.perform ⟨hlock, rfl, rfl⟩) (.tryFinally hbody (.perform ⟨rfl, rfl⟩))) ?_
  rw [if_pos rfl, List.modifyLast_concat]
  exact .ret _ _

omit [DecidableEq ι] in
/-- **A call that nothing disturbs returns**, and its mutation is in the file. -/
theorem runs_method {s' : State} (hs : s.Plain) (hlock : w.lock = none)
    (hfile : w.stateJson = some s.dumps) (happly : m.apply s = .ok s') :
    Runs t m (method m) w () ⟨some s'.dumps, none, none, w.log ++ [⟨t, m, true, true⟩]⟩ := by
  cases m with
  | confirm backendName metadata now => exact runs_confirm hs hlock hfile happly
  | _ =>
    cases happly
    exact runs_readModifyWrite _ hs hlock hfile

end Runs

/-- A call that has the store to itself is made and runs to its end. -/
theorem steps_of_ends {t : ι} {m : Mutation} {p : Method Unit} {w' : World ι}
    {out : Except Fault Unit} {c : Config ι} (hrun : c.threads t = some (m, p))
    (h : Prog.Ends (sem t m) p c.world out w') :
    Relation.ReflTransGen Step c
      { c with world := w', threads := Function.update c.threads t (some (m, .ofExcept out)) } := by
  obtain ⟨tr, h⟩ := h
  generalize hw : c.world = w at h
  induction h generalizing c with
  | ret a w =>
    have hsame : Function.update c.threads t (some (m, .ofExcept (.ok a))) = c.threads := by
      rw [Function.update_eq_self_iff]
      exact hrun.symm
    rw [hsame, ← hw]
  | raise e w =>
    have hsame : Function.update c.threads t (some (m, .ofExcept (.error e))) = c.threads := by
      rw [Function.update_eq_self_iff]
      exact hrun.symm
    rw [hsame, ← hw]
  | @call o k w w₁ w₂ r tr out hr hk ih =>
    subst hw
    have hnext := ih (c := { c with world := w₁, threads := Function.update c.threads t (some (m, k r)) })
      (Function.update_self _ _ _) rfl
    rw [Function.update_idem] at hnext
    exact .head (.op hrun hr) hnext

theorem Reachable.steps {s₀ : State} {c c' : Config ι} (h : Reachable s₀ c)
    (hsteps : Relation.ReflTransGen Step c c') : Reachable s₀ c' := by
  induction hsteps with
  | refl => exact h
  | tail _ hstep ih => exact ih.step hstep

end Store

end TestRange
