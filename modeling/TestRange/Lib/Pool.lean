/-
A process that forks bounded pools of workers.

The main thread is a program that performs operations and, now and then, maps a
function over a list of items on a pool of threads.  The pool follows Python's
`ThreadPoolExecutor` under a fail-fast caller: all items are submitted, the caller
wakes when some worker has raised or all are done, cancels what has not started,
joins what has, and goes on with the result.  With a single worker the caller runs
the items itself, one after another.

Calls of different workers interleave in any order; a crash is a run that stops,
after which another process may be booted on the world that is left.

* `Pool.Step`, `Machine.Step`, `History` — pools, processes, histories of processes;
* `Machine.Run.keeps`, `Machine.Run.simulate` — what every operation keeps, and a run
  followed in another world;
* `Discipline` — a proof that the programs keep an invariant: each operation of
  each thread, each start, finish and join, given what the threads know locally;
* `Discipline.watch`, `Discipline.watchMain`, `Discipline.and` — the workers or the main thread
  follow a second logic as well; one invariant on top of another;
* `Discipline.run`, `History.invariant` — the invariant holds along every run, and
  what every process keeps holds along every history.
-/
import Mathlib.Logic.Function.Basic
import TestRange.Lib.Prog

/-- The operations of a main thread: those of the workers, and mapping over a list. -/
def Sig.withFork (S : Sig) (ι : Type) : Sig where
  Op := S.Op ⊕ List ι
  Res := Sum.elim S.Res fun _ => Unit

/-- A program that may also map over lists of items on a pool. -/
abbrev MainProg (S : Sig) (ι ε α : Type) : Type := Prog (S.withFork ι) ε α

namespace MainProg

variable {S : Sig} {ι ε α : Type}

/-- A program of plain operations, in the main thread. -/
def lift : Prog S ε α → MainProg S ι ε α
  | .ret a => .ret a
  | .raise e => .raise e
  | .call o k => .call (.inl o) fun r => lift (k r)

/-- Map over the items on a pool. -/
def fork (items : List ι) : MainProg S ι ε Unit := Prog.perform (S := S.withFork ι) (.inr items)

end MainProg

/-- Where a submitted item stands. -/
inductive TaskState (S : Sig) (ε : Type)
  | unsubmitted
  | pending
  | running (p : Prog S ε Unit)
  | finished (r : Except ε Unit)
  | cancelled

/-- Where the thread that called the map stands. -/
inductive Caller (ι ε : Type)
  /-- Running the items itself. -/
  | inline (rest : List ι)
  | submitting (rest : List ι)
  | waiting
  /-- A worker raised `e`: cancelling what has not started. -/
  | cancelling (rest : List ι) (e : ε)
  /-- Leaving with `e` once every started worker is done. -/
  | joining (e : ε)

/-- A map in progress. -/
structure Pool (S : Sig) (ι ε : Type) where
  items : List ι
  workers : ℕ
  task : ι → TaskState S ε
  caller : Caller ι ε

/-- What is observed of a run. -/
inductive Label (S : Sig) (ι ε : Type)
  | main (o : S.Op) (r : Except ε (S.Res o))
  | fork (items : List ι)
  | start (i : ι)
  | op (i : ι) (o : S.Op) (r : Except ε (S.Res o))
  | fin (i : ι) (r : Except ε Unit)
  | join (r : Except ε Unit)
  /-- A step of the pool's own bookkeeping. -/
  | tick

namespace Pool

variable {S : Sig} {ι ε W : Type} [DecidableEq ι]

/-- Whether a task occupies a worker. -/
def TaskState.isRunning : TaskState S ε → Bool
  | .running _ => true
  | _ => false

/-- The number of busy workers. -/
def busy (P : Pool S ι ε) : ℕ := P.items.countP fun i => TaskState.isRunning (P.task i)

/-- A fresh pool: inline for a single worker. -/
def new (items : List ι) (workers : ℕ) : Pool S ι ε where
  items := items
  workers := workers
  task := fun _ => .unsubmitted
  caller := if workers = 1 then .inline items else .submitting items

def setTask (P : Pool S ι ε) (i : ι) (t : TaskState S ε) : Pool S ι ε :=
  { P with task := Function.update P.task i t }

/-- A task that raised, no earlier submitted one having raised. -/
def FirstRaised (P : Pool S ι ε) (i : ι) (e : ε) : Prop :=
  P.task i = .finished (.error e) ∧ ∃ pre post, P.items = pre ++ i :: post ∧
    ∀ j ∈ pre, ∀ e', P.task j ≠ .finished (.error e')

/-- The items a caller that wakes finds unfinished. -/
def NotDone (P : Pool S ι ε) (rest : List ι) : Prop :=
  ∀ i, i ∈ rest ↔ i ∈ P.items ∧ ∀ r, P.task i ≠ .finished r

/-- One step of a pool: of a worker, or of the caller inside the map. -/
inductive Step (fn : ι → Prog S ε Unit) (sem : Prog.Sem S ε W) (startOk : ι → W → Prop) :
    W → Pool S ι ε → Label S ι ε → W → Pool S ι ε → Prop
  | inlineStart {w : W} {P : Pool S ι ε} {i : ι} {rest : List ι}
      (hc : P.caller = .inline (i :: rest)) (ht : P.task i = .unsubmitted) (hok : startOk i w) :
      Step fn sem startOk w P (.start i) w (P.setTask i (.running (fn i)))
  | inlineNext {w : W} {P : Pool S ι ε} {i : ι} {rest : List ι}
      (hc : P.caller = .inline (i :: rest)) (ht : P.task i = .finished (.ok ())) :
      Step fn sem startOk w P .tick w { P with caller := .inline rest }
  | inlineRaise {w : W} {P : Pool S ι ε} {i : ι} {rest : List ι} {e : ε}
      (hc : P.caller = .inline (i :: rest)) (ht : P.task i = .finished (.error e)) :
      Step fn sem startOk w P .tick w { P with caller := .joining e }
  | submit {w : W} {P : Pool S ι ε} {i : ι} {rest : List ι}
      (hc : P.caller = .submitting (i :: rest)) (ht : P.task i = .unsubmitted) :
      Step fn sem startOk w P .tick w { P.setTask i .pending with caller := .submitting rest }
  | submitted {w : W} {P : Pool S ι ε} (hc : P.caller = .submitting []) :
      Step fn sem startOk w P .tick w { P with caller := .waiting }
  | start {w : W} {P : Pool S ι ε} {i : ι} (hi : i ∈ P.items) (ht : P.task i = .pending)
      (hbusy : P.busy < P.workers) (hok : startOk i w) :
      Step fn sem startOk w P (.start i) w (P.setTask i (.running (fn i)))
  | op {w w' : W} {P : Pool S ι ε} {i : ι} {o : S.Op} {k : Except ε (S.Res o) → Prog S ε Unit}
      {r : Except ε (S.Res o)} (hi : i ∈ P.items) (ht : P.task i = .running (.call o k))
      (hsem : sem o w r w') :
      Step fn sem startOk w P (.op i o r) w' (P.setTask i (.running (k r)))
  | ret {w : W} {P : Pool S ι ε} {i : ι} {a : Unit} (hi : i ∈ P.items)
      (ht : P.task i = .running (.ret a)) :
      Step fn sem startOk w P (.fin i (.ok ())) w (P.setTask i (.finished (.ok ())))
  | raise {w : W} {P : Pool S ι ε} {i : ι} {e : ε} (hi : i ∈ P.items)
      (ht : P.task i = .running (.raise e)) :
      Step fn sem startOk w P (.fin i (.error e)) w (P.setTask i (.finished (.error e)))
  | wake {w : W} {P : Pool S ι ε} {i : ι} {e : ε} {rest : List ι} (hc : P.caller = .waiting)
      (hfirst : P.FirstRaised i e) (hrest : P.NotDone rest) :
      Step fn sem startOk w P .tick w { P with caller := .cancelling rest e }
  | cancel {w : W} {P : Pool S ι ε} {i : ι} {rest : List ι} {e : ε}
      (hc : P.caller = .cancelling (i :: rest) e) (ht : P.task i = .pending) :
      Step fn sem startOk w P .tick w { P.setTask i .cancelled with caller := .cancelling rest e }
  | skip {w : W} {P : Pool S ι ε} {i : ι} {rest : List ι} {e : ε}
      (hc : P.caller = .cancelling (i :: rest) e) (ht : P.task i ≠ .pending) :
      Step fn sem startOk w P .tick w { P with caller := .cancelling rest e }
  | cancelled {w : W} {P : Pool S ι ε} {e : ε} (hc : P.caller = .cancelling [] e) :
      Step fn sem startOk w P .tick w { P with caller := .joining e }

/-- How a map ends. -/
inductive Exit (P : Pool S ι ε) : Except ε Unit → Prop
  | inline (hc : P.caller = .inline []) : Exit P (.ok ())
  | ok (hc : P.caller = .waiting) (hall : ∀ i ∈ P.items, P.task i = .finished (.ok ())) :
      Exit P (.ok ())
  | error {e : ε} (hc : P.caller = .joining e)
      (hall : ∀ i ∈ P.items, P.task i ≠ .pending ∧ ∀ p, P.task i ≠ .running p) :
      Exit P (.error e)

end Pool

/-- The programs of a process and what their operations do. -/
structure Machine (S : Sig) (ι ε W : Type) where
  /-- The program of an item. -/
  fn : ι → Prog S ε Unit
  /-- The number of workers for a list of some length. -/
  workers : ℕ → ℕ
  sem : Prog.Sem S ε W
  /-- When an item may start; `True` unless runs are restricted. -/
  startOk : ι → W → Prop

/-- The same machine, where only some answers and some starts come about. -/
def Machine.restrict {S : Sig} {ι ε W : Type} (M : Machine S ι ε W)
    (allow : (o : S.Op) → W → Except ε (S.Res o) → Prop) (startOk : ι → W → Prop) :
    Machine S ι ε W :=
  { M with
    sem := fun o w r w' => M.sem o w r w' ∧ allow o w r
    startOk := fun i w => M.startOk i w ∧ startOk i w }

/-- A process: the world, what is left of the main thread's program, the map it is
in, and what has been observed since it was booted. -/
structure Proc (S : Sig) (ι ε W α : Type) where
  world : W
  main : MainProg S ι ε α
  pool : Option (Pool S ι ε)
  log : List (Label S ι ε)

namespace Machine

variable {S : Sig} {ι ε W α : Type} [DecidableEq ι]

/-- One step of a process. -/
inductive Step (M : Machine S ι ε W) : Proc S ι ε W α → Proc S ι ε W α → Prop
  | main {c : Proc S ι ε W α} {o : S.Op} {k : Except ε (S.Res o) → MainProg S ι ε α}
      {r : Except ε (S.Res o)} {w' : W} (hp : c.pool = none) (hm : c.main = .call (.inl o) k)
      (hsem : M.sem o c.world r w') :
      Step M c ⟨w', k r, none, c.log ++ [.main o r]⟩
  | fork {c : Proc S ι ε W α} {items : List ι} {k : Except ε Unit → MainProg S ι ε α}
      (hp : c.pool = none) (hm : c.main = .call (.inr items) k) :
      Step M c ⟨c.world, c.main, some (.new items (M.workers items.length)), c.log ++ [.fork items]⟩
  | pool {c : Proc S ι ε W α} {P P' : Pool S ι ε} {w' : W} {l : Label S ι ε}
      (hp : c.pool = some P) (hstep : P.Step M.fn M.sem M.startOk c.world l w' P') :
      Step M c ⟨w', c.main, some P', c.log ++ [l]⟩
  | join {c : Proc S ι ε W α} {P : Pool S ι ε} {items : List ι}
      {k : Except ε Unit → MainProg S ι ε α} {r : Except ε Unit} (hp : c.pool = some P)
      (hm : c.main = .call (.inr items) k) (hexit : P.Exit r) :
      Step M c ⟨c.world, k r, none, c.log ++ [.join r]⟩

/-- A process that has just been booted. -/
def booted (w : W) (main : MainProg S ι ε α) : Proc S ι ε W α := ⟨w, main, none, []⟩

/-- The runs of one process. -/
inductive Run (M : Machine S ι ε W) (w : W) (main : MainProg S ι ε α) :
    Proc S ι ε W α → Prop
  | boot : Run M w main (booted w main)
  | step {c c' : Proc S ι ε W α} (h : Run M w main c) (hstep : M.Step c c') : Run M w main c'

end Machine

/-- A process about to start: its machine, the world it finds, its program. -/
structure Boot (S : Sig) (ι ε W α : Type) where
  machine : Machine S ι ε W
  world : W
  main : MainProg S ι ε α

/-- Histories of processes, one after another: a process starts in a world that
satisfies `init` or that a process left behind, wherever it was stopped. -/
inductive History {S : Sig} {ι ε W α : Type} [DecidableEq ι] (init : W → Prop)
    (boots : W → Boot S ι ε W α → Prop) : Boot S ι ε W α → Proc S ι ε W α → Prop
  | first {w : W} {b : Boot S ι ε W α} (hw : init w) (hb : boots w b) :
      History init boots b (Machine.booted b.world b.main)
  | step {b : Boot S ι ε W α} {c c' : Proc S ι ε W α} (h : History init boots b c)
      (hstep : b.machine.Step c c') : History init boots b c'
  | next {b b' : Boot S ι ε W α} {c : Proc S ι ε W α} (h : History init boots b c)
      (hb : boots c.world b') : History init boots b' (Machine.booted b'.world b'.main)

/-- What every process keeps, from its start to wherever it is stopped, holds along
every history. -/
theorem History.invariant {S : Sig} {ι ε W α : Type} [DecidableEq ι] {init I : W → Prop}
    {boots : W → Boot S ι ε W α → Prop} (hinit : ∀ w, init w → I w)
    (hrun : ∀ w b, I w → boots w b → ∀ c, b.machine.Run b.world b.main c → I c.world)
    {b : Boot S ι ε W α} {c : Proc S ι ε W α} (h : History init boots b c) :
    I c.world ∧ ∃ w, I w ∧ boots w b ∧ b.machine.Run b.world b.main c := by
  induction h with
  | @first w b hw hb => exact ⟨hrun w b (hinit w hw) hb _ .boot, w, hinit w hw, hb, .boot⟩
  | @step b c c' _ hstep ih =>
    obtain ⟨-, w, hw, hb, hr⟩ := ih
    exact ⟨hrun w b hw hb c' (hr.step hstep), w, hw, hb, hr.step hstep⟩
  | @next b b' c _ hb ih => exact ⟨hrun c.world b' ih.1 hb _ .boot, c.world, ih.1, hb, .boot⟩

/-! ### Runs and the operations alone -/

namespace Machine

variable {S : Sig} {ι ε W V α : Type} [DecidableEq ι] {M : Machine S ι ε W} {N : Machine S ι ε V}

/-- A step of a pool changes the world by an operation, if at all. -/
theorem pool_step_world {fn : ι → Prog S ε Unit} {sem : Prog.Sem S ε W} {startOk : ι → W → Prop}
    {w w' : W} {P P' : Pool S ι ε} {l : Label S ι ε} (h : P.Step fn sem startOk w l w' P') :
    w' = w ∨ ∃ o r, sem o w r w' := by
  cases h with
  | op hi ht hsem => exact .inr ⟨_, _, hsem⟩
  | _ => exact .inl rfl

/-- What every operation keeps, a process keeps. -/
theorem Run.keeps {I : W → Prop} (hsem : ∀ o w r w', M.sem o w r w' → I w → I w') {w : W}
    {main : MainProg S ι ε α} {c : Proc S ι ε W α} (h : M.Run w main c) (hw : I w) : I c.world := by
  induction h with
  | boot => exact hw
  | @step c c' _ hstep ih =>
    cases hstep with
    | main hp hm hop => exact hsem _ _ _ _ hop ih
    | fork hp hm => exact ih
    | pool hp hpool =>
      rcases pool_step_world hpool with hsame | ⟨o, r, hop⟩
      · show I _
        rw [hsame]
        exact ih
      · exact hsem _ _ _ _ hop ih
    | join hp hm hexit => exact ih

variable {rel : W → V → Prop}

/-- A step of a pool in one world, followed in another one. -/
theorem pool_step_simulate {fn : ι → Prog S ε Unit} {semM : Prog.Sem S ε W} {semN : Prog.Sem S ε V}
    {startM : ι → W → Prop} {startN : ι → V → Prop}
    (hsem : ∀ o w r w' v, semM o w r w' → rel w v → ∃ v', semN o v r v' ∧ rel w' v')
    (hstart : ∀ i w v, startM i w → rel w v → startN i v) {w w' : W} {v : V} {P P' : Pool S ι ε}
    {l : Label S ι ε} (h : P.Step fn semM startM w l w' P') (hrel : rel w v) :
    ∃ v', P.Step fn semN startN v l v' P' ∧ rel w' v' := by
  cases h with
  | inlineStart hc ht hok => exact ⟨v, .inlineStart hc ht (hstart _ _ _ hok hrel), hrel⟩
  | inlineNext hc ht => exact ⟨v, .inlineNext hc ht, hrel⟩
  | inlineRaise hc ht => exact ⟨v, .inlineRaise hc ht, hrel⟩
  | submit hc ht => exact ⟨v, .submit hc ht, hrel⟩
  | submitted hc => exact ⟨v, .submitted hc, hrel⟩
  | start hi ht hbusy hok => exact ⟨v, .start hi ht hbusy (hstart _ _ _ hok hrel), hrel⟩
  | op hi ht hop =>
    obtain ⟨v', hop', hrel'⟩ := hsem _ _ _ _ _ hop hrel
    exact ⟨v', .op hi ht hop', hrel'⟩
  | ret hi ht => exact ⟨v, .ret hi ht, hrel⟩
  | raise hi ht => exact ⟨v, .raise hi ht, hrel⟩
  | wake hc hfirst hrest => exact ⟨v, .wake hc hfirst hrest, hrel⟩
  | cancel hc ht => exact ⟨v, .cancel hc ht, hrel⟩
  | skip hc ht => exact ⟨v, .skip hc ht, hrel⟩
  | cancelled hc => exact ⟨v, .cancelled hc, hrel⟩

/-- A process in one world, followed in another one where its operations are. -/
theorem Run.simulate (hfn : N.fn = M.fn) (hworkers : N.workers = M.workers)
    (hsem : ∀ o w r w' v, M.sem o w r w' → rel w v → ∃ v', N.sem o v r v' ∧ rel w' v')
    (hstart : ∀ i w v, M.startOk i w → rel w v → N.startOk i v) {w : W} {v : V}
    {main : MainProg S ι ε α} {c : Proc S ι ε W α} (h : M.Run w main c) (hrel : rel w v) :
    ∃ v', N.Run v main ⟨v', c.main, c.pool, c.log⟩ ∧ rel c.world v' := by
  induction h with
  | boot => exact ⟨v, .boot, hrel⟩
  | @step c c' _ hstep ih =>
    obtain ⟨v₁, hrun, hrel₁⟩ := ih
    cases hstep with
    | main hp hm hop =>
      obtain ⟨v', hop', hrel'⟩ := hsem _ _ _ _ _ hop hrel₁
      exact ⟨v', hrun.step (.main hp hm hop'), hrel'⟩
    | fork hp hm =>
      refine ⟨v₁, ?_, hrel₁⟩
      rw [← hworkers]
      exact hrun.step (.fork hp hm)
    | pool hp hpool =>
      obtain ⟨v', hpool', hrel'⟩ := pool_step_simulate hsem hstart hpool hrel₁
      rw [← hfn] at hpool'
      exact ⟨v', hrun.step (.pool hp hpool'), hrel'⟩
    | join hp hm hexit => exact ⟨v₁, hrun.step (.join hp hm hexit), hrel₁⟩

end Machine

/-! ### Proving invariants of processes -/

/-- What the proof knows of an item: not started, running with local knowledge `l`,
or over. -/
inductive Ghost (L ε : Type)
  | idle
  | active (l : L)
  | done (r : Except ε Unit)

namespace Ghost

variable {L L' ε ι : Type} {f : L → L'}

/-- A part of what the proof knows. -/
def map (f : L → L') : Ghost L ε → Ghost L' ε
  | idle => idle
  | active l => active (f l)
  | done r => done r

theorem map_eq_idle {g : Ghost L ε} : g.map f = idle ↔ g = idle := by
  cases g <;> simp [map]

theorem map_eq_active {g : Ghost L ε} {l' : L'} :
    g.map f = active l' ↔ ∃ l, g = active l ∧ f l = l' := by
  cases g <;> simp [map]

theorem quiet_map {ts : ι → Ghost L ε} (h : ∀ i l, ts i ≠ active l) (i : ι) (l' : L') :
    (ts i).map f ≠ active l' := by
  intro hact
  obtain ⟨l, hl, -⟩ := map_eq_active.mp hact
  exact h i l hl

theorem map_update [DecidableEq ι] {ts : ι → Ghost L ε} {i : ι} {g : Ghost L ε} :
    (fun j => (Function.update ts i g j).map f) =
      Function.update (fun j => (ts j).map f) i (g.map f) := by
  funext j
  by_cases hji : j = i
  · subst hji
    rw [Function.update_self, Function.update_self]
  · rw [Function.update_of_ne hji, Function.update_of_ne hji]

end Ghost

/-- A proof that the programs of a machine keep an invariant of the world, what was
observed, what the main thread knows and what the workers know. -/
structure Discipline {S : Sig} {ι ε W : Type} [DecidableEq ι] (M : Machine S ι ε W)
    (Lm Lt : Type) where
  mainLogic : Prog.Logic (S.withFork ι) ε Lm
  taskLogic : ι → Prog.Logic S ε Lt
  /-- What a worker knows when its program has returned, or raised. -/
  taskRet : ι → Lt → Prop
  taskExc : ι → ε → Lt → Prop
  /-- What a worker knows when it starts. -/
  init : ι → Lt
  /-- The invariant; the list is that of the map in progress. -/
  Inv : W → List (Label S ι ε) → Lm → Option (List ι) → (ι → Ghost Lt ε) → Prop
  main_op : ∀ {w log lm ts o r w'}, Inv w log lm none ts → (∀ i l, ts i ≠ .active l) →
    mainLogic.ok (.inl o) lm → M.sem o w r w' →
    ∃ lm', mainLogic.next (.inl o) lm r lm' ∧ Inv w' (log ++ [.main o r]) lm' none ts
  fork : ∀ {w log lm ts items}, Inv w log lm none ts → (∀ i l, ts i ≠ .active l) →
    mainLogic.ok (.inr items) lm →
    (∀ i ∈ items, ts i = .idle) ∧ Inv w (log ++ [.fork items]) lm (some items) ts
  start : ∀ {w log lm ts items i}, Inv w log lm (some items) ts → i ∈ items →
    ts i = .idle → M.startOk i w →
    (M.fn i).wp (taskLogic i) (fun _ => taskRet i) (taskExc i) (init i) ∧
      Inv w (log ++ [.start i]) lm (some items) (Function.update ts i (.active (init i)))
  task_op : ∀ {w log lm ts items i l o r w'}, Inv w log lm (some items) ts → i ∈ items →
    ts i = .active l → (taskLogic i).ok o l → M.sem o w r w' →
    ∃ l', (taskLogic i).next o l r l' ∧
      Inv w' (log ++ [.op i o r]) lm (some items) (Function.update ts i (.active l'))
  finish : ∀ {w log lm ts items i l r}, Inv w log lm (some items) ts → i ∈ items →
    ts i = .active l → (r = .ok () → taskRet i l) → (∀ e, r = .error e → taskExc i e l) →
    Inv w (log ++ [.fin i r]) lm (some items) (Function.update ts i (.done r))
  tick : ∀ {w log lm ts items}, Inv w log lm (some items) ts →
    Inv w (log ++ [.tick]) lm (some items) ts
  join : ∀ {w log lm ts items r}, Inv w log lm (some items) ts →
    mainLogic.ok (.inr items) lm → (∀ i l, ts i ≠ .active l) →
    (r = .ok () → ∀ i ∈ items, ts i = .done (.ok ())) →
    (∀ e, r = .error e → ∃ i ∈ items, ts i = .done (.error e)) →
    ∃ lm', mainLogic.next (.inr items) lm r lm' ∧ Inv w (log ++ [.join r]) lm' none ts

namespace Discipline

variable {S : Sig} {ι ε W α Lm Lt : Type} [DecidableEq ι] {M : Machine S ι ε W}

/-- What the proof knows of a task agrees with where it stands. -/
def Agrees (D : Discipline M Lm Lt) (i : ι) : TaskState S ε → Ghost Lt ε → Prop
  | .unsubmitted, g => g = .idle
  | .pending, g => g = .idle
  | .cancelled, g => g = .idle
  | .running p, g => ∃ l, g = .active l ∧
      p.wp (D.taskLogic i) (fun _ => D.taskRet i) (D.taskExc i) l
  | .finished r, g => g = .done r

/-- What the position of the caller says about the tasks. -/
def CallerOk (P : Pool S ι ε) : Caller ι ε → Prop
  | .inline rest => ∃ pre, P.items = pre ++ rest ∧ ∀ i ∈ pre, P.task i = .finished (.ok ())
  | .submitting rest => ∀ i ∈ rest, i ∈ P.items
  | .waiting => True
  | .cancelling rest e => (∀ i ∈ rest, i ∈ P.items) ∧ ∃ i ∈ P.items, P.task i = .finished (.error e)
  | .joining e => ∃ i ∈ P.items, P.task i = .finished (.error e)

/-- A pool agrees with what the proof knows. -/
structure PoolOk (D : Discipline M Lm Lt) (ts : ι → Ghost Lt ε) (P : Pool S ι ε) : Prop where
  inside : ∀ i ∈ P.items, D.Agrees i (P.task i) (ts i)
  outside : ∀ i, i ∉ P.items → ∀ l, ts i ≠ .active l
  caller : CallerOk P P.caller

/-- The main thread is inside the map of the pool, or there is none and no worker
runs. -/
def MapOk (D : Discipline M Lm Lt) (main : MainProg S ι ε α) (ts : ι → Ghost Lt ε) :
    Option (Pool S ι ε) → Prop
  | none => ∀ i l, ts i ≠ .active l
  | some P => (∃ k, main = .call (.inr P.items) k) ∧ D.PoolOk ts P

/-- A configuration satisfies the discipline. -/
structure Holds (D : Discipline M Lm Lt) (Q : α → Lm → Prop) (E : ε → Lm → Prop)
    (c : Proc S ι ε W α) (lm : Lm) (ts : ι → Ghost Lt ε) : Prop where
  inv : D.Inv c.world c.log lm (c.pool.map Pool.items) ts
  main : c.main.wp D.mainLogic Q E lm
  map : D.MapOk c.main ts c.pool

/-- A task moves from one state to another; the others keep theirs. -/
theorem PoolOk.setTask {D : Discipline M Lm Lt} {ts : ι → Ghost Lt ε} {P : Pool S ι ε}
    (h : D.PoolOk ts P) {i : ι} (hi : i ∈ P.items) {t : TaskState S ε} {g : Ghost Lt ε}
    (hag : D.Agrees i t g) {caller : Caller ι ε}
    (hcaller : CallerOk { P.setTask i t with caller := caller } caller) :
    D.PoolOk (Function.update ts i g) { P.setTask i t with caller := caller } := by
  refine ⟨fun j hj => ?_, fun j hj => ?_, hcaller⟩
  · show D.Agrees j (Function.update P.task i t j) (Function.update ts i g j)
    by_cases hji : j = i
    · subst hji
      rw [Function.update_self, Function.update_self]
      exact hag
    · rw [Function.update_of_ne hji, Function.update_of_ne hji]
      exact h.inside j hj
  · have hji : j ≠ i := fun heq => hj (heq ▸ hi)
    rw [Function.update_of_ne hji]
    exact h.outside j hj

/-- The position of the caller stays good when a task that it does not count on
changes. -/
theorem CallerOk.setTask {P : Pool S ι ε} {i : ι} {t : TaskState S ε} {c : Caller ι ε}
    (h : CallerOk P c) (hi : ∀ r, P.task i ≠ .finished r) : CallerOk (P.setTask i t) c := by
  have hkeep : ∀ j r, P.task j = .finished r → (P.setTask i t).task j = .finished r := by
    intro j r hj
    have hji : j ≠ i := fun heq => hi r (heq ▸ hj)
    show Function.update P.task i t j = .finished r
    rw [Function.update_of_ne hji, hj]
  cases c with
  | inline rest =>
    obtain ⟨pre, hpre, hall⟩ := h
    exact ⟨pre, hpre, fun j hj => hkeep j _ (hall j hj)⟩
  | submitting rest => exact h
  | waiting => trivial
  | cancelling rest e =>
    obtain ⟨hrest, j, hj, hfin⟩ := h
    exact ⟨hrest, j, hj, hkeep j _ hfin⟩
  | joining e =>
    obtain ⟨j, hj, hfin⟩ := h
    exact ⟨j, hj, hkeep j _ hfin⟩

theorem update_eq_self_of_eq {ts : ι → Ghost Lt ε} {i : ι} {g : Ghost Lt ε} (h : ts i = g) :
    Function.update ts i g = ts := by
  rw [← h]
  exact Function.update_eq_self i ts

/-- A task changes its state without the proof learning anything. -/
theorem PoolOk.setTask_silent {D : Discipline M Lm Lt} {ts : ι → Ghost Lt ε} {P : Pool S ι ε}
    (h : D.PoolOk ts P) {i : ι} (hi : i ∈ P.items) {t : TaskState S ε} (hag : D.Agrees i t (ts i))
    {caller : Caller ι ε} (hcaller : CallerOk { P.setTask i t with caller := caller } caller) :
    D.PoolOk ts { P.setTask i t with caller := caller } := by
  have := h.setTask hi hag hcaller
  rwa [update_eq_self_of_eq rfl] at this

/-- Only the caller moves. -/
theorem PoolOk.setCaller {D : Discipline M Lm Lt} {ts : ι → Ghost Lt ε} {P : Pool S ι ε}
    (h : D.PoolOk ts P) {caller : Caller ι ε} (hcaller : CallerOk { P with caller } caller) :
    D.PoolOk ts { P with caller } :=
  ⟨h.inside, h.outside, hcaller⟩

/-- One step of a pool keeps the invariant. -/
theorem pool_step (D : Discipline M Lm Lt) {w w' : W} {log : List (Label S ι ε)} {lm : Lm}
    {ts : ι → Ghost Lt ε} {P P' : Pool S ι ε} {l : Label S ι ε} (hinv : D.Inv w log lm (some P.items) ts)
    (hP : D.PoolOk ts P)
    (hstep : P.Step M.fn M.sem M.startOk w l w' P') :
    ∃ ts', D.Inv w' (log ++ [l]) lm (some P.items) ts' ∧ D.PoolOk ts' P' ∧ P'.items = P.items := by
  have hcaller := hP.caller
  -- An item that starts: its ghost state is still idle.
  have hstart : ∀ i ∈ P.items, (P.task i = .unsubmitted ∨ P.task i = .pending) →
      M.startOk i w → ∃ ts', D.Inv w (log ++ [.start i]) lm (some P.items) ts' ∧
        D.PoolOk ts' (P.setTask i (.running (M.fn i))) := by
    intro i hi ht hstartOk
    have hag := hP.inside i hi
    have hidle : ts i = .idle := by rcases ht with ht | ht <;> (rw [ht] at hag; exact hag)
    have hnot : ∀ r, P.task i ≠ .finished r := by
      intro r hr
      rcases ht with ht | ht <;> (rw [ht] at hr; cases hr)
    obtain ⟨hwp, hinv'⟩ := D.start hinv hi hidle hstartOk
    exact ⟨_, hinv', hP.setTask (t := .running _) hi ⟨_, rfl, hwp⟩ (hcaller.setTask hnot)⟩
  -- A running item, with what it knows.
  have hrun : ∀ i ∈ P.items, ∀ p, P.task i = .running p → (∀ r, P.task i ≠ .finished r) ∧
      ∃ l, ts i = .active l ∧ p.wp (D.taskLogic i) (fun _ => D.taskRet i) (D.taskExc i) l := by
    intro i hi p ht
    have hag := hP.inside i hi
    rw [ht] at hag
    refine ⟨fun r hr => ?_, hag⟩
    rw [ht] at hr
    cases hr
  cases hstep with
  | @inlineStart _ i rest hc ht hstartOk =>
    rw [hc] at hcaller
    obtain ⟨pre, hpre, -⟩ := hcaller
    have hi : i ∈ P.items := by rw [hpre]; simp
    obtain ⟨ts', hinv', hP'⟩ := hstart i hi (.inl ht) hstartOk
    exact ⟨ts', hinv', hP', rfl⟩
  | @inlineNext _ i rest hc ht =>
    rw [hc] at hcaller
    obtain ⟨pre, hpre, hall⟩ := hcaller
    refine ⟨ts, D.tick hinv, hP.setCaller ⟨pre ++ [i], by simp [hpre], fun j hj => ?_⟩, rfl⟩
    rcases List.mem_append.mp hj with hj | hj
    · exact hall j hj
    · rw [List.mem_singleton.mp hj]
      exact ht
  | @inlineRaise _ i rest e hc ht =>
    rw [hc] at hcaller
    obtain ⟨pre, hpre, -⟩ := hcaller
    exact ⟨ts, D.tick hinv, hP.setCaller ⟨i, by rw [hpre]; simp, ht⟩, rfl⟩
  | @submit _ i rest hc ht =>
    rw [hc] at hcaller
    have hi : i ∈ P.items := hcaller i List.mem_cons_self
    have hag := hP.inside i hi
    rw [ht] at hag
    refine ⟨ts, D.tick hinv, hP.setTask_silent (t := .pending) hi hag fun j hj => ?_, rfl⟩
    exact hcaller j (List.mem_cons_of_mem i hj)
  | submitted hc => exact ⟨ts, D.tick hinv, hP.setCaller trivial, rfl⟩
  | @start _ i hi ht _ hstartOk =>
    obtain ⟨ts', hinv', hP'⟩ := hstart i hi (.inr ht) hstartOk
    exact ⟨ts', hinv', hP', rfl⟩
  | @op _ _ i o k r hi ht hsem =>
    obtain ⟨hnot, l, hact, hok', hnext⟩ := hrun i hi _ ht
    obtain ⟨l', hl', hinv'⟩ := D.task_op hinv hi hact hok' hsem
    exact ⟨_, hinv', hP.setTask (t := .running _) hi ⟨l', rfl, hnext r l' hl'⟩
      (hcaller.setTask hnot), rfl⟩
  | @ret _ i a hi ht =>
    obtain ⟨hnot, l, hact, hret⟩ := hrun i hi _ ht
    have hinv' := D.finish (r := .ok ()) hinv hi hact (fun _ => hret) (fun e he => nomatch he)
    exact ⟨_, hinv', hP.setTask (t := .finished _) hi rfl (hcaller.setTask hnot), rfl⟩
  | @raise _ i e hi ht =>
    obtain ⟨hnot, l, hact, hexc⟩ := hrun i hi _ ht
    have hinv' := D.finish (r := .error e) hinv hi hact (fun he => nomatch he)
      (fun e' he => by cases he; exact hexc)
    exact ⟨_, hinv', hP.setTask (t := .finished _) hi rfl (hcaller.setTask hnot), rfl⟩
  | @wake _ i e rest hc hfirst hrest =>
    obtain ⟨hfin, pre, post, hitems, -⟩ := hfirst
    have hi : i ∈ P.items := by rw [hitems]; simp
    exact ⟨ts, D.tick hinv, hP.setCaller ⟨fun j hj => ((hrest j).mp hj).1, i, hi, hfin⟩, rfl⟩
  | @cancel _ i rest e hc ht =>
    rw [hc] at hcaller
    have hi : i ∈ P.items := hcaller.1 i List.mem_cons_self
    have hag := hP.inside i hi
    rw [ht] at hag
    have hnot : ∀ r, P.task i ≠ .finished r := by
      intro r hr
      rw [ht] at hr
      cases hr
    refine ⟨ts, D.tick hinv, hP.setTask_silent (t := .cancelled) hi hag ?_, rfl⟩
    have hrest : CallerOk P (.cancelling rest e) :=
      ⟨fun j hj => hcaller.1 j (List.mem_cons_of_mem i hj), hcaller.2⟩
    exact hrest.setTask hnot
  | @skip _ i rest e hc ht =>
    rw [hc] at hcaller
    exact ⟨ts, D.tick hinv, hP.setCaller
      ⟨fun j hj => hcaller.1 j (List.mem_cons_of_mem i hj), hcaller.2⟩, rfl⟩
  | cancelled hc =>
    rw [hc] at hcaller
    exact ⟨ts, D.tick hinv, hP.setCaller hcaller.2, rfl⟩

/-- A pool that is left has no running worker, and its result is told by its tasks. -/
theorem PoolOk.exit {D : Discipline M Lm Lt} {ts : ι → Ghost Lt ε} {P : Pool S ι ε}
    (hP : D.PoolOk ts P) {r : Except ε Unit} (hexit : P.Exit r) :
    (∀ i l, ts i ≠ .active l) ∧ (r = .ok () → ∀ i ∈ P.items, ts i = .done (.ok ())) ∧
      (∀ e, r = .error e → ∃ i ∈ P.items, ts i = .done (.error e)) := by
  have hcaller := hP.caller
  -- When every item is finished well, so are their ghost states.
  have hallOk : (∀ i ∈ P.items, P.task i = .finished (.ok ())) →
      ∀ i ∈ P.items, ts i = .done (.ok ()) := by
    intro hall i hi
    have hag := hP.inside i hi
    rw [hall i hi] at hag
    exact hag
  have hquiet : (∀ i ∈ P.items, ts i = .done (.ok ())) → ∀ i l, ts i ≠ .active l := by
    intro hall i l hact
    by_cases hi : i ∈ P.items
    · rw [hall i hi] at hact
      cases hact
    · exact hP.outside i hi l hact
  cases hexit with
  | inline hc =>
    rw [hc] at hcaller
    obtain ⟨pre, hpre, hall⟩ := hcaller
    rw [List.append_nil] at hpre
    subst hpre
    exact ⟨hquiet (hallOk hall), fun _ => hallOk hall, fun e he => nomatch he⟩
  | ok hc hall => exact ⟨hquiet (hallOk hall), fun _ => hallOk hall, fun e he => nomatch he⟩
  | @error e hc hall =>
    rw [hc] at hcaller
    refine ⟨fun i l hact => ?_, (fun he => nomatch he), fun e' he => ?_⟩
    · by_cases hi : i ∈ P.items
      · have hag := hP.inside i hi
        cases ht : P.task i with
        | running p => exact (hall i hi).2 p ht
        | finished r => rw [ht, hact] at hag; cases hag
        | unsubmitted => rw [ht, hact] at hag; cases hag
        | pending => rw [ht, hact] at hag; cases hag
        | cancelled => rw [ht, hact] at hag; cases hag
      · exact hP.outside i hi l hact
    · cases he
      obtain ⟨i, hi, hfin⟩ := hcaller
      have hag := hP.inside i hi
      rw [hfin] at hag
      exact ⟨i, hi, hag⟩

/-- One step of a process keeps the invariant. -/
theorem step (D : Discipline M Lm Lt) {Q : α → Lm → Prop} {E : ε → Lm → Prop}
    {c c' : Proc S ι ε W α} {lm : Lm} {ts : ι → Ghost Lt ε} (h : D.Holds Q E c lm ts)
    (hstep : M.Step c c') : ∃ lm' ts', D.Holds Q E c' lm' ts' := by
  have hmap := h.map
  have hmain := h.main
  have hinv := h.inv
  cases hstep with
  | @main o k r w' hp hm hsem =>
    rw [hp] at hmap hinv
    rw [hm] at hmain
    obtain ⟨lm', hnext, hinv'⟩ := D.main_op hinv hmap hmain.1 hsem
    exact ⟨lm', ts, hinv', hmain.2 r lm' hnext, hmap⟩
  | @fork items k hp hm =>
    rw [hp] at hmap hinv
    rw [hm] at hmain
    obtain ⟨hidle, hinv'⟩ := D.fork hinv hmap hmain.1
    refine ⟨lm, ts, hinv', h.main, ⟨k, hm⟩, hidle, fun i _ => hmap i, ?_⟩
    show CallerOk (Pool.new items (M.workers items.length)) (if _ then _ else _)
    split
    · exact ⟨[], rfl, fun i hi => nomatch hi⟩
    · exact fun i hi => hi
  | @pool P P' w' l hp hs =>
    rw [hp] at hmap hinv
    obtain ⟨⟨k, hm⟩, hP⟩ := hmap
    obtain ⟨ts', hinv', hP', hitems⟩ := D.pool_step hinv hP hs
    refine ⟨lm, ts', ?_, h.main, ⟨by rw [hitems]; exact ⟨k, hm⟩, hP'⟩⟩
    show D.Inv w' (c.log ++ [l]) lm (some P'.items) ts'
    rw [hitems]
    exact hinv'
  | @join P items k r hp hm hexit =>
    rw [hp] at hmap hinv
    obtain ⟨⟨k', hm'⟩, hP⟩ := hmap
    rw [hm] at hmain hm'
    have hitems : items = P.items := by cases hm'; rfl
    subst hitems
    obtain ⟨hquiet, hret, hexc⟩ := hP.exit hexit
    obtain ⟨lm', hnext, hinv'⟩ := D.join hinv hmain.1 hquiet hret hexc
    exact ⟨lm', ts, hinv', hmain.2 r lm' hnext, hquiet⟩

/-- **The invariant holds along every run of a process.** -/
theorem run (D : Discipline M Lm Lt) {Q : α → Lm → Prop} {E : ε → Lm → Prop} {w : W}
    {main : MainProg S ι ε α} {lm : Lm} (hinv : D.Inv w [] lm none fun _ => .idle)
    (hmain : main.wp D.mainLogic Q E lm) {c : Proc S ι ε W α} (h : M.Run w main c) :
    ∃ lm ts, D.Holds Q E c lm ts := by
  induction h with
  | boot => exact ⟨lm, _, hinv, hmain, fun i l hl => nomatch hl⟩
  | step _ hstep ih =>
    obtain ⟨lm', ts', hh⟩ := ih
    exact D.step hh hstep

/-- The discipline in which the workers follow a second logic as well. -/
def watch (D : Discipline M Lm Lt) {L : Type} (H : ι → Prog.Logic S ε L) (enter : ι → L)
    (hnext : ∀ i o l r, ∃ l', (H i).next o l r l')
    (hfollows : ∀ i w, M.startOk i w →
      (M.fn i).wp (H i) (fun _ _ => True) (fun _ _ => True) (enter i)) :
    Discipline M Lm (Lt × L) where
  mainLogic := D.mainLogic
  taskLogic := fun i => (D.taskLogic i).prod (H i)
  taskRet := fun i l => D.taskRet i l.1
  taskExc := fun i e l => D.taskExc i e l.1
  init := fun i => (D.init i, enter i)
  Inv := fun w log lm cur ts => D.Inv w log lm cur fun i => (ts i).map Prod.fst
  main_op := fun hinv hquiet hok hsem => D.main_op hinv (Ghost.quiet_map hquiet) hok hsem
  fork := by
    intro w log lm ts items hinv hquiet hok
    obtain ⟨hidle, hinv'⟩ := D.fork hinv (Ghost.quiet_map hquiet) hok
    exact ⟨fun i hi => Ghost.map_eq_idle.mp (hidle i hi), hinv'⟩
  start := by
    intro w log lm ts items i hinv hi hidle hstart
    obtain ⟨hwp, hinv'⟩ := D.start hinv hi (Ghost.map_eq_idle.mpr hidle) hstart
    refine ⟨Prog.wp_mono (fun _ _ h => h.1) (fun _ _ h => h.1)
      (Prog.wp_prod hwp (hfollows i w hstart)), ?_⟩
    rw [Ghost.map_update]
    exact hinv'
  task_op := by
    intro w log lm ts items i l o r w' hinv hi hact hok hsem
    have hact' : (ts i).map Prod.fst = .active l.1 := by
      rw [hact]
      rfl
    obtain ⟨l₁, hn, hinv'⟩ := D.task_op hinv hi hact' hok.1 hsem
    obtain ⟨l₂, hn'⟩ := hnext i o l.2 r
    refine ⟨(l₁, l₂), ⟨hn, hn'⟩, ?_⟩
    rw [Ghost.map_update]
    exact hinv'
  finish := by
    intro w log lm ts items i l r hinv hi hact hret hexc
    have hact' : (ts i).map Prod.fst = .active l.1 := by
      rw [hact]
      rfl
    rw [Ghost.map_update]
    exact D.finish hinv hi hact' hret hexc
  tick := fun hinv => D.tick hinv
  join := by
    intro w log lm ts items r hinv hok hquiet hret hexc
    refine D.join hinv hok (Ghost.quiet_map hquiet) (fun hr i hi => ?_) fun e hr => ?_
    · rw [hret hr i hi]
      rfl
    · obtain ⟨i, hi, hdone⟩ := hexc e hr
      refine ⟨i, hi, ?_⟩
      rw [hdone]
      rfl

/-- The discipline in which the main thread follows a second logic as well. -/
def watchMain (D : Discipline M Lm Lt) {L : Type} (H : Prog.Logic (S.withFork ι) ε L)
    (hnext : ∀ o l r, ∃ l', H.next o l r l') : Discipline M (Lm × L) Lt where
  mainLogic := D.mainLogic.prod H
  taskLogic := D.taskLogic
  taskRet := D.taskRet
  taskExc := D.taskExc
  init := D.init
  Inv := fun w log lm cur ts => D.Inv w log lm.1 cur ts
  main_op := by
    intro w log lm ts o r w' hinv hquiet hok hsem
    obtain ⟨l₁, hn, hinv'⟩ := D.main_op hinv hquiet hok.1 hsem
    obtain ⟨l₂, hn'⟩ := hnext (.inl o) lm.2 r
    exact ⟨(l₁, l₂), ⟨hn, hn'⟩, hinv'⟩
  fork := fun hinv hquiet hok => D.fork hinv hquiet hok.1
  start := fun hinv hi hidle hstart => D.start hinv hi hidle hstart
  task_op := fun hinv hi hact hok hsem => D.task_op hinv hi hact hok hsem
  finish := fun hinv hi hact hret hexc => D.finish hinv hi hact hret hexc
  tick := fun hinv => D.tick hinv
  join := by
    intro w log lm ts items r hinv hok hquiet hret hexc
    obtain ⟨l₁, hn, hinv'⟩ := D.join hinv hok.1 hquiet hret hexc
    obtain ⟨l₂, hn'⟩ := hnext (.inr items) lm.2 r
    exact ⟨(l₁, l₂), ⟨hn, hn'⟩, hinv'⟩

/-- A further invariant that a discipline keeps, given the one it has. -/
structure Extra (D : Discipline M Lm Lt) where
  Inv : W → List (Label S ι ε) → Lm → Option (List ι) → (ι → Ghost Lt ε) → Prop
  main_op : ∀ {w log lm ts o r w' lm'}, D.Inv w log lm none ts → Inv w log lm none ts →
    (∀ i l, ts i ≠ .active l) → D.mainLogic.ok (.inl o) lm → M.sem o w r w' →
    D.mainLogic.next (.inl o) lm r lm' → Inv w' (log ++ [.main o r]) lm' none ts
  fork : ∀ {w log lm ts items}, D.Inv w log lm none ts → Inv w log lm none ts →
    D.mainLogic.ok (.inr items) lm → Inv w (log ++ [.fork items]) lm (some items) ts
  start : ∀ {w log lm ts items i}, D.Inv w log lm (some items) ts → Inv w log lm (some items) ts →
    i ∈ items → ts i = .idle → M.startOk i w →
    Inv w (log ++ [.start i]) lm (some items) (Function.update ts i (.active (D.init i)))
  task_op : ∀ {w log lm ts items i l o r w' l'}, D.Inv w log lm (some items) ts →
    Inv w log lm (some items) ts → i ∈ items → ts i = .active l → (D.taskLogic i).ok o l →
    M.sem o w r w' → (D.taskLogic i).next o l r l' →
    Inv w' (log ++ [.op i o r]) lm (some items) (Function.update ts i (.active l'))
  finish : ∀ {w log lm ts items i l r}, D.Inv w log lm (some items) ts →
    Inv w log lm (some items) ts → i ∈ items → ts i = .active l → (r = .ok () → D.taskRet i l) →
    (∀ e, r = .error e → D.taskExc i e l) →
    Inv w (log ++ [.fin i r]) lm (some items) (Function.update ts i (.done r))
  tick : ∀ {w log lm ts items}, D.Inv w log lm (some items) ts → Inv w log lm (some items) ts →
    Inv w (log ++ [.tick]) lm (some items) ts
  join : ∀ {w log lm ts items r lm'}, D.Inv w log lm (some items) ts →
    Inv w log lm (some items) ts → D.mainLogic.ok (.inr items) lm → (∀ i l, ts i ≠ .active l) →
    (r = .ok () → ∀ i ∈ items, ts i = .done (.ok ())) → D.mainLogic.next (.inr items) lm r lm' →
    Inv w (log ++ [.join r]) lm' none ts

/-- The discipline that keeps both. -/
def and (D : Discipline M Lm Lt) (X : Extra D) : Discipline M Lm Lt where
  mainLogic := D.mainLogic
  taskLogic := D.taskLogic
  taskRet := D.taskRet
  taskExc := D.taskExc
  init := D.init
  Inv := fun w log lm cur ts => D.Inv w log lm cur ts ∧ X.Inv w log lm cur ts
  main_op := by
    rintro w log lm ts o r w' ⟨hD, hX⟩ hquiet hok hsem
    obtain ⟨lm', hnext, hD'⟩ := D.main_op hD hquiet hok hsem
    exact ⟨lm', hnext, hD', X.main_op hD hX hquiet hok hsem hnext⟩
  fork := by
    rintro w log lm ts items ⟨hD, hX⟩ hquiet hok
    obtain ⟨hidle, hD'⟩ := D.fork hD hquiet hok
    exact ⟨hidle, hD', X.fork hD hX hok⟩
  start := by
    rintro w log lm ts items i ⟨hD, hX⟩ hi hidle hstart
    obtain ⟨hwp, hD'⟩ := D.start hD hi hidle hstart
    exact ⟨hwp, hD', X.start hD hX hi hidle hstart⟩
  task_op := by
    rintro w log lm ts items i l o r w' ⟨hD, hX⟩ hi hact hok hsem
    obtain ⟨l', hnext, hD'⟩ := D.task_op hD hi hact hok hsem
    exact ⟨l', hnext, hD', X.task_op hD hX hi hact hok hsem hnext⟩
  finish := by
    rintro w log lm ts items i l r ⟨hD, hX⟩ hi hact hret hexc
    exact ⟨D.finish hD hi hact hret hexc, X.finish hD hX hi hact hret hexc⟩
  tick := fun h => ⟨D.tick h.1, X.tick h.1 h.2⟩
  join := by
    rintro w log lm ts items r ⟨hD, hX⟩ hok hquiet hret hexc
    obtain ⟨lm', hnext, hD'⟩ := D.join hD hok hquiet hret hexc
    exact ⟨lm', hnext, hD', X.join hD hX hok hquiet hret hnext⟩

end Discipline
