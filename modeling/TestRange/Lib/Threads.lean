/-
Threads that run programs for jobs, one call at a time and in any order.

A thread takes a job, runs the program of the job and is free again; between two of its
calls any other thread may make calls, and a thread may die at any moment.

* `System`, `Threads.Step`, `Threads.Reachable` — such a system and its runs, all of whose
  calls meet a condition;
* `Threads.Discipline` — an invariant of the world together with a local state for every
  thread, kept by every call a thread is allowed to make in its local state;
* `Threads.Discipline.reachable` — then the invariant holds in every state that is reached;
* `Threads.play` — a run that follows a script.
-/
import Mathlib.Logic.Function.Basic
import TestRange.Lib.Prog

/-- Jobs and the programs that do them, what a call of a thread may answer and do to the
world, and what the world remembers of the start and the end of a job and of a death. -/
structure System (S : Sig) (ε ι J W : Type) where
  program : J → Prog S ε Unit
  sem : ι → Prog.Sem S ε W
  starts : ι → J → W → W
  ends : ι → J → Except ε Unit → W → W
  dies : ι → W → W

/-- The world, and the job and the rest of the program of each thread that has one. -/
structure Threads (S : Sig) (ε ι J W : Type) where
  world : W
  running : ι → Option (J × Prog S ε Unit)

namespace Threads

variable {S : Sig} {ε ι J W : Type}

/-- The jobs the threads have. -/
def jobs (c : Threads S ε ι J W) (t : ι) : Option J := (c.running t).map Prod.fst

/-- A condition on a call: the world, the jobs, the thread, the operation and its answer. -/
abbrev Condition (S : Sig) (ε ι J W : Type) : Type :=
  W → (ι → Option J) → ι → (o : S.Op) → Except ε (S.Res o) → Prop

theorem jobs_of_running {c : Threads S ε ι J W} {t : ι} {j : J} {p : Prog S ε Unit}
    (h : c.running t = some (j, p)) : c.jobs t = some j := by
  rw [jobs, h]
  rfl

variable [DecidableEq ι]

/-- What may happen next. -/
inductive Step (M : System S ε ι J W) (allow : Condition S ε ι J W) :
    Threads S ε ι J W → Threads S ε ι J W → Prop
  | start {c : Threads S ε ι J W} {t : ι} (j : J) (hfree : c.running t = none) :
      Step M allow c ⟨M.starts t j c.world, Function.update c.running t (some (j, M.program j))⟩
  | call {c : Threads S ε ι J W} {t : ι} {j : J} {o : S.Op} {k : Except ε (S.Res o) → Prog S ε Unit}
      {r : Except ε (S.Res o)} {w : W} (hrun : c.running t = some (j, .call o k))
      (hallow : allow c.world c.jobs t o r) (hsem : M.sem t o c.world r w) :
      Step M allow c ⟨w, Function.update c.running t (some (j, k r))⟩
  | ret {c : Threads S ε ι J W} {t : ι} {j : J} (hrun : c.running t = some (j, .ret ())) :
      Step M allow c ⟨M.ends t j (.ok ()) c.world, Function.update c.running t none⟩
  | raise {c : Threads S ε ι J W} {t : ι} {j : J} {e : ε} (hrun : c.running t = some (j, .raise e)) :
      Step M allow c ⟨M.ends t j (.error e) c.world, Function.update c.running t none⟩
  | die {c : Threads S ε ι J W} (t : ι) :
      Step M allow c ⟨M.dies t c.world, Function.update c.running t none⟩

/-- What is reached from worlds in `init` in which no thread has a job. -/
inductive Reachable (M : System S ε ι J W) (allow : Condition S ε ι J W) (init : W → Prop) :
    Threads S ε ι J W → Prop
  | init {w : W} (hw : init w) : Reachable M allow init ⟨w, fun _ => none⟩
  | step {c c' : Threads S ε ι J W} (hc : Reachable M allow init c) (hstep : Step M allow c c') :
      Reachable M allow init c'

/-! ### Invariants -/

/-- An invariant `inv` of the world, of a local state of every thread and of the jobs.  A
call that a thread is allowed in its local state keeps it, for some local state that the
logic of the job lets follow; jobs begin and end between local states that keep it. -/
structure Discipline (M : System S ε ι J W) (allow : Condition S ε ι J W) (init : W → Prop)
    (L : Type) where
  logic : J → Prog.Logic S ε L
  returned : J → L → Prop
  raised : J → L → Prop
  inv : W → (ι → L) → (ι → Option J) → Prop
  init : ∀ w, init w → ∃ ls, inv w ls fun _ => none
  start : ∀ {w ls js t} (j : J), inv w ls js → js t = none →
    ∃ l, inv (M.starts t j w) (Function.update ls t l) (Function.update js t (some j)) ∧
      (M.program j).wp (logic j) (fun _ => returned j) (fun _ => raised j) l
  call : ∀ {w ls js t j o r w'}, inv w ls js → js t = some j → (logic j).ok o (ls t) →
    allow w js t o r → M.sem t o w r w' →
    ∃ l, (logic j).next o (ls t) r l ∧ inv w' (Function.update ls t l) js
  ret : ∀ {w ls js t j}, inv w ls js → js t = some j → returned j (ls t) →
    ∃ l, inv (M.ends t j (.ok ()) w) (Function.update ls t l) (Function.update js t none)
  raise : ∀ {w ls js t j e}, inv w ls js → js t = some j → raised j (ls t) →
    ∃ l, inv (M.ends t j (.error e) w) (Function.update ls t l) (Function.update js t none)
  die : ∀ {w ls js} (t), inv w ls js →
    ∃ l, inv (M.dies t w) (Function.update ls t l) (Function.update js t none)

namespace Discipline

variable {M : System S ε ι J W} {allow : Condition S ε ι J W} {init : W → Prop} {L : Type}

/-- The invariant, and the rest of every program within what its thread may still do. -/
structure Holds (D : Discipline M allow init L) (c : Threads S ε ι J W) (ls : ι → L) : Prop where
  inv : D.inv c.world ls c.jobs
  follows : ∀ t j p, c.running t = some (j, p) →
    p.wp (D.logic j) (fun _ => D.returned j) (fun _ => D.raised j) (ls t)

theorem jobs_update (c : Threads S ε ι J W) (w : W) (t : ι) (x : Option (J × Prog S ε Unit)) :
    jobs ⟨w, Function.update c.running t x⟩ = Function.update c.jobs t (x.map Prod.fst) := by
  funext u
  by_cases hu : u = t
  · subst hu
    simp [jobs]
  · simp [jobs, hu]

/-- A thread that changes its program only leaves the others within what they may do. -/
theorem follows_update {D : Discipline M allow init L} {c : Threads S ε ι J W} {ls : ι → L} {t : ι} {l : L}
    {x : Option (J × Prog S ε Unit)} (h : Holds D c ls)
    (hx : ∀ j p, x = some (j, p) →
      p.wp (D.logic j) (fun _ => D.returned j) (fun _ => D.raised j) l) (u : ι) (j : J) (p : Prog S ε Unit)
    (hp : Function.update c.running t x u = some (j, p)) :
    p.wp (D.logic j) (fun _ => D.returned j) (fun _ => D.raised j) (Function.update ls t l u) := by
  by_cases hu : u = t
  · subst hu
    rw [Function.update_self] at hp ⊢
    exact hx j p hp
  · rw [Function.update_of_ne hu] at hp ⊢
    exact h.follows u j p hp

/-- A thread that is free again is within what it may do. -/
theorem follows_free {D : Discipline M allow init L} {c : Threads S ε ι J W} {ls : ι → L} {t : ι} {l : L}
    (h : Holds D c ls) (u : ι) (j : J) (p : Prog S ε Unit)
    (hp : Function.update c.running t none u = some (j, p)) :
    p.wp (D.logic j) (fun _ => D.returned j) (fun _ => D.raised j) (Function.update ls t l u) := by
  refine follows_update h ?_ u j p hp
  rintro _ _ ⟨⟩

/-- One step. -/
theorem step (D : Discipline M allow init L) {c c' : Threads S ε ι J W} {ls : ι → L} (h : Holds D c ls)
    (hstep : Step M allow c c') : ∃ ls', Holds D c' ls' := by
  cases hstep with
  | @start t j hfree =>
    have hjob : c.jobs t = none := by rw [jobs, hfree]; rfl
    obtain ⟨l, hinv, hwp⟩ := D.start j h.inv hjob
    refine ⟨Function.update ls t l, ?_, follows_update h ?_⟩
    · rw [jobs_update]
      exact hinv
    · rintro _ _ ⟨⟩
      exact hwp
  | @call t j o k r w hrun hallow hsem =>
    have hjob := jobs_of_running hrun
    obtain ⟨hok, hnext⟩ := h.follows t j _ hrun
    obtain ⟨l, hl, hinv⟩ := D.call h.inv hjob hok hallow hsem
    refine ⟨Function.update ls t l, ?_, follows_update h ?_⟩
    · rw [jobs_update, Option.map_some, ← hjob, Function.update_eq_self]
      exact hinv
    · rintro _ _ ⟨⟩
      exact hnext r l hl
  | @ret t j hrun =>
    obtain ⟨l, hinv⟩ := D.ret h.inv (jobs_of_running hrun) (h.follows t j _ hrun)
    refine ⟨Function.update ls t l, ?_, follows_free h⟩
    rw [jobs_update]
    exact hinv
  | @raise t j e hrun =>
    obtain ⟨l, hinv⟩ := D.raise h.inv (jobs_of_running hrun) (h.follows t j _ hrun)
    refine ⟨Function.update ls t l, ?_, follows_free h⟩
    rw [jobs_update]
    exact hinv
  | die t =>
    obtain ⟨l, hinv⟩ := D.die t h.inv
    refine ⟨Function.update ls t l, ?_, follows_free h⟩
    rw [jobs_update]
    exact hinv

/-- Every state that is reached keeps the invariant. -/
theorem reachable (D : Discipline M allow init L) {c : Threads S ε ι J W}
    (hc : Reachable M allow init c) : ∃ ls, Holds D c ls := by
  induction hc with
  | init hw =>
    obtain ⟨ls, hinv⟩ := D.init _ hw
    exact ⟨ls, hinv, by rintro t j p ⟨⟩⟩
  | step _ hstep ih =>
    obtain ⟨ls, h⟩ := ih
    exact D.step h hstep

end Discipline

/-! ### Scripts -/

/-- A line of a script. -/
inductive Move (ι J : Type)
  | start (t : ι) (j : J)
  | call (t : ι)
  | finish (t : ι)
  | die (t : ι)

/-- One line of a script: a line that does not apply, or whose call is not permitted, is
skipped. -/
def play1 (M : System S ε ι J W) (permit : W → (ι → Option J) → ι → S.Op → Bool)
    (answer : ι → Prog.Handler S ε W) (c : Threads S ε ι J W) : Move ι J → Threads S ε ι J W
  | .start t j =>
    match c.running t with
    | none => ⟨M.starts t j c.world, Function.update c.running t (some (j, M.program j))⟩
    | some _ => c
  | .call t =>
    match c.running t with
    | some (j, .call o k) =>
      if permit c.world c.jobs t o then
        ⟨(answer t o c.world).2, Function.update c.running t (some (j, k (answer t o c.world).1))⟩
      else c
    | _ => c
  | .finish t =>
    match c.running t with
    | some (j, .ret ()) => ⟨M.ends t j (.ok ()) c.world, Function.update c.running t none⟩
    | some (j, .raise e) => ⟨M.ends t j (.error e) c.world, Function.update c.running t none⟩
    | _ => c
  | .die t => ⟨M.dies t c.world, Function.update c.running t none⟩

/-- A whole script. -/
def play (M : System S ε ι J W) (permit : W → (ι → Option J) → ι → S.Op → Bool)
    (answer : ι → Prog.Handler S ε W) (moves : List (Move ι J)) (c : Threads S ε ι J W) :
    Threads S ε ι J W :=
  moves.foldl (play1 M permit answer) c

variable {M : System S ε ι J W} {allow : Condition S ε ι J W} {init : W → Prop}
  {permit : W → (ι → Option J) → ι → S.Op → Bool} {answer : ι → Prog.Handler S ε W}

theorem reachable_play1 (hpermit : ∀ w js t o r, permit w js t o = true → allow w js t o r)
    (hanswer : ∀ w js t o, permit w js t o = true → M.sem t o w (answer t o w).1 (answer t o w).2)
    {c : Threads S ε ι J W}
    (hc : Reachable M allow init c) (m : Move ι J) :
    Reachable M allow init (play1 M permit answer c m) := by
  cases m with
  | start t j =>
    simp only [play1]
    split
    · exact hc.step (.start j ‹_›)
    · exact hc
  | call t =>
    simp only [play1]
    split
    · split_ifs with hpermitted
      · exact hc.step (.call ‹_› (hpermit _ _ _ _ _ hpermitted) (hanswer _ _ _ _ hpermitted))
      · exact hc
    · exact hc
  | finish t =>
    simp only [play1]
    split
    · exact hc.step (.ret ‹_›)
    · exact hc.step (.raise ‹_›)
    · exact hc
  | die t => exact hc.step (.die t)

/-- Following a script only reaches what can be reached. -/
theorem reachable_play (hpermit : ∀ w js t o r, permit w js t o = true → allow w js t o r)
    (hanswer : ∀ w js t o, permit w js t o = true → M.sem t o w (answer t o w).1 (answer t o w).2)
    {c : Threads S ε ι J W}
    (hc : Reachable M allow init c) (moves : List (Move ι J)) :
    Reachable M allow init (play M permit answer moves c) := by
  induction moves generalizing c with
  | nil => exact hc
  | cons m moves ih => exact ih (reachable_play1 hpermit hanswer hc m)

end Threads
