/-
Runs of processes in big steps.

A process whose maps are run by a single worker can be followed item by item: each item
runs to its end before the next one starts.

* `Prog.Ends` — a program has a run with this outcome;
* `Prog.Live` — a program has a run, from wherever it is started;
* `Machine.InOrder` — the items of a map, one after another;
* `Machine.bigSem` — the calls of a main thread, a map being one of them;
* `Machine.Run.of_ends` — a big-step run of the main program is a run of the process;
  `Machine.Run.of_ends_bind` — so is one of its first part, before the rest;
* `Prog.play`, `Machine.mainScript` — the run on a script of answers, which can be computed;
* `History.first_run`, `History.then_run` — such runs, one process after another.
-/
import TestRange.Lib.Pool

namespace Prog

variable {S : Sig} {ε W α β : Type} {sem : Sem S ε W} {w w₁ w₂ : W}

/-- A program has a run with this outcome. -/
def Ends (sem : Sem S ε W) (p : Prog S ε α) (w : W) (out : Except ε α) (w' : W) : Prop :=
  ∃ tr, Runs sem p w tr out w'

namespace Ends

theorem ret (a : α) (w : W) : Ends sem (.ret a) w (.ok a) w := ⟨[], .ret a w⟩

theorem raise (e : ε) (w : W) : Ends sem (.raise e : Prog S ε α) w (.error e) w := ⟨[], .raise e w⟩

theorem call {o : S.Op} {k : Except ε (S.Res o) → Prog S ε α} {r : Except ε (S.Res o)}
    {out : Except ε α} (hr : sem o w r w₁) (hk : Ends sem (k r) w₁ out w₂) :
    Ends sem (.call o k) w out w₂ := by
  obtain ⟨tr, htr⟩ := hk
  exact ⟨_, .call hr htr⟩

theorem perform {o : S.Op} {r : Except ε (S.Res o)} (hr : sem o w r w₁) :
    Ends sem (.perform o) w r w₁ := ⟨_, runs_perform.mpr ⟨rfl, hr⟩⟩

theorem bind {p : Prog S ε α} {f : α → Prog S ε β} {a : α} {out : Except ε β}
    (hp : Ends sem p w (.ok a) w₁) (hf : Ends sem (f a) w₁ out w₂) :
    Ends sem (p >>= f) w out w₂ := by
  obtain ⟨tr₁, h₁⟩ := hp
  obtain ⟨tr₂, h₂⟩ := hf
  exact ⟨tr₁ ++ tr₂, runs_bind.mpr (.inl ⟨a, w₁, tr₁, tr₂, rfl, h₁, h₂⟩)⟩

theorem bind_raise {p : Prog S ε α} {f : α → Prog S ε β} {e : ε} (hp : Ends sem p w (.error e) w₁) :
    Ends sem (p >>= f) w (.error e) w₁ := by
  obtain ⟨tr, htr⟩ := hp
  exact ⟨tr, runs_bind.mpr (.inr ⟨e, rfl, htr⟩)⟩

theorem attempt {p : Prog S ε α} {out : Except ε α} (hp : Ends sem p w out w₁) :
    Ends sem p.attempt w (.ok out) w₁ := by
  obtain ⟨tr, htr⟩ := hp
  exact ⟨tr, runs_attempt.mpr ⟨out, rfl, htr⟩⟩

theorem tryCatch {p : Prog S ε α} {a : α} (hp : Ends sem p w (.ok a) w₁) (h : ε → Prog S ε α) :
    Ends sem (p.tryCatch h) w (.ok a) w₁ := by
  obtain ⟨tr, htr⟩ := hp
  exact ⟨tr, runs_tryCatch.mpr (.inl ⟨a, rfl, htr⟩)⟩

theorem tryCatch_raise {p : Prog S ε α} {h : ε → Prog S ε α} {e : ε} {out : Except ε α}
    (hp : Ends sem p w (.error e) w₁) (hh : Ends sem (h e) w₁ out w₂) :
    Ends sem (p.tryCatch h) w out w₂ := by
  obtain ⟨tr₁, h₁⟩ := hp
  obtain ⟨tr₂, h₂⟩ := hh
  exact ⟨tr₁ ++ tr₂, runs_tryCatch.mpr (.inr ⟨e, w₁, tr₁, tr₂, rfl, h₁, h₂⟩)⟩

theorem ignore {p : Prog S ε α} {out : Except ε α} (hp : Ends sem p w out w₁) :
    Ends sem p.ignore w (.ok ()) w₁ := by
  obtain ⟨tr, htr⟩ := hp
  exact ⟨tr, runs_ignore.mpr ⟨rfl, out, htr⟩⟩

theorem ofExcept (out : Except ε α) (w : W) : Ends sem (.ofExcept out) w out w := by
  cases out with
  | ok a => exact ret a w
  | error e => exact raise e w

theorem tryFinally {p : Prog S ε α} {q : Prog S ε Unit} {out : Except ε α}
    (hp : Ends sem p w out w₁) (hq : Ends sem q w₁ (.ok ()) w₂) :
    Ends sem (p.tryFinally q) w out w₂ :=
  bind hp.attempt (bind hq (ofExcept out w₂))

end Ends

/-- From wherever it is started, a program may end. -/
def Live (sem : Sem S ε W) (p : Prog S ε α) : Prop := ∀ w, ∃ out w', Ends sem p w out w'

namespace Live

theorem ret (a : α) : Live sem (.ret a) := fun w => ⟨_, w, .ret a w⟩

theorem raise (e : ε) : Live sem (.raise e : Prog S ε α) := fun w => ⟨_, w, .raise e w⟩

theorem perform {o : S.Op} (h : ∀ w, ∃ r w', sem o w r w') : Live sem (.perform o) := fun w => by
  obtain ⟨r, w', hr⟩ := h w
  exact ⟨r, w', .perform hr⟩

theorem bind {p : Prog S ε α} {f : α → Prog S ε β} (hp : Live sem p) (hf : ∀ a, Live sem (f a)) :
    Live sem (p >>= f) := by
  intro w
  obtain ⟨out, w₁, hends⟩ := hp w
  cases out with
  | error e => exact ⟨.error e, w₁, hends.bind_raise⟩
  | ok a =>
    obtain ⟨out, w₂, hrest⟩ := hf a w₁
    exact ⟨out, w₂, hends.bind hrest⟩

theorem tryCatch {p : Prog S ε α} {h : ε → Prog S ε α} (hp : Live sem p) (hh : ∀ e, Live sem (h e)) :
    Live sem (p.tryCatch h) := by
  intro w
  obtain ⟨out, w₁, hends⟩ := hp w
  cases out with
  | ok a => exact ⟨.ok a, w₁, hends.tryCatch h⟩
  | error e =>
    obtain ⟨out, w₂, hrest⟩ := hh e w₁
    exact ⟨out, w₂, hends.tryCatch_raise hrest⟩

end Live

/-! ### Scripts -/

/-- An answer to each call, and what the call leaves; `none` where there is no answer. -/
abbrev Script (S : Sig) (ε W : Type) : Type :=
  (o : S.Op) → W → Option (Except ε (S.Res o) × W)

/-- The answers can come about. -/
def Script.Sound (ans : Script S ε W) (sem : Sem S ε W) : Prop :=
  ∀ o w r w', ans o w = some (r, w') → sem o w r w'

/-- The run of a program on a script. -/
def play (ans : Script S ε W) : Prog S ε α → W → Option (Except ε α × W)
  | .ret a, w => some (.ok a, w)
  | .raise e, w => some (.error e, w)
  | .call o k, w =>
    match ans o w with
    | some (r, w₁) => play ans (k r) w₁
    | none => none

/-- **What is played is a run.** -/
theorem Ends.of_play {ans : Script S ε W} (hans : ans.Sound sem) {p : Prog S ε α} {w w' : W}
    {out : Except ε α} (h : p.play ans w = some (out, w')) : Ends sem p w out w' := by
  induction p generalizing w with
  | ret a =>
    cases h
    exact .ret a _
  | raise e =>
    cases h
    exact .raise e _
  | call o k ih =>
    rw [play] at h
    split at h
    · rename_i r w₁ hr
      exact .call (hans o w r w₁ hr) (ih r h)
    · cases h

end Prog

namespace Machine

variable {S : Sig} {ι ε W α : Type} [DecidableEq ι]

/-- The items of a map, one after another, up to the first that raises. -/
inductive InOrder (M : Machine S ι ε W) : List ι → W → Except ε Unit → W → Prop
  | nil {w : W} : InOrder M [] w (.ok ()) w
  | cons {i : ι} {items : List ι} {w w₁ w₂ : W} {r : Except ε Unit}
      (hstart : M.startOk i w) (hi : Prog.Ends M.sem (M.fn i) w (.ok ()) w₁)
      (hrest : InOrder M items w₁ r w₂) : InOrder M (i :: items) w r w₂
  | raise {i : ι} {items : List ι} {w w₁ : W} {e : ε}
      (hstart : M.startOk i w) (hi : Prog.Ends M.sem (M.fn i) w (.error e) w₁) :
      InOrder M (i :: items) w (.error e) w₁

/-- What the calls of a main thread do, where every map is run in order. -/
def bigSem (M : Machine S ι ε W) : Prog.Sem (S.withFork ι) ε W
  | .inl o, w, r, w' => M.sem o w r w'
  | .inr items, w, r, w' => M.workers items.length = 1 ∧ items.Nodup ∧ M.InOrder items w r w'

omit [DecidableEq ι] in
/-- A program of plain operations runs in the main thread as it does by itself. -/
theorem ends_lift {M : Machine S ι ε W} {p : Prog S ε α} {w w' : W} {out : Except ε α}
    (h : Prog.Ends M.sem p w out w') : Prog.Ends M.bigSem (MainProg.lift p) w out w' := by
  obtain ⟨tr, htr⟩ := h
  induction htr with
  | ret a w => exact .ret a w
  | raise e w => exact .raise e w
  | call hsem hk ih => exact .call hsem ih

omit [DecidableEq ι] in
/-- A map that is run in order. -/
theorem ends_fork {M : Machine S ι ε W} {items : List ι} {w w' : W} {r : Except ε Unit}
    (hworkers : M.workers items.length = 1) (hnd : items.Nodup) (h : M.InOrder items w r w') :
    Prog.Ends M.bigSem (MainProg.fork items) w r w' :=
  .perform ⟨hworkers, hnd, h⟩

/-- The items of a map on a script, up to the first that raises. -/
def playItems (M : Machine S ι ε W) (ans : Prog.Script S ε W) :
    List ι → W → Option (Except ε Unit × W)
  | [], w => some (.ok (), w)
  | i :: items, w =>
    match (M.fn i).play ans w with
    | some (.ok (), w₁) => playItems M ans items w₁
    | other => other

/-- The script of a main thread whose maps are run by a single worker. -/
def mainScript (M : Machine S ι ε W) (ans : Prog.Script S ε W) : Prog.Script (S.withFork ι) ε W
  | .inl o, w => ans o w
  | .inr items, w =>
    if M.workers items.length = 1 ∧ items.Nodup then M.playItems ans items w else none

omit [DecidableEq ι] in
theorem InOrder.of_play {M : Machine S ι ε W} {ans : Prog.Script S ε W} (hans : ans.Sound M.sem)
    (hstart : ∀ i w, M.startOk i w) {items : List ι} {w w' : W} {r : Except ε Unit}
    (h : M.playItems ans items w = some (r, w')) : M.InOrder items w r w' := by
  induction items generalizing w with
  | nil =>
    cases h
    exact .nil
  | cons i items ih =>
    rw [playItems] at h
    split at h
    · rename_i w₁ hi
      exact .cons (hstart i w) (.of_play hans hi) (ih h)
    · rename_i other hother
      cases r with
      | ok a => exact absurd h (hother w')
      | error e => exact .raise (hstart i w) (.of_play hans h)

/-- What is played of a main thread is a run in big steps. -/
theorem sound_mainScript {M : Machine S ι ε W} {ans : Prog.Script S ε W}
    (hans : ans.Sound M.sem) (hstart : ∀ i w, M.startOk i w) :
    (M.mainScript ans).Sound M.bigSem := by
  -- A map, run in order.
  have hmap : ∀ (items : List ι) (w : W) (r : Except ε Unit) (w' : W),
      (if M.workers items.length = 1 ∧ items.Nodup then M.playItems ans items w else none) =
        some (r, w') → M.bigSem (.inr items) w r w' := by
    intro items w r w' h
    split_ifs at h with hsingle
    exact ⟨hsingle.1, hsingle.2, .of_play hans hstart h⟩
  rintro (o | items) w r w' h
  · exact hans o w r w' h
  · exact hmap items w r w' h

/-- The program that is left when a run has ended. -/
def left : Except ε α → MainProg S ι ε α
  | .ok a => .ret a
  | .error e => .raise e

variable {M : Machine S ι ε W} {w₀ : W} {main : MainProg S ι ε α}

/-- An item that runs to its end. -/
theorem Run.item {w w' : W} {m : MainProg S ι ε α} {P : Pool S ι ε} {log : List (Label S ι ε)}
    {i : ι} {p : Prog S ε Unit} {tr : List (Prog.Call S ε)} {r : Except ε Unit}
    (hr : Prog.Runs M.sem p w tr r w') (h : M.Run w₀ main ⟨w, m, some P, log⟩) (hi : i ∈ P.items)
    (ht : P.task i = .running p) :
    ∃ log', M.Run w₀ main ⟨w', m, some (P.setTask i (.finished r)), log'⟩ := by
  induction hr generalizing P log with
  | ret a w => exact ⟨_, h.step (.pool rfl (.ret hi ht))⟩
  | raise e w => exact ⟨_, h.step (.pool rfl (.raise hi ht))⟩
  | @call o k w w₁ w₂ r tr out hsem hk ih =>
    have hstep := h.step (.pool rfl (.op hi ht hsem))
    obtain ⟨log', hlog'⟩ := ih hstep hi (by simp [Pool.setTask])
    refine ⟨log', ?_⟩
    have htwice : (P.setTask i (.running (k r))).setTask i (.finished out) =
        P.setTask i (.finished out) := by
      simp [Pool.setTask]
    rwa [htwice] at hlog'

/-- The items of a map that the caller runs itself. -/
theorem Run.inOrder {w w' : W} {m : MainProg S ι ε α} {P : Pool S ι ε} {log : List (Label S ι ε)}
    {rest : List ι} {r : Except ε Unit} (hr : M.InOrder rest w r w')
    (h : M.Run w₀ main ⟨w, m, some P, log⟩) (hc : P.caller = .inline rest)
    (hsub : ∀ i ∈ rest, i ∈ P.items ∧ P.task i = .unsubmitted) (hnd : rest.Nodup)
    (hdone : ∀ i ∈ P.items, i ∉ rest → ∃ r, P.task i = .finished r) :
    ∃ log' P', M.Run w₀ main ⟨w', m, some P', log'⟩ ∧ P'.Exit r := by
  induction hr generalizing P log with
  | nil => exact ⟨log, P, h, .inline hc⟩
  | @cons i items w w₁ w₂ r hstart hi hrest ih =>
    obtain ⟨tr, hi⟩ := hi
    obtain ⟨hmem, hun⟩ := hsub i List.mem_cons_self
    have hnew := (List.nodup_cons.mp hnd).1
    have h₁ := h.step (.pool rfl (.inlineStart hc hun hstart))
    obtain ⟨log₂, h₂⟩ := h₁.item hi hmem (by simp [Pool.setTask])
    have h₃ := h₂.step (.pool rfl (.inlineNext hc (by simp [Pool.setTask])))
    refine ih h₃ rfl ?_ (List.nodup_cons.mp hnd).2 ?_
    · intro j hj
      have hji : j ≠ i := fun heq => hnew (heq ▸ hj)
      obtain ⟨hmem', hun'⟩ := hsub j (List.mem_cons_of_mem i hj)
      exact ⟨hmem', by simpa [Pool.setTask, hji] using hun'⟩
    · intro j hj hj'
      by_cases hji : j = i
      · exact ⟨.ok (), by simp [Pool.setTask, hji]⟩
      · obtain ⟨r', hr'⟩ := hdone j hj (by simp [hji, hj'])
        exact ⟨r', by simpa [Pool.setTask, hji] using hr'⟩
  | @raise i items w w₁ e hstart hi =>
    obtain ⟨tr, hi⟩ := hi
    obtain ⟨hmem, hun⟩ := hsub i List.mem_cons_self
    have h₁ := h.step (.pool rfl (.inlineStart hc hun hstart))
    obtain ⟨log₂, h₂⟩ := h₁.item hi hmem (by simp [Pool.setTask])
    have h₃ := h₂.step (.pool rfl (.inlineRaise (e := e) hc (by simp [Pool.setTask])))
    refine ⟨_, _, h₃, .error rfl fun j hj => ?_⟩
    -- What has not been run is neither pending nor running.
    by_cases hji : j = i
    · simp [Pool.setTask, hji]
    · by_cases hj' : j ∈ items
      · have hun' := (hsub j (List.mem_cons_of_mem i hj')).2
        simp [Pool.setTask, hji, hun']
      · obtain ⟨r', hr'⟩ := hdone j hj (by simp [hji, hj'])
        simp [Pool.setTask, hji, hr']

/-- A part of the main program that runs to its end, before the rest. -/
theorem Run.of_ends_bind {β : Type} {p : MainProg S ι ε β} {f : β → MainProg S ι ε α} {w w' : W}
    {out : Except ε β} (hp : Prog.Ends M.bigSem p w out w') {log : List (Label S ι ε)}
    (h : M.Run w₀ main ⟨w, p.bind f, none, log⟩) :
    ∃ log', M.Run w₀ main ⟨w', (left out).bind f, none, log'⟩ := by
  obtain ⟨tr, hr⟩ := hp
  induction hr generalizing log with
  | ret a w => exact ⟨log, h⟩
  | raise e w => exact ⟨log, h⟩
  | @call o k w w₁ w₂ r tr out hsem hk ih =>
    cases o with
    | inl o =>
      have hnext : M.Step ⟨w, (Prog.call (S := S.withFork ι) (.inl o) k).bind f, none, log⟩
          ⟨w₁, (k r).bind f, none, log ++ [.main o r]⟩ :=
        Step.main (M := M) (k := fun r : Except ε (S.Res o) => (k r).bind f) rfl rfl hsem
      exact ih (h.step hnext)
    | inr items =>
      obtain ⟨hworkers, hnd, hin⟩ := hsem
      have h₁ := h.step (.fork (M := M) (k := fun r : Except ε Unit => (k r).bind f) rfl rfl)
      have hnew : (Pool.new items (M.workers items.length) : Pool S ι ε).caller = .inline items := by
        simp [Pool.new, hworkers]
      obtain ⟨log₂, P', h₂, hexit⟩ := h₁.inOrder hin hnew (fun i hi => ⟨hi, rfl⟩) hnd
        fun i hi hi' => absurd hi hi'
      exact ih (h₂.step (.join (M := M) (k := fun r : Except ε Unit => (k r).bind f) rfl rfl hexit))

/-- **A big-step run of the main program is a run of the process.** -/
theorem Run.of_ends {p : MainProg S ι ε α} {w w' : W} {out : Except ε α}
    (hp : Prog.Ends M.bigSem p w out w') {log : List (Label S ι ε)}
    (h : M.Run w₀ main ⟨w, p, none, log⟩) :
    ∃ log', M.Run w₀ main ⟨w', left out, none, log'⟩ := by
  rw [← Prog.bind_ret_right p] at h
  obtain ⟨log', hlog'⟩ := Run.of_ends_bind hp h
  rw [Prog.bind_ret_right] at hlog'
  exact ⟨log', hlog'⟩

end Machine

namespace History

variable {S : Sig} {ι ε W α : Type} [DecidableEq ι] {init : W → Prop}
  {boots : W → Boot S ι ε W α → Prop} {b b' : Boot S ι ε W α} {c c' : Proc S ι ε W α}

/-- A first process runs. -/
theorem first_run {w : W} (hw : init w) (hb : boots w b)
    (hrun : b.machine.Run b.world b.main c) : History init boots b c := by
  induction hrun with
  | boot => exact .first hw hb
  | step _ hstep ih => exact .step ih hstep

/-- Another process runs. -/
theorem then_run (h : History init boots b c) (hb : boots c.world b')
    (hrun : b'.machine.Run b'.world b'.main c') : History init boots b' c' := by
  induction hrun with
  | boot => exact .next h hb
  | step _ hstep ih => exact .step ih hstep

end History
