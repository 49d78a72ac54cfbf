/-
Teardown: reverse the ledger, and drop it once it is empty.

Every call may raise.  A destroy that raises leaves its resource recorded; what a
failed call is taken for decides whether the ledger outlives what it lists.

* `teardown` — the teardown of a run, over `state.json`;
* `Teardown.loop_spec` — what going through the resources leaves recorded;
* `Teardown.keeps_iff` — exactly when the ledger is kept as long as it lists something
  that was not destroyed;
* `Teardown.second_read_fails` — the read after the loop fails and the ledger is lost.
-/
import TestRange.Orchestrator.Context

namespace TestRange

/-! ### The program -/

/-- Destroy a recorded resource and forget it. -/
def destroyAndForget (r : Resource) : Prog (runSig sysSig) Err Unit := do
  runOp (S := sysSig) (.inner (.destroy r.kind r.backendName r.metadata))
  runOp (S := sysSig) (.inner (.forget r.backendName))

/-- The same; a failure is logged. -/
def destroyRecorded (r : Resource) : Prog (runSig sysSig) Err Unit := (destroyAndForget r).ignore

/-- The last bookkeeping of a teardown. -/
def finishTeardown : Prog (runSig sysSig) Err Unit := do
  runOp (.setPhase .done)
  runOp .release
  runOp .remove

/-- The teardown of a run, last recorded first. -/
def teardown : Prog (runSig sysSig) Err Unit := do
  (runOp (.setPhase .cleanup)).ignore
  match ← (runOp .readResources).attempt with
  | .error _ => pure ()
  | .ok resources =>
    resources.reverse.forM destroyRecorded
    let remaining := match ← (runOp .readRemaining).attempt with
      | .ok rs => rs
      | .error _ => []
    if remaining.isEmpty then finishTeardown.ignore else pure ()

/-! ### What is observed of a teardown -/

namespace Teardown

/-- The calls of a teardown with their answers. -/
abbrev Trace := List (Prog.Call (runSig sysSig) Err)

/-- The call that destroys a resource. -/
abbrev destroyCall (r : Resource) : RunOp SysOp :=
  .inner (.destroy r.kind r.backendName r.metadata)

/-- The call that forgets a name. -/
abbrev forgetCall (backendName : String) : RunOp SysOp := .inner (.forget backendName)

/-- A destroy of the resource raised. -/
def Raised (tr : Trace) (r : Resource) : Prop := ∃ e, ⟨destroyCall r, .error e⟩ ∈ tr

/-- A destroy of the resource returned. -/
def Returned (tr : Trace) (r : Resource) : Prop := ⟨destroyCall r, .ok ()⟩ ∈ tr

/-- Forgetting the name took effect. -/
def Forgotten (tr : Trace) (backendName : String) : Prop :=
  ∃ a, ⟨forgetCall backendName, a⟩ ∈ tr ∧ Effective Err.late a

/-- If `state.json` is deleted, every resource was destroyed; otherwise it is kept and
lists whatever was not. -/
def Keeps (tr : Trace) (resources : List Resource) (w' : World Sys) : Prop :=
  match w'.ledger with
  | none => ∀ r ∈ resources, Returned tr r ∧ ¬ Raised tr r
  | some s' => ∀ r ∈ resources, Raised tr r → r ∈ s'.resources

/-- The last bookkeeping raised before `state.json` was deleted. -/
def Stopped (tr : Trace) : Prop :=
  (∃ e, ⟨.setPhase .done, .error e⟩ ∈ tr) ∨ (∃ e, ⟨.release, .error e⟩ ∈ tr) ∨
    ∃ e, ⟨.remove, .error e⟩ ∈ tr ∧ e.late = false

/-- The failures a teardown copes with: the first read raised; or no resource whose
destroy raised shares its name with one that was forgotten and, if some destroy raised,
the second read answered or the last bookkeeping raised in time. -/
def Copes (tr : Trace) (resources : List Resource) : Prop :=
  (∃ e, ⟨.readResources, .error e⟩ ∈ tr) ∨
    ((∀ r ∈ resources, Raised tr r → ¬ Forgotten tr r.backendName) ∧
      ((∃ r ∈ resources, Raised tr r) →
        (∃ rs, ⟨.readRemaining, .ok rs⟩ ∈ tr) ∨ Stopped tr))

/-! ### Going through the resources -/

variable {drv : Driver} {w w' : World Sys} {tr : Trace} {s : State}

/-- One resource: its destroy raises, or it is destroyed and, perhaps, forgotten. -/
theorem runs_destroyRecorded {r : Resource} {out : Except Err Unit}
    (h : Prog.Runs (runSem (sysInner drv)) (destroyRecorded r) w tr out w') :
    out = .ok () ∧
      ((∃ e, tr = [⟨destroyCall r, .error e⟩] ∧ w'.ledger = w.ledger) ∨
        ∃ a w₁, tr = [⟨destroyCall r, .ok ()⟩, ⟨forgetCall r.backendName, a⟩] ∧
          w₁.ledger = w.ledger ∧ storeCall (fun _ => .forget r.backendName) w₁ a w') := by
  have hdestroy : ∀ {w₁ : World Sys} {a : Except Err Unit},
      sysSem drv (.destroy r.kind r.backendName r.metadata) w a w₁ → w₁.ledger = w.ledger :=
    fun hsem => ledger_eq_of_mutation hsem rfl
  obtain ⟨rfl, y, hbody⟩ := Prog.runs_ignore.mp h
  refine ⟨rfl, ?_⟩
  rcases Prog.runs_bind.mp hbody with ⟨u, w₂, tr₃, tr₄, rfl, h₃, h₄⟩ | ⟨e, rfl, h₃⟩
  · obtain ⟨rfl, hsem⟩ := Prog.runs_perform.mp h₃
    obtain ⟨rfl, hforget⟩ := Prog.runs_perform.mp h₄
    exact .inr ⟨y, w₂, rfl, hdestroy hsem, hforget⟩
  · obtain ⟨rfl, hsem⟩ := Prog.runs_perform.mp h₃
    exact .inl ⟨e, rfl, hdestroy hsem⟩

theorem forgotten_append {tr₁ tr₂ : Trace} {n : String} :
    Forgotten (tr₁ ++ tr₂) n ↔ Forgotten tr₁ n ∨ Forgotten tr₂ n := by
  simp [Forgotten, or_and_right, exists_or]

theorem raised_append {tr₁ tr₂ : Trace} {r : Resource} :
    Raised (tr₁ ++ tr₂) r ↔ Raised tr₁ r ∨ Raised tr₂ r := by
  simp [Raised, exists_or]

theorem returned_append {tr₁ tr₂ : Trace} {r : Resource} :
    Returned (tr₁ ++ tr₂) r ↔ Returned tr₁ r ∨ Returned tr₂ r := by
  simp [Returned]

/-- What going through some resources leaves recorded and observed. -/
structure Went (resources : List Resource) (s : State) (tr : Trace) (w' : World Sys) : Prop where
  recorded : ∃ s', w'.ledger = some s' ∧
    ∀ x, x ∈ s'.resources ↔ x ∈ s.resources ∧ ¬ Forgotten tr x.backendName
  visited : ∀ r ∈ resources, Returned tr r ∨ Raised tr r
  inner : ∀ c ∈ tr, ∃ o, c.op = .inner o

theorem went_destroyRecorded {r : Resource} {out : Except Err Unit} (hs : w.ledger = some s)
    (h : Prog.Runs (runSem (sysInner drv)) (destroyRecorded r) w tr out w') :
    out = .ok () ∧ Went [r] s tr w' := by
  obtain ⟨hout, ⟨e, rfl, hw'⟩ | ⟨a, w₁, rfl, hw₁, -, hforget⟩⟩ := runs_destroyRecorded h
  · refine ⟨hout, ⟨s, by rw [hw', hs], fun x => ?_⟩, ?_, ?_⟩
    · refine ⟨fun hx => ⟨hx, ?_⟩, fun hx => hx.1⟩
      rintro ⟨a, hmem, -⟩
      cases List.mem_singleton.mp hmem
    · exact fun x hx => .inr ⟨e, by rw [List.mem_singleton.mp hx]; simp⟩
    · intro c hc
      obtain rfl := List.mem_singleton.mp hc
      exact ⟨_, rfl⟩
  · have hiff : ∀ n, Forgotten [⟨destroyCall r, .ok ()⟩, ⟨forgetCall r.backendName, a⟩] n ↔
        n = r.backendName ∧ Effective Err.late a := by
      intro n
      constructor
      · rintro ⟨a', hmem, ha'⟩
        simp only [List.mem_cons, List.not_mem_nil, or_false] at hmem
        rcases hmem with hmem | hmem
        · cases hmem
        · cases hmem
          exact ⟨rfl, ha'⟩
      · rintro ⟨rfl, ha⟩
        exact ⟨a, by simp, ha⟩
    refine ⟨hout, ?_, ?_, ?_⟩
    · rcases hforget with ⟨ha, s₁, now, s', hs₁, happly, rfl⟩ | ⟨hno, rfl⟩
      · rw [hw₁, hs] at hs₁
        cases hs₁
        cases happly
        refine ⟨_, rfl, fun x => ?_⟩
        rw [hiff, State.removeResource, List.mem_filter, decide_eq_true_iff]
        exact and_congr_right fun _ => ⟨fun hne heq => hne heq.1, fun hne heq => hne ⟨heq, ha⟩⟩
      · refine ⟨s, by rw [hw₁, hs], fun x => ?_⟩
        rw [hiff]
        exact ⟨fun hx => ⟨hx, fun heq => hno heq.2⟩, fun hx => hx.1⟩
    · exact fun x hx => .inl (by rw [List.mem_singleton.mp hx]; simp [Returned])
    · intro c hc
      simp only [List.mem_cons, List.not_mem_nil, or_false] at hc
      rcases hc with rfl | rfl
      · exact ⟨_, rfl⟩
      · exact ⟨_, rfl⟩

/-- The loop visits every resource, and what it leaves is what was not forgotten. -/
theorem loop_spec {resources : List Resource} {out : Except Err PUnit} (hs : w.ledger = some s)
    (h : Prog.Runs (runSem (sysInner drv)) (resources.forM destroyRecorded) w tr out w') :
    out = .ok ⟨⟩ ∧ Went resources s tr w' := by
  induction resources generalizing w s tr with
  | nil =>
    obtain ⟨rfl, rfl, rfl⟩ := Prog.runs_ret.mp h
    exact ⟨rfl, ⟨s, hs, by simp [Forgotten]⟩, by simp, by simp⟩
  | cons r rest ih =>
    rcases Prog.runs_bind.mp h with ⟨u, w₁, tr₁, tr₂, rfl, h₁, h₂⟩ | ⟨e, -, h₁⟩
    · obtain ⟨-, ⟨s₁, hs₁, hrec₁⟩, hvis₁, hinn₁⟩ := went_destroyRecorded hs h₁
      obtain ⟨rfl, ⟨s₂, hs₂, hrec₂⟩, hvis₂, hinn₂⟩ := ih hs₁ h₂
      refine ⟨rfl, ⟨s₂, hs₂, fun x => ?_⟩, fun x hx => ?_, fun c hc => ?_⟩
      · rw [hrec₂, hrec₁, forgotten_append, not_or, and_assoc]
      · rw [returned_append, raised_append]
        rcases List.mem_cons.mp hx with rfl | hx
        · rcases hvis₁ x (by simp) with h | h
          · exact .inl (.inl h)
          · exact .inr (.inl h)
        · rcases hvis₂ x hx with h | h
          · exact .inl (.inr h)
          · exact .inr (.inr h)
      · rcases List.mem_append.mp hc with hc | hc
        · exact hinn₁ c hc
        · exact hinn₂ c hc
    · obtain ⟨hout, -⟩ := runs_destroyRecorded h₁
      cases hout

/-! ### The end of a teardown -/

/-- A store call that only sets the phase leaves the resources. -/
theorem resources_setPhase {phase : Phase} {a : Except Err Unit} (hs : w.ledger = some s)
    (h : mutates Err.late (fun _ => .setPhase phase.name) w a w') :
    ∃ s', w'.ledger = some s' ∧ s'.resources = s.resources := by
  rcases h with ⟨-, s₁, now, s', hs₁, happly, rfl⟩ | ⟨-, rfl⟩
  · rw [hs] at hs₁
    cases hs₁
    cases happly
    exact ⟨_, rfl, rfl⟩
  · exact ⟨s, hs, rfl⟩

/-- The last bookkeeping deletes `state.json` unless it raises before that. -/
theorem finish_spec {out : Except Err Unit} (hs : w.ledger = some s)
    (h : Prog.Runs (runSem (sysInner drv)) finishTeardown w tr out w') :
    (∀ c ∈ tr, c.op = .setPhase .done ∨ c.op = .release ∨ c.op = .remove) ∧
      ((w'.ledger = none ∧ ¬ Stopped tr) ∨
        ((∃ s', w'.ledger = some s' ∧ s'.resources = s.resources) ∧ Stopped tr)) := by
  rcases Prog.runs_bind.mp h with ⟨u, w₁, tr₁, tr₂, rfl, h₁, h₂⟩ | ⟨e, -, h₁⟩
  · obtain ⟨rfl, hsem₁⟩ := Prog.runs_perform.mp h₁
    obtain ⟨s₁, hs₁, hres₁⟩ := resources_setPhase hs hsem₁
    rcases Prog.runs_bind.mp h₂ with ⟨u', w₂, tr₃, tr₄, rfl, h₃, h₄⟩ | ⟨e, -, h₃⟩
    · obtain ⟨rfl, hsem₃⟩ := Prog.runs_perform.mp h₃
      obtain ⟨rfl, hsem₄⟩ := Prog.runs_perform.mp h₄
      have hw₂ : w₂ = w₁ := hsem₃
      subst hw₂
      refine ⟨by simp, ?_⟩
      rcases hsem₄ with ⟨heff, rfl⟩ | ⟨hno, rfl⟩
      · refine .inl ⟨rfl, ?_⟩
        rintro (⟨e, hmem⟩ | ⟨e, hmem⟩ | ⟨e, hmem, hlate⟩)
        · simp only [List.mem_append, List.mem_singleton] at hmem
          rcases hmem with hmem | hmem | hmem <;> cases hmem
        · simp only [List.mem_append, List.mem_singleton] at hmem
          rcases hmem with hmem | hmem | hmem <;> cases hmem
        · simp only [List.mem_append, List.mem_singleton] at hmem
          rcases hmem with hmem | hmem | hmem <;> cases hmem
          have heff' : e.late = true := heff
          rw [hlate] at heff'
          cases heff'
      · refine .inr ⟨⟨s₁, hs₁, hres₁⟩, ?_⟩
        cases out with
        | ok a => exact absurd trivial hno
        | error e => exact .inr (.inr ⟨e, by simp, Bool.eq_false_iff.mpr hno⟩)
    · obtain ⟨rfl, hsem₃⟩ := Prog.runs_perform.mp h₃
      have hw₂ : w' = w₁ := hsem₃
      subst hw₂
      exact ⟨by simp, .inr ⟨⟨s₁, hs₁, hres₁⟩, .inr (.inl ⟨e, by simp⟩)⟩⟩
  · obtain ⟨rfl, hsem₁⟩ := Prog.runs_perform.mp h₁
    exact ⟨by simp, .inr ⟨resources_setPhase hs hsem₁, .inl ⟨e, by simp⟩⟩⟩

/-- The shape of a teardown: the first read raises and nothing happens; or the loop goes
through the resources, the second read answers with some, and the ledger stays; or the
last bookkeeping takes place. -/
theorem runs_teardown {out : Except Err Unit} (hs : w.ledger = some s)
    (h : Prog.Runs (runSem (sysInner drv)) teardown w tr out w') :
    out = .ok () ∧ ∃ a₀ : Except Err Unit,
      (∃ e s', tr = [⟨.setPhase .cleanup, a₀⟩, ⟨.readResources, .error e⟩] ∧
        w'.ledger = some s' ∧ s'.resources = s.resources) ∨
      ∃ s₁ trL w₁ a trF, s₁.resources = s.resources ∧
        tr = [⟨.setPhase .cleanup, a₀⟩, ⟨.readResources, .ok s.resources⟩] ++ trL ++
          ⟨.readRemaining, a⟩ :: trF ∧
        Went s.resources.reverse s₁ trL w₁ ∧
        ((∃ rs, a = .ok rs ∧ trF = [] ∧ w' = w₁) ∨
          ((∀ rs, a = .ok rs → rs = [] ∧ ∃ s', w₁.ledger = some s' ∧ s'.resources = []) ∧
            ∃ out', Prog.Runs (runSem (sysInner drv)) finishTeardown w₁ trF out' w')) := by
  rcases Prog.runs_bind.mp h with ⟨_, w₁, tr₁, tr₂, rfl, h₁, h₂⟩ | ⟨e, -, h₁⟩
  swap
  · cases (Prog.runs_ignore.mp h₁).1
  obtain ⟨-, a₀, h₁⟩ := Prog.runs_ignore.mp h₁
  obtain ⟨rfl, hsem₁⟩ := Prog.runs_perform.mp h₁
  obtain ⟨s₁, hs₁, hres₁⟩ := resources_setPhase hs hsem₁
  rcases Prog.runs_bind.mp h₂ with ⟨read, w₂, tr₃, tr₄, rfl, h₃, h₄⟩ | ⟨e, -, h₃⟩
  swap
  · obtain ⟨_, he, -⟩ := Prog.runs_attempt.mp h₃
    cases he
  obtain ⟨_, hread, h₃⟩ := Prog.runs_attempt.mp h₃
  cases hread
  obtain ⟨rfl, hw₂, hans⟩ := Prog.runs_perform.mp h₃
  subst hw₂
  rcases read with e | resources
  · obtain ⟨rfl, rfl, rfl⟩ := Prog.runs_ret.mp h₄
    exact ⟨rfl, a₀, .inl ⟨e, s₁, rfl, hs₁, hres₁⟩⟩
  · have hresources : resources = s.resources := by
      rcases hans with ⟨s', hs', hr⟩ | ⟨e, he⟩
      · rw [hs₁] at hs'
        cases hs'
        cases hr
        exact hres₁
      · cases he
    subst hresources
    rcases Prog.runs_bind.mp h₄ with ⟨u, w₃, trL, tr₅, rfl, hloop, h₅⟩ | ⟨e, -, hloop⟩
    swap
    · obtain ⟨hout, -⟩ := loop_spec hs₁ hloop
      cases hout
    obtain ⟨-, hwent⟩ := loop_spec hs₁ hloop
    rcases Prog.runs_bind.mp h₅ with ⟨a, w₄, tr₆, tr₇, rfl, h₆, h₇⟩ | ⟨e, -, h₆⟩
    swap
    · obtain ⟨_, he, -⟩ := Prog.runs_attempt.mp h₆
      cases he
    obtain ⟨_, ha, h₆⟩ := Prog.runs_attempt.mp h₆
    cases ha
    obtain ⟨rfl, hw₄, hans₄⟩ := Prog.runs_perform.mp h₆
    subst hw₄
    -- The answer is the ledger's resources, or an exception taken for none.
    have hans' : ∀ rs, a = .ok rs → ∃ s', w₄.ledger = some s' ∧ s'.resources = rs := by
      rintro rs rfl
      rcases hans₄ with ⟨s', hs', hr⟩ | ⟨e, he⟩
      · cases hr
        exact ⟨s', hs', rfl⟩
      · cases he
    rcases a with e | rs
    · obtain ⟨rfl, out', hfinish⟩ := Prog.runs_ignore.mp h₇
      exact ⟨rfl, a₀, .inr ⟨s₁, trL, w₄, .error e, tr₇, hres₁, by simp, hwent,
        .inr ⟨(fun rs hrs => nomatch hrs), out', hfinish⟩⟩⟩
    · dsimp only at h₇
      split at h₇
      · rename_i hempty
        have hrs : rs = [] := List.isEmpty_iff.mp hempty
        obtain ⟨s', hs', hrs'⟩ := hans' rs rfl
        obtain ⟨rfl, out', hfinish⟩ := Prog.runs_ignore.mp h₇
        refine ⟨rfl, a₀, .inr ⟨s₁, trL, w₄, .ok rs, tr₇, hres₁, by simp, hwent,
          .inr ⟨?_, out', hfinish⟩⟩⟩
        rintro _ ⟨⟩
        exact ⟨hrs, s', hs', by rw [hrs', hrs]⟩
      · obtain ⟨rfl, rfl, rfl⟩ := Prog.runs_ret.mp h₇
        exact ⟨rfl, a₀, .inr ⟨s₁, trL, w', .ok rs, [], hres₁, by simp, hwent,
          .inl ⟨rs, rfl, rfl, rfl⟩⟩⟩

/-- What a trace with a loop in the middle shows is what its loop and its end show. -/
theorem copes_middle {a₀ : Except Err Unit} {resources : List Resource} {trL trF : Trace}
    {a : Except Err (List Resource)} (hinner : ∀ c ∈ trL, ∃ o, c.op = .inner o)
    (hF : ∀ c ∈ trF, c.op = .setPhase .done ∨ c.op = .release ∨ c.op = .remove)
    (htr : tr = [⟨.setPhase .cleanup, a₀⟩, ⟨.readResources, .ok resources⟩] ++ trL ++
      ⟨.readRemaining, a⟩ :: trF) :
    (∀ r, Raised tr r ↔ Raised trL r) ∧ (∀ n, Forgotten tr n ↔ Forgotten trL n) ∧
      (∀ r, Returned tr r ↔ Returned trL r) ∧ (Stopped tr ↔ Stopped trF) ∧
      ((∃ rs, ⟨.readRemaining, .ok rs⟩ ∈ tr) ↔ ∃ rs, a = .ok rs) ∧
      ¬ ∃ e, ⟨.readResources, .error e⟩ ∈ tr := by
  have hmem : ∀ c, c ∈ tr ↔ c = ⟨.setPhase .cleanup, a₀⟩ ∨ c = ⟨.readResources, .ok resources⟩ ∨
      c ∈ trL ∨ c = ⟨.readRemaining, a⟩ ∨ c ∈ trF := by
    intro c
    rw [htr]
    simp
  -- Calls of hooks are in the loop, those of the last bookkeeping at the end.
  have hloop : ∀ o ans, ⟨.inner o, ans⟩ ∈ tr ↔ ⟨.inner o, ans⟩ ∈ trL := by
    intro o ans
    rw [hmem]
    constructor
    · rintro (h | h | h | h | h)
      · cases h
      · cases h
      · exact h
      · cases h
      · rcases hF _ h with h | h | h <;> cases h
    · exact fun h => .inr (.inr (.inl h))
  have hlast : ∀ c : Prog.Call (runSig sysSig) Err,
      c.op = .setPhase .done ∨ c.op = .release ∨ c.op = .remove → (c ∈ tr ↔ c ∈ trF) := by
    intro c hc
    rw [hmem]
    constructor
    · rintro (rfl | rfl | h | rfl | h)
      · rcases hc with h | h | h <;> cases h
      · rcases hc with h | h | h <;> cases h
      · obtain ⟨o, ho⟩ := hinner c h
        rw [ho] at hc
        rcases hc with h | h | h <;> cases h
      · rcases hc with h | h | h <;> cases h
      · exact h
    · exact fun h => .inr (.inr (.inr (.inr h)))
  refine ⟨fun r => exists_congr fun e => hloop _ _, fun n => exists_congr fun a =>
    and_congr (hloop _ _) Iff.rfl, fun r => hloop _ _, ?_, ?_, ?_⟩
  · unfold Stopped
    refine or_congr (exists_congr fun e => hlast _ (by simp))
      (or_congr (exists_congr fun e => hlast _ (by simp)) (exists_congr fun e => ?_))
    exact and_congr (hlast _ (by simp)) Iff.rfl
  · constructor
    · rintro ⟨rs, hrs⟩
      rcases (hmem _).mp hrs with h | h | h | h | h
      · cases h
      · cases h
      · obtain ⟨o, ho⟩ := hinner _ h
        cases ho
      · cases h
        exact ⟨rs, rfl⟩
      · rcases hF _ h with h | h | h <;> cases h
    · rintro ⟨rs, rfl⟩
      exact ⟨rs, (hmem _).mpr (.inr (.inr (.inr (.inl rfl))))⟩
  · rintro ⟨e, he⟩
    rcases (hmem _).mp he with h | h | h | h | h
    · cases h
    · cases h
    · obtain ⟨o, ho⟩ := hinner _ h
      cases ho
    · cases h
    · rcases hF _ h with h | h | h <;> cases h

/-- **A teardown keeps the ledger of what it did not destroy exactly when it copes with
the failures it meets**: for every ledger and every pattern of failures. -/
theorem keeps_iff {out : Except Err Unit} (hs : w.ledger = some s)
    (h : Prog.Runs (runSem (sysInner drv)) teardown w tr out w') :
    Keeps tr s.resources w' ↔ Copes tr s.resources := by
  obtain ⟨-, a₀, ⟨e, s', rfl, hs', hres⟩ | ⟨s₁, trL, w₁, a, trF, hres₁, htr, hwent, hend⟩⟩ :=
    runs_teardown hs h
  · -- The first read raised: nothing was destroyed.
    refine iff_of_true ?_ (.inl ⟨e, by simp⟩)
    rw [Keeps, hs']
    rintro r - ⟨e', hmem⟩
    simp only [List.mem_cons, List.not_mem_nil, or_false] at hmem
    rcases hmem with hmem | hmem <;> cases hmem
  · obtain ⟨s', hs', hrec⟩ := hwent.recorded
    -- What the end of the trace shows.
    have hF : ∀ c ∈ trF, c.op = .setPhase .done ∨ c.op = .release ∨ c.op = .remove := by
      rcases hend with ⟨rs, -, rfl, -⟩ | ⟨-, out', hfinish⟩
      · simp
      · exact (finish_spec hs' hfinish).1
    obtain ⟨hraised, hforgot, hreturned, hstopped, hread, hfirst⟩ :=
      copes_middle hwent.inner hF htr
    -- A resource whose destroy raised is recorded unless its name was forgotten.
    have hkept : ∀ r ∈ s.resources, r ∈ s'.resources ↔ ¬ Forgotten trL r.backendName := by
      intro r hr
      rw [hrec, hres₁]
      exact ⟨fun h => h.2, fun h => ⟨hr, h⟩⟩
    rw [Copes, or_iff_right hfirst]
    simp only [Keeps, hraised, hforgot, hreturned, hstopped, hread]
    rcases hend with ⟨rs, rfl, rfl, rfl⟩ | ⟨hempty, out', hfinish⟩
    · -- The second read answered with some resources.
      rw [hs']
      refine ⟨fun h => ⟨fun r hr hraise => (hkept r hr).mp (h r hr hraise), fun _ => .inl ⟨rs, rfl⟩⟩,
        fun h r hr hraise => (hkept r hr).mpr (h.1 r hr hraise)⟩
    · rcases (finish_spec hs' hfinish).2 with ⟨hnone, hns⟩ | ⟨⟨s₂, hs₂, hres₂⟩, hst⟩
      · rw [hnone]
        constructor
        · intro hall
          refine ⟨fun r hr hraise => absurd hraise (hall r hr).2, ?_⟩
          rintro ⟨r, hr, hraise⟩
          exact absurd hraise (hall r hr).2
        · rintro ⟨hnf, hsome⟩ r hr
          -- Had a destroy raised, the second read would have listed its resource.
          have hnot : ¬ Raised trL r := by
            intro hraise
            rcases hsome ⟨r, hr, hraise⟩ with ⟨rs, ha⟩ | hst
            · obtain ⟨-, s₂, hs₂, hnil⟩ := hempty rs ha
              rw [hs'] at hs₂
              cases hs₂
              have hmem := (hkept r hr).mpr (hnf r hr hraise)
              rw [hnil] at hmem
              cases hmem
            · exact hns hst
          exact ⟨(hwent.visited r (List.mem_reverse.mpr hr)).resolve_right hnot, hnot⟩
      · rw [hs₂]
        simp only [hres₂]
        exact ⟨fun h => ⟨fun r hr hraise => (hkept r hr).mp (h r hr hraise), fun _ => .inr hst⟩,
          fun h r hr hraise => (hkept r hr).mpr (h.1 r hr hraise)⟩

/-! ### A ledger that is lost -/

/-- A driver without networks of its own. -/
def plainDriver : Driver := ⟨fun sw => sw.name, fun net _ => net⟩

/-- A recorded pool. -/
def poolResource : Resource where
  kind := "pool"
  backendName := "tr-pool-20250101-p"
  planName := some "p"
  intentAt := "2025-01-01T00:00:00Z"
  outcomeAt := none
  metadata := .empty

/-- A run that has recorded and created one pool. -/
def onePool : World Sys where
  ledger := some (State.withResource
    (.initial "20250101-000000-abcdef" "p" "LibvirtDriver" "qemu:///system" "t0") poolResource)
  rest := ⟨[.pool poolResource.backendName], [], fun _ => none, .fresh, false⟩

theorem not_effective_call {α : Type} :
    ¬ Effective Err.late (.error (.call false) : Except Err α) := Bool.false_ne_true

theorem outside_call {α : Type} (late : Bool) :
    Outside (.error (.call late) : Except Err α) := by
  rintro e ⟨⟩
  exact ⟨late, rfl⟩

/-- A pool recorded after it. -/
def laterPool : Resource := { poolResource with
  backendName := "tr-pool-20250101-q"
  planName := some "q" }

/-- A run that has recorded and created two pools. -/
def twoPools : World Sys where
  ledger := onePool.ledger.map (·.withResource laterPool)
  rest := { onePool.rest with live := [.pool poolResource.backendName, .pool laterPool.backendName] }

/-- Destroying the later pool raises, the earlier one is destroyed and forgotten, and the second read
answers: the later pool is live and stays recorded. -/
theorem keeps_twoPools : ∃ tr w', Prog.Runs (runSem (sysInner plainDriver)) teardown twoPools tr
    (.ok ()) w' ∧ Raised tr laterPool ∧ Returned tr poolResource ∧
      Keeps tr [poolResource, laterPool] w' ∧ w'.rest.live = [.pool laterPool.backendName] ∧
      w'.ledger.map State.resources = some [laterPool] := by
  let s := State.withResource (State.withResource
    (.initial "20250101-000000-abcdef" "p" "LibvirtDriver" "qemu:///system" "t0") poolResource) laterPool
  let s₁ := { s with phase := Phase.cleanup.name }
  let s₂ := s₁.removeResource poolResource.backendName
  let w₁ : World Sys := ⟨some s₁, twoPools.rest⟩
  let w₂ : World Sys := ⟨some s₁, { twoPools.rest with live := [.pool laterPool.backendName] }⟩
  let w₃ : World Sys := ⟨some s₂, w₂.rest⟩
  let tr : Trace := [⟨.setPhase .cleanup, .ok ()⟩, ⟨.readResources, .ok [poolResource, laterPool]⟩,
    ⟨destroyCall laterPool, .error (.call false)⟩, ⟨destroyCall poolResource, .ok ()⟩,
    ⟨forgetCall poolResource.backendName, .ok ()⟩, ⟨.readRemaining, .ok [laterPool]⟩]
  have hraises : removeCall (.pool laterPool.backendName) w₁ (.error (.call false)) w₁ :=
    ⟨outside_call false, fun _ => false, by simp, by simp, rfl⟩
  have hreturns : removeCall (.pool poolResource.backendName) w₁ (.ok ()) w₂ :=
    ⟨(fun e he => by cases he), (Obj.pool poolResource.backendName).affects, fun _ h => h,
      fun _ _ h => h, rfl⟩
  have hforget : storeCall (fun _ => .forget poolResource.backendName) w₂ (.ok ()) w₃ :=
    ⟨(fun e he => by cases he), .inl ⟨trivial, s₁, "t2", s₂, rfl, rfl, rfl⟩⟩
  have hrun : Prog.Runs (runSem (sysInner plainDriver)) teardown twoPools tr (.ok ()) w₃ :=
    .call (.inl ⟨trivial, s, "t1", s₁, rfl, rfl, rfl⟩) (.call ⟨rfl, .inl ⟨s₁, rfl, rfl⟩⟩
      (.call hraises (.call hreturns (.call hforget (.call ⟨rfl, .inl ⟨s₂, rfl, rfl⟩⟩ (.ret () w₃))))))
  have hraised : Raised tr laterPool := ⟨.call false, by simp [tr]⟩
  refine ⟨tr, w₃, hrun, hraised, by simp [Returned, tr], (keeps_iff (s := s) rfl hrun).mpr ?_, rfl, rfl⟩
  refine .inr ⟨fun r hr hraise hforgot => ?_, fun _ => .inl ⟨[laterPool], by simp [tr]⟩⟩
  -- Only the name of the earlier pool is forgotten, whose destroy did not raise.
  obtain ⟨a, hforgot, -⟩ := hforgot
  obtain ⟨e, hraise⟩ := hraise
  have hdestroy : destroyCall poolResource ≠ destroyCall laterPool := by simp [laterPool, poolResource]
  have hname : forgetCall laterPool.backendName ≠ forgetCall poolResource.backendName := by
    simp [laterPool, poolResource]
  have hpools : r = poolResource ∨ r = laterPool := List.mem_pair.mp hr
  rcases hpools with rfl | rfl
  · simp only [tr, List.mem_cons, List.not_mem_nil, or_false] at hraise
    rcases hraise with h | h | h | h | h | h
    case inr.inr.inl => exact hdestroy (congrArg Prog.Call.op h)
    all_goals cases h
  · simp only [tr, List.mem_cons, List.not_mem_nil, or_false] at hforgot
    rcases hforgot with h | h | h | h | h | h
    case inr.inr.inr.inr.inr.inl => exact hname (congrArg Prog.Call.op h)
    all_goals cases h

/-- Destroying the pool raises, and so does the second read: `state.json` is deleted
while the pool is live. -/
theorem second_read_fails : ∃ s tr w', onePool.ledger = some s ∧
    Prog.Runs (runSem (sysInner plainDriver)) teardown onePool tr (.ok ()) w' ∧
    ¬ Keeps tr s.resources w' ∧ .pool poolResource.backendName ∈ w'.rest.live := by
  let lost : World Sys := ⟨none, onePool.rest⟩
  let last : Trace := [⟨.setPhase .done, .ok ()⟩, ⟨.release, .ok ()⟩, ⟨.remove, .ok ()⟩]
  have hfinish : Prog.Runs (runSem (sysInner plainDriver)) finishTeardown.ignore onePool last
      (.ok ()) lost := by
    refine Prog.runs_ignore.mpr ⟨rfl, .ok (), ?_⟩
    exact .call (.inl ⟨trivial, _, "t1", _, rfl, rfl, rfl⟩)
      (.call rfl (.call (.inl ⟨trivial, rfl⟩) (.ret () lost)))
  have hdestroy : removeCall (.pool poolResource.backendName) onePool (.error (.call false))
      onePool := ⟨outside_call false, fun _ => false, by simp, by simp, rfl⟩
  refine ⟨_, ⟨.setPhase .cleanup, .error (.call false)⟩ :: ⟨.readResources, .ok [poolResource]⟩ ::
    ⟨destroyCall poolResource, .error (.call false)⟩ :: ⟨.readRemaining, .error (.call false)⟩ ::
    last, lost, rfl, ?_, ?_, ?_⟩
  · exact .call (.inr ⟨not_effective_call, rfl⟩) (.call ⟨rfl, .inl ⟨_, rfl, rfl⟩⟩
      (.call hdestroy (.call ⟨rfl, .inr ⟨_, rfl⟩⟩ hfinish)))
  · intro hkeeps
    have hmem : poolResource ∈ [poolResource] := List.mem_cons_self
    exact (hkeeps poolResource hmem).2
      ⟨.call false, List.mem_cons_of_mem _ (List.mem_cons_of_mem _ List.mem_cons_self)⟩
  · exact List.mem_cons_self

end Teardown

end TestRange
