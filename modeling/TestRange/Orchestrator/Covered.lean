/-
What is live is recorded.

Every object that a run has asked for and that is still there is listed in `state.json`,
under a kind and with metadata by which the driver removes exactly that object.  This
holds along every history of processes, with any of their calls raising and with crashes
anywhere, as long as the read by which a teardown decides that it is done does not raise
while something is live.

* `Covered` — the invariant: what is live is recorded, what was seen removed is not live;
* `live_recorded` — every live object has its record, in every history.
-/
import TestRange.Drivers.Naming
import TestRange.Orchestrator.Ledger

namespace TestRange

/-! ### What a call does to the backend -/

section Backend

variable {R : RunConfig} {w w' : World Sys} {role : Option Item} {o : SysOp}
  {r : Except Err (sysSig.Res o)} {l l' : Local} {x : Obj}

/-- What a call creates. -/
def SysOp.creates : SysOp → Option Obj
  | .create o => some o
  | .createSwitch _ backendName => some (.switch backendName)
  | .createNetwork _ backendName _ => some (.network backendName)
  | .createVm backendName _ _ => some (.vm backendName)
  | _ => none

theorem mem_live_createCall {α : Type} {r : Except Err α} (h : createCall x w r w') {y : Obj}
    (hy : y ∈ w'.rest.live) : y = x ∨ y ∈ w.rest.live := by
  obtain ⟨-, ⟨-, rfl⟩ | ⟨-, rfl⟩⟩ := h
  · exact List.mem_cons.mp hy
  · exact .inr hy

theorem mem_live_removeCall {r : Except Err Unit} (h : removeCall x w r w') {y : Obj}
    (hy : y ∈ w'.rest.live) : y ∈ w.rest.live ∧ (r = .ok () → y ≠ x) := by
  obtain ⟨-, gone, -, hall, rfl⟩ := h
  obtain ⟨hlive, hkept⟩ := List.mem_filter.mp hy
  refine ⟨hlive, ?_⟩
  rintro hr rfl
  have hgone := hall hr y (by simp [Obj.affects])
  simp [hgone] at hkept

/-- A call adds what it creates, and nothing else. -/
theorem live_creates (hsem : sysSem R.driver o w r w') (ho : o.creates = some x) {y : Obj}
    (hy : y ∈ w'.rest.live) : y = x ∨ y ∈ w.rest.live := by
  cases o with
  | create =>
    cases ho
    exact mem_live_createCall hsem hy
  | createSwitch =>
    cases ho
    exact mem_live_createCall hsem.1 hy
  | createNetwork net n sb =>
    cases ho
    obtain ⟨w₁, h₁, rfl⟩ := hsem
    have hy₁ : y ∈ w₁.rest.live := by
      split at hy <;> exact hy
    exact mem_live_createCall h₁ hy₁
  | createVm n nics refs =>
    cases ho
    simp only [sysSem] at hsem
    split at hsem
    · rw [hsem.2] at hy
      exact .inr hy
    · obtain ⟨w₁, h₁, rfl⟩ := hsem
      exact mem_live_createCall h₁ (show y ∈ w₁.rest.live from hy)
  | _ => cases ho

theorem live_other (hsem : sysSem R.driver o w r w') (ho : o.creates = none) {y : Obj}
    (hy : y ∈ w'.rest.live) : y ∈ w.rest.live := by
  have hstore : ∀ {m : String → Mutation} {r : Except Err Unit},
      storeCall m w r w' → y ∈ w.rest.live := by
    rintro m r ⟨-, ⟨-, s, now, s', -, -, rfl⟩ | ⟨-, rfl⟩⟩ <;> exact hy
  cases o with
  | recordIntent => exact hstore hsem
  | confirm => exact hstore hsem
  | forget => exact hstore hsem
  | remove => exact (mem_live_removeCall hsem hy).1
  | destroy kind n metadata =>
    simp only [sysSem] at hsem
    split at hsem
    · rw [hsem.2] at hy
      exact hy
    · exact (mem_live_removeCall hsem hy).1
  | work => rw [hsem.2] at hy; exact hy
  | readCtx => rw [hsem.2] at hy; exact hy
  | updateCtx => rw [hsem.2] at hy; exact hy
  | setInfra => rw [hsem.2] at hy; exact hy
  | acquireInfraLock => rw [hsem.2.2] at hy; exact hy
  | releaseInfraLock => rw [hsem.2] at hy; exact hy
  | _ => cases ho

theorem ok_creates (hok : (sysLogic R role).ok o l) (ho : o.creates = some x) :
    MayCreate R role l x := by
  cases o <;> first | (cases ho; exact hok) | cases ho

/-- What is seen removed is not live: it is known from before, or was just removed. -/
theorem gone_step (hsem : sysSem R.driver o w r w') (hnext : (sysLogic R role).next o l r l')
    (hgone : l'.gone = some x) : l.gone = some x ∨ x ∉ w'.rest.live := by
  cases o with
  | recordIntent =>
    obtain ⟨i, e, -, -, -, rfl⟩ := hnext
    have hnone : (l.push e).gone = some x := hgone
    rw [Local.gone_push] at hnone
    cases hnone
  | remove y =>
    cases hnext
    rcases r with e | a
    · cases hgone
    · cases hgone
      exact .inr fun hlive => (mem_live_removeCall hsem hlive).2 rfl rfl
  | destroy kind n metadata =>
    cases hnext
    rcases r with e | a
    · cases hgone
    · have htarget : destroyTarget kind n metadata = .ok x := by
        cases ht : destroyTarget kind n metadata with
        | error e => simp [Except.isOk, Except.toBool, ht, Except.toOption] at hgone
        | ok y =>
          have hyx : y = x := by
            simpa [Except.isOk, Except.toBool, ht, Except.toOption] using hgone
          rw [hyx]
      simp only [sysSem, htarget] at hsem
      exact .inr fun hlive => (mem_live_removeCall hsem hlive).2 rfl rfl
  | readCtx =>
    obtain ⟨c, -, -, rfl⟩ := hnext
    obtain ⟨own, last, gone, sect, ready⟩ := l
    cases sect <;> exact .inl hgone
  | releaseInfraLock =>
    obtain ⟨-, rfl⟩ := hnext
    obtain ⟨own, last, gone, sect, ready⟩ := l
    cases sect <;> exact .inl hgone
  | createSwitch =>
    rw [hnext.1] at hgone
    exact .inl hgone
  | updateCtx =>
    rw [hnext.2] at hgone
    exact .inl hgone
  | setInfra =>
    rw [hnext.2] at hgone
    exact .inl hgone
  | acquireInfraLock =>
    rw [hnext.2] at hgone
    exact .inl hgone
  | _ =>
    rw [show l' = _ from hnext] at hgone
    exact .inl hgone

/-- What is live is recorded. -/
def LiveRecorded (R : RunConfig) (w : World Sys) : Prop :=
  ∀ x ∈ w.rest.live, ∃ e ∈ R.recorded w, e.obj R = x

/-- A call keeps what is live recorded: what it creates has an open intent, and what it
forgets is gone. -/
theorem liveRecorded_step (h : R.Distinct) (hrole : Role R role) (hok : (sysLogic R role).ok o l)
    (hsem : sysSem R.driver o w r w') (hlive : LiveRecorded R w)
    (hgone : ∀ x, l.gone = some x → x ∉ w.rest.live)
    (hlast : role.isSome = true → ∀ e, l.last = some e → e ∈ R.recorded w) :
    LiveRecorded R w' := by
  have hstep := recorded_step h hrole hok hsem
  -- Only what is no longer live is dropped from the ledger.
  have hkeep : ∀ e ∈ R.recorded w, (∀ n, o = .forget n → e.obj R ∈ w.rest.live) →
      e ∈ R.recorded w' := by
    intro e he hforget
    cases hstep with
    | same heq =>
      rw [heq]
      exact he
    | record ho he' hmem heq =>
      rw [heq]
      exact List.mem_append_left _ he
    | forget ho heq =>
      subst ho
      rw [heq]
      refine List.mem_filter.mpr ⟨he, decide_eq_true ?_⟩
      intro hname
      exact hgone _ (hok e ((RunConfig.mem_recorded h).mp he).1 hname) (hforget _ rfl)
  intro y hy
  cases hc : o.creates with
  | none =>
    have hy₀ := live_other hsem hc hy
    obtain ⟨e, he, rfl⟩ := hlive y hy₀
    exact ⟨e, hkeep e he fun _ _ => hy₀, rfl⟩
  | some x =>
    have hforget : ∀ n, o ≠ .forget n := by
      rintro n rfl
      cases hc
    obtain ⟨hsome, e, hlast', hobj, -⟩ := ok_creates hok hc
    rcases live_creates hsem hc hy with rfl | hy₀
    · exact ⟨e, hkeep e (hlast hsome e hlast') fun n hn => absurd hn (hforget n), hobj⟩
    · obtain ⟨e', he', rfl⟩ := hlive y hy₀
      exact ⟨e', hkeep e' he' fun _ _ => hy₀, rfl⟩

end Backend

/-! ### The invariant -/

/-- What is live is recorded; what was seen removed is not live; where the ledger is
taken to be empty, nothing is live. -/
structure Covered (R : RunConfig) (w : World Sys) (m : MainLocal) (cur : Option (List Item))
    (ts : Workers) : Prop where
  live : LiveRecorded R w
  gone : ∀ i l x, ts i = .active l → l.gone = some x → x ∉ w.rest.live
  mainGone : cur = none → ∀ x, m.loc.gone = some x → x ∉ w.rest.live
  drained : cur = none → m.drained = true → w.rest.live = []

/-- The read by which a teardown finds out what remains does not raise while something
is live. -/
def SecondReadHolds : (o : RunOp SysOp) → World Sys → Except Err ((runSig sysSig).Res o) → Prop
  | .readRemaining, w, .error _ => w.rest.live = []
  | _, _, _ => True

section Keeping

variable {R : RunConfig} {w w' : World Sys} {m m' : MainLocal} {cur : Option (List Item)}
  {ts : Workers} {items : List Item} {i : Item} {l l' : Local}

theorem nothing_live (hlive : LiveRecorded R w) (hres : w.resources = []) : w.rest.live = [] := by
  refine List.eq_nil_iff_forall_not_mem.mpr fun x hx => ?_
  obtain ⟨e, he, -⟩ := hlive x hx
  rw [RunConfig.recorded, hres] at he
  cases he

theorem liveRecorded_congr (hlive : LiveRecorded R w) (hrest : w'.rest = w.rest)
    (hres : w'.resources = w.resources) : LiveRecorded R w' := by
  intro x hx
  rw [hrest] at hx
  obtain ⟨e, he, hobj⟩ := hlive x hx
  refine ⟨e, ?_, hobj⟩
  rw [RunConfig.recorded, hres]
  exact he

/-- A call of the main thread. -/
theorem Covered.main_op (h : R.Distinct) {o : RunOp SysOp}
    {r : Except Err ((runSig sysSig).Res o)} (hc : Covered R w m none ts)
    (hquiet : ∀ i l, ts i ≠ .active l) (hok : (mainLogic R).ok (.inl o) m)
    (hsem : runSem (sysInner R.driver) o w r w') (hsecond : SecondReadHolds o w r)
    (hnext : (mainLogic R).next (.inl o) m r m') : Covered R w' m' none ts := by
  have hnone : ∀ i l x, ts i = .active l → l.gone = some x → x ∉ w'.rest.live :=
    fun i l _ hl => absurd hl (hquiet i l)
  -- A call that is not of the hooks, and keeps `state.json`.
  have hsame : w'.rest = w.rest → w'.resources = w.resources → m'.loc = m.loc →
      (m'.drained = true → w.rest.live = []) → Covered R w' m' none ts := by
    intro hrest hres hloc hdrained
    refine ⟨liveRecorded_congr hc.live hrest hres, hnone, ?_, ?_⟩
    · rw [hloc, hrest]
      exact hc.mainGone
    · rw [hrest]
      exact fun _ => hdrained
  cases o with
  | inner o =>
    obtain ⟨l', hl', rfl⟩ := hnext
    have hrole : Role R none := by rintro i ⟨⟩
    refine ⟨liveRecorded_step h hrole hok hsem hc.live (hc.mainGone rfl)
      (by rintro ⟨⟩), hnone, ?_, by rintro _ ⟨⟩⟩
    intro _ x hx
    rcases gone_step hsem hl' hx with hgone | hgone
    · intro hx'
      cases hcr : o.creates with
      | none => exact hc.mainGone rfl x hgone (live_other hsem hcr hx')
      | some y => cases (ok_creates hok hcr).1
    · exact hgone
  | returned walk node => exact hok.elim
  | mark walk node => exact hok.elim
  | setPhase phase =>
    cases hnext
    obtain ⟨hrest, hres | ⟨ho, -⟩⟩ := runSem_step hsem (by rintro x ⟨⟩)
    · exact hsame hrest hres rfl (hc.drained rfl)
    · cases ho
  | release =>
    cases hnext
    cases hsem
    exact hsame rfl rfl rfl (hc.drained rfl)
  | remove =>
    cases hnext
    have hempty := hc.drained rfl hok
    obtain ⟨-, rfl⟩ | ⟨-, rfl⟩ := hsem
    · refine ⟨?_, hnone, hc.mainGone, hc.drained⟩
      intro x hx
      rw [show w.rest.live = [] from hempty] at hx
      cases hx
    · exact hsame rfl rfl rfl (hc.drained rfl)
  | readResources =>
    obtain ⟨rfl, ⟨s, hs, rfl⟩ | ⟨e, rfl⟩⟩ := hsem
    · obtain ⟨-, rfl⟩ := hnext
      refine hsame rfl rfl rfl fun hd => nothing_live hc.live ?_
      rw [World.resources, hs]
      exact List.isEmpty_iff.mp hd
    · cases hnext
      exact hsame rfl rfl rfl (by rintro ⟨⟩)
  | readRemaining =>
    obtain ⟨rfl, ⟨s, hs, rfl⟩ | ⟨e, rfl⟩⟩ := hsem
    · obtain ⟨-, rfl⟩ := hnext
      refine hsame rfl rfl rfl fun hd => nothing_live hc.live ?_
      rw [World.resources, hs]
      exact List.isEmpty_iff.mp hd
    · -- The one exception that is taken for an empty ledger.
      cases hnext
      exact hsame rfl rfl rfl fun _ => hsecond

/-- A call of a hook. -/
theorem Covered.task_inner (h : R.Distinct) {o : SysOp} {r : Except Err (sysSig.Res o)}
    (hk : Kept R w m (some items) ts) (hc : Covered R w m (some items) ts)
    (hl : ts i = .active l) (hok : (sysLogic R (some i)).ok o l) (hsem : sysSem R.driver o w r w')
    (hnext : (sysLogic R (some i)).next o l r l') :
    Covered R w' m (some items) (Function.update ts i (.active l')) := by
  have ht := hk.thread i l hl
  have hrole : Role R (some i) := by
    rintro j ⟨⟩
    exact ht.item
  refine ⟨liveRecorded_step h hrole hok hsem hc.live (fun x => hc.gone i l x hl)
    (fun _ e he => (ht.last e he).2.1), ?_, (by rintro ⟨⟩), by rintro ⟨⟩⟩
  intro j lj x hj hgone hx
  by_cases hji : j = i
  · -- Its own: what it creates is not what it has removed.
    subst hji
    rw [Function.update_self] at hj
    cases hj
    rcases gone_step hsem hnext hgone with hold | hnew
    · cases hcr : o.creates with
      | none => exact hc.gone j l x hl hold (live_other hsem hcr hx)
      | some y =>
        obtain ⟨-, e, -, -, hno⟩ := ok_creates hok hcr
        rw [hno] at hold
        cases hold
    · exact hnew hx
  · -- Another's: what is created belongs to the hook that creates it.
    rw [Function.update_of_ne hji] at hj
    have hold := hc.gone j lj x hj hgone
    cases hcr : o.creates with
    | none => exact hold (live_other hsem hcr hx)
    | some y =>
      rcases live_creates hsem hcr hx with rfl | hx₀
      · obtain ⟨-, e, hlast, hobj, -⟩ := ok_creates hok hcr
        obtain ⟨hroom, -⟩ := ht.last e hlast
        have htj := hk.thread j lj hj
        obtain ⟨e', he', hobj'⟩ := htj.gone x hgone
        have heq : e' = e := h.obj_inj (RunConfig.own_subset htj.item he')
          (Local.room_subset ht.item hroom) (hobj'.trans hobj.symm)
        subst heq
        unfold Local.room at hroom
        split at hroom
        · exact h.not_own_of_infra htj.item hroom he'
        · exact hji (h.owner_unique htj.item ht.item he' hroom)
      · exact hold hx₀

/-- A worker that is over, or starts. -/
theorem Covered.rest {g : Ghost Local Err} (hc : Covered R w m (some items) ts)
    (hself : ∀ l, g = .active l → l.gone = none) :
    Covered R w m (some items) (Function.update ts i g) := by
  refine { hc with gone := ?_ }
  intro j l x hj hgone
  by_cases hji : j = i
  · subst hji
    rw [Function.update_self] at hj
    rw [hself l hj] at hgone
    cases hgone
  · rw [Function.update_of_ne hji] at hj
    exact hc.gone j l x hj hgone

/-- A call of a worker that is not one of the hook's. -/
theorem Covered.task_outer {o : RunOp SysOp} {r : Except Err ((runSig sysSig).Res o)}
    (hc : Covered R w m (some items) ts) (hl : ts i = .active l) (ho : ∀ x, o ≠ .inner x)
    (hok : (taskLogic R i).ok o l) (hsem : runSem (sysInner R.driver) o w r w') :
    Covered R w' m (some items) (Function.update ts i (.active l)) := by
  rw [Discipline.update_eq_self_of_eq hl]
  obtain ⟨hrest, hres | ⟨rfl, -⟩⟩ := runSem_step hsem ho
  · refine ⟨liveRecorded_congr hc.live hrest hres, ?_, (by rintro ⟨⟩),
      by rintro ⟨⟩⟩
    rw [hrest]
    exact hc.gone
  · exact hok.elim

end Keeping

/-- The invariant is kept on top of the one of every process. -/
def coveredExtra {R : RunConfig} (h : R.Distinct) {P : Process} (hP : P.toRunConfig = R)
    (jobs : Option ℤ) :
    (keptDiscipline h hP jobs SecondReadHolds fun _ _ => True).Extra where
  Inv := fun w _ m cur ts => Covered R w m cur ts
  main_op := by
    subst hP
    intro w log m ts o r w' m' hk hc hquiet hok hsem hnext
    exact hc.main_op h hquiet hok hsem.1 hsem.2 hnext
  fork := by
    intro w log m ts items hk hc hok
    exact ⟨hc.live, hc.gone, (by rintro ⟨⟩), by rintro ⟨⟩⟩
  start := by
    intro w log m ts items i hk hc hi hidle hstart
    refine hc.rest ?_
    rintro l ⟨⟩
    rfl
  task_op := by
    subst hP
    intro w log m ts items i l o r w' l' hk hc hi hl hok hsem hnext
    cases o with
    | inner o => exact hc.task_inner h hk hl hok hsem.1 hnext
    | returned walk node =>
      cases hnext
      exact hc.task_outer (o := .returned walk node) hl (by rintro x ⟨⟩) hok hsem.1
    | mark walk node =>
      cases hnext
      exact hc.task_outer (o := .mark walk node) hl (by rintro x ⟨⟩) hok hsem.1
    | _ => exact hok.elim
  finish := by
    intro w log m ts items i l r hk hc hi hl hret hexc
    exact hc.rest (by rintro l ⟨⟩)
  tick := fun _ hc => hc
  join := by
    intro w log m ts items r m' hk hc hok hquiet hret hnext
    refine ⟨hc.live, hc.gone, ?_, ?_⟩
    · intro _ x hx
      cases r with
      | ok a => obtain ⟨past, -, rfl⟩ := hnext; cases hx
      | error e => cases hnext; cases hx
    · intro _ hd
      cases r with
      | ok a => obtain ⟨past, -, rfl⟩ := hnext; cases hd
      | error e => cases hnext; cases hd

/-! ### Histories -/

/-- Nothing has been asked for yet. -/
def Untouched (w : World Sys) : Prop := w.ledger = none ∧ w.rest.live = []

/-- A process of the run boots, and only some answers and some starts come about. -/
def RunBoots (R : RunConfig)
    (allow : (o : RunOp SysOp) → World Sys → Except Err ((runSig sysSig).Res o) → Prop)
    (startOk : Item → World Sys → Prop) (w : World Sys)
    (b : Boot (runSig sysSig) Item Err (World Sys) Unit) : Prop :=
  ∃ P jobs cmd w₀, Boots R w P jobs cmd w₀ ∧
    b = ⟨restricted P jobs allow startOk, w₀, cmd.main P⟩

/-- The histories of a run. -/
abbrev RunHistory (R : RunConfig)
    (allow : (o : RunOp SysOp) → World Sys → Except Err ((runSig sysSig).Res o) → Prop)
    (startOk : Item → World Sys → Prop) :=
  History Untouched (RunBoots R allow startOk)

/-- What a process finds: the entries it found, and a fresh memory. -/
theorem Boots.world {R : RunConfig} {w w₀ : World Sys} {P : Process} {jobs : Option ℤ}
    {cmd : Command} (hb : Boots R w P jobs cmd w₀) :
    P.toRunConfig = R ∧ w₀.resources = w.resources ∧ w₀.rest.live = w.rest.live ∧
      w₀.rest.ctx = .fresh := by
  cases hb with
  | fresh hP jobs hcmd hnew hfresh driverClass driverUri now =>
    refine ⟨hP, ?_, rfl, rfl⟩
    rw [World.resources, World.resources, hnew]
    rfl
  | reopen hP jobs hcmd hold hstamps =>
    refine ⟨hP, ?_, rfl, rfl⟩
    rw [World.resources, World.resources, hold]
  | cleanup hP jobs hold =>
    refine ⟨hP, ?_, rfl, rfl⟩
    rw [World.resources, World.resources, hold]

/-- What holds between processes. -/
structure Between (R : RunConfig) (w : World Sys) : Prop where
  fits : ReadsEntries R w.resources
  live : LiveRecorded R w

theorem between_of_run {R : RunConfig} (h : R.Distinct) {w : World Sys}
    {b : Boot (runSig sysSig) Item Err (World Sys) Unit} (hw : Between R w)
    (hb : RunBoots R SecondReadHolds (fun _ _ => True) w b)
    {c : Proc (runSig sysSig) Item Err (World Sys) Unit}
    (hrun : b.machine.Run b.world b.main c) : Between R c.world := by
  obtain ⟨P, jobs, cmd, w₀, hboots, rfl⟩ := hb
  obtain ⟨hP, hres, hlive, hctx⟩ := hboots.world
  have hfits₀ : ReadsEntries R w₀.resources := by
    rw [hres]
    exact hw.fits
  have hlive₀ : LiveRecorded R w₀ := by
    intro x hx
    rw [hlive] at hx
    obtain ⟨e, he, hobj⟩ := hw.live x hx
    refine ⟨e, ?_, hobj⟩
    rw [RunConfig.recorded, hres]
    exact he
  have hcovered : Covered R w₀ .boot none fun _ => .idle :=
    ⟨hlive₀, (by rintro i l x ⟨⟩), (by rintro _ x ⟨⟩), by rintro _ ⟨⟩⟩
  let D := (keptDiscipline h hP jobs SecondReadHolds fun _ _ => True).and (coveredExtra h hP jobs)
  have hinv : D.Inv w₀ [] .boot none fun _ => .idle := ⟨Kept.boot hfits₀ hctx, hcovered⟩
  obtain ⟨m, ts, hholds⟩ := D.run (Q := Anyhow) (E := Anyhow) hinv
    (wp_command hP h cmd past_boot) hrun
  have hend : Kept R c.world m _ ts ∧ Covered R c.world m _ ts := hholds.inv
  exact ⟨hend.1.fits, hend.2.live⟩

/-- **What is live is recorded**: for every run whose composed names are pairwise distinct,
in every history of its processes in which no teardown fails to read what remains while
something is live, every live object has a record that the driver's dispatch resolves to
the removal of exactly that object. -/
theorem live_recorded {R : RunConfig} (h : R.Distinct)
    {b : Boot (runSig sysSig) Item Err (World Sys) Unit}
    {c : Proc (runSig sysSig) Item Err (World Sys) Unit}
    (hist : RunHistory R SecondReadHolds (fun _ _ => True) b c) :
    ∀ x ∈ c.world.rest.live, ∃ s, c.world.ledger = some s ∧
      ∃ r ∈ s.resources, r.target = .ok x := by
  have hinit : ∀ w, Untouched w → Between R w := by
    rintro w ⟨hledger, hlive⟩
    refine ⟨?_, ?_⟩
    · rw [World.resources, hledger]
      exact by rintro r ⟨⟩
    · intro x hx
      rw [hlive] at hx
      cases hx
  obtain ⟨hbetween, -⟩ := History.invariant (I := Between R) hinit
    (fun w b hw hb c hrun => between_of_run h hw hb hrun) hist
  intro x hx
  obtain ⟨e, he, rfl⟩ := hbetween.live x hx
  obtain ⟨hmem, r, hr, hname⟩ := (RunConfig.mem_recorded h).mp he
  obtain ⟨e', he', hfits⟩ := hbetween.fits r hr
  have heq : e' = e := h.name_inj he' hmem (hfits.name.symm.trans hname)
  subst heq
  cases hledger : c.world.ledger with
  | none =>
    rw [World.resources, hledger] at hr
    cases hr
  | some s =>
    rw [World.resources, hledger] at hr
    exact ⟨s, rfl, r, hr, hfits.target⟩

/-! ### A run with one pool -/

namespace PoolRun

/-- The pool. -/
def pool : StoragePool := ⟨"p", 1, by decide, le_rfl⟩

/-- A hypervisor with nothing else. -/
def hyp : Hypervisor where
  pools := [pool]
  switches := []
  vms := []
  explicitEdges := []
  buildSwitch := none
  nodup_pools := by decide
  nodup_switches := by decide
  nodup_vms := by decide

/-- The plan. -/
def plan : Plan where
  name := "plan"
  hyp := hyp
  graph :=
    { name := "plan"
      nodes := [.pool pool]
      edges := []
      nodup_names := by decide
      edges_known := by simp
      waves_complete := by decide
      contentWaves_complete := by decide }
  name_ne := by decide
  validated := rfl
  assembled := rfl

/-- A run of it on libvirt. -/
def run : RunConfig where
  plan := plan
  runId := "20250101-000000-abcdef"
  naming := libvirtNaming fun _ => "000000"
  driver := ⟨fun _ => "br0", fun _ switchBackend => switchBackend⟩

/-- A process of it. -/
def process : Process where
  toRunConfig := run
  probe := fun _ => ⟨true, false, false, false⟩
  reattach := fun _ => false

theorem distinct : run.Distinct := by
  refine ⟨by decide, fun sw => ?_⟩
  show ∀ e ∈ run.catalog, e.name run ≠ "br0"
  decide

theorem waves : run.plan.graph.waves = [[.pool pool]] := by decide
theorem contentWaves : run.plan.graph.contentWaves = [[.pool pool]] := by decide

/-- The name the pool gets. -/
def backend : String := "tr-pool-20250101-p"

/-- Everything is allowed, save perhaps an answer to the last read of a teardown. -/
def Lenient (allow : (o : RunOp SysOp) → World Sys → Except Err ((runSig sysSig).Res o) → Prop) :
    Prop :=
  ∀ o w r, o ≠ .readRemaining → allow o w r

/-- The calls this run makes: all but the intent of the build pool. -/
def calls : Set SysOp := {o | ∀ n planName metadata, o ≠ .recordIntent "build_pool" n planName metadata}

/-- Whatever this run calls is allowed, save perhaps an answer to the last read of a teardown. -/
structure Permits
    (allow : (o : RunOp SysOp) → World Sys → Except Err ((runSig sysSig).Res o) → Prop) : Prop where
  inner : ∀ o ∈ calls, ∀ w r, allow (.inner o) w r
  outer : ∀ o w r, (∀ x, o ≠ .inner x) → o ≠ .readRemaining → allow o w r

theorem Lenient.permits
    {allow : (o : RunOp SysOp) → World Sys → Except Err ((runSig sysSig).Res o) → Prop}
    (h : Lenient allow) : Permits allow :=
  ⟨fun o _ w r => h (.inner o) w r (by rintro ⟨⟩), fun o w r _ ho => h o w r ho⟩

theorem makes_work : Makes calls (sysOp .work) := makes_sysOp (by rintro n pn md ⟨⟩)

theorem makes_realize : Makes calls (realize process (.pool pool)) := by
  refine .seq (.seq (makes_sysOp ?_) fun _ => .seq (makes_sysOp (by rintro n pn md ⟨⟩)) fun _ =>
    .seq (makes_sysOp (by rintro n pn md ⟨⟩)) fun _ => trivial)
    fun _ => makes_sysOp (by rintro n pn md ⟨⟩)
  intro n pn md heq
  injection heq with hkind
  revert hkind
  decide

theorem makes_popThen {get : Ctx → Option String} {erase : Ctx → Ctx} {f : String → Hook Unit}
    (hf : ∀ b, Makes calls (f b)) : Makes calls (popThen get erase f) := by
  refine .seq (makes_sysOp (by rintro n pn md ⟨⟩)) fun c =>
    .seq (makes_sysOp (by rintro n pn md ⟨⟩)) fun _ => ?_
  cases get c with
  | none => trivial
  | some b => exact hf b

theorem makes_teardownBuildInfra : Makes calls teardownBuildInfra := by
  have hremove : ∀ o, Makes calls (removeAndForget o) := fun o =>
    .seq (makes_sysOp (by rintro n pn md ⟨⟩)) fun _ => makes_sysOp (by rintro n pn md ⟨⟩)
  refine .seq (makes_sysOp (by rintro n pn md ⟨⟩)) fun _ =>
    .tryFinally (.seq (makes_sysOp (by rintro n pn md ⟨⟩)) fun c => ?_)
      (makes_sysOp (by rintro n pn md ⟨⟩))
  dsimp only
  split
  · split
    · refine .seq (makes_popThen fun b => hremove _) fun _ => ?_
      refine .seq (.forM fun net => makes_popThen fun b => hremove _) fun _ => ?_
      refine .seq (makes_popThen fun b => trivial) fun _ => ?_
      refine .seq (makes_popThen fun b => hremove _) fun _ => ?_
      exact .seq (hremove _) fun _ => makes_sysOp (by rintro n pn md ⟨⟩)
    · trivial
  · trivial

section

variable {allow : (o : RunOp SysOp) → World Sys → Except Err ((runSig sysSig).Res o) → Prop}
  {startOk : Item → World Sys → Prop} (hallow : Permits allow)

/-- The machine of a process with one job. -/
abbrev M (allow : (o : RunOp SysOp) → World Sys → Except Err ((runSig sysSig).Res o) → Prop) :=
  restricted process (some 1) allow fun _ _ => True

include hallow

theorem ends_inner {α : Type} {p : Hook α} {out : Except Err α} {w w' : World Sys}
    (hmakes : Makes calls p) (hp : Prog.Ends (sysSem run.driver) p w out w') :
    Prog.Ends (restricted process (some 1) allow startOk).bigSem (MainProg.lift (onInner p)) w out
      w' :=
  Machine.ends_lift (ends_onInner hmakes hallow.inner hp)

theorem ends_setPhase (phase : Phase) (s : State) (rest : Sys) :
    Prog.Ends (restricted process (some 1) allow startOk).sem (runOp (.setPhase phase))
      ⟨some s, rest⟩ (.ok ()) ⟨some { s with phase := phase.name }, rest⟩ :=
  .perform ⟨.inl ⟨trivial, s, "", _, rfl, rfl, rfl⟩, hallow.outer _ _ _ (by rintro x ⟨⟩) (by rintro ⟨⟩)⟩

/-- The build walk finds nothing to build. -/
theorem ends_buildWalk (s : State) (rest : Sys)
    (hstart : ∀ i (w : World Sys), w.resources = s.resources → startOk i w)
    (hlock : rest.infraLock = false) (hdown : rest.ctx.buildInfra.active = false) :
    ∃ s', s'.resources = s.resources ∧ (∀ n, s'.Stamped .realize n → s.Stamped .realize n) ∧
      Prog.Ends (restricted process (some 1) allow startOk).bigSem (buildWalk process)
        ⟨some s, rest⟩ (.ok ()) ⟨some s', rest⟩ := by
  let s₁ := { s with phase := Phase.build.name }
  let s₂ := s₁.withNodeRecord
    { (s₁.nodeRecord "pool:p").getD ⟨"pool:p", none, none⟩ with materializedAt := some "" }
  have hwalk : Prog.Ends (restricted process (some 1) allow startOk).bigSem
      (walkWaves .materialize run.plan.graph.contentWaves) ⟨some s₁, rest⟩ (.ok ())
      ⟨some s₂, rest⟩ := by
    rw [contentWaves]
    refine .bind (Machine.ends_fork rfl (by simp [waveItems])
      (.cons ⟨trivial, hstart _ _ rfl⟩ ?_ .nil)) (.ret _ _)
    exact ends_runHook trivial hallow.inner (.ret _ _) (hallow.outer _ _ _ (by rintro x ⟨⟩) (by rintro ⟨⟩))
      ⟨.inl ⟨trivial, s₁, "", s₂, rfl, rfl, rfl⟩, hallow.outer _ _ _ (by rintro x ⟨⟩) (by rintro ⟨⟩)⟩
  -- The infrastructure is down: there is nothing to tear down.
  have htear : Prog.Ends (sysSem run.driver) teardownBuildInfra ⟨some s₂, rest⟩ (.ok ())
      ⟨some s₂, rest⟩ := by
    have hrelease : Prog.Ends (sysSem run.driver) (sysOp .releaseInfraLock)
        ⟨some s₂, { rest with infraLock := true }⟩ (.ok ()) ⟨some s₂, rest⟩ := by
      refine .perform ⟨rfl, ?_⟩
      cases rest
      cases hlock
      rfl
    refine .bind (.perform (r := .ok ()) ⟨hlock, rfl, rfl⟩) (.tryFinally ?_ hrelease)
    refine .bind (show Prog.Ends _ (sysOp .readCtx) _ (.ok rest.ctx) _ from .perform ⟨rfl, rfl⟩) ?_
    dsimp only
    rw [hdown]
    exact .ret _ _
  -- The stamp is one of the other walk.
  have hstamped : ∀ n, s₂.Stamped .realize n → s.Stamped .realize n := by
    rintro n ⟨rec, hrec, hrealized⟩
    rw [Walk.nodeRecord_withNodeRecord] at hrec
    split_ifs at hrec with hn
    · obtain rfl := Option.some.inj hrec
      cases hprior : s₁.nodeRecord "pool:p" with
      | none => simp [hprior] at hrealized
      | some prior =>
        refine ⟨prior, ?_, by simpa [hprior] using hrealized⟩
        rw [← (Walk.name_getD_nodeRecord s₁ "pool:p").symm.trans hn]
        exact hprior
    · exact ⟨rec, hrec, hrealized⟩
  refine ⟨s₂, rfl, hstamped, .bind (Machine.ends_lift (ends_setPhase hallow .build s rest)) ?_⟩
  refine .bind (ends_inner hallow makes_work (.perform (r := .ok ()) ⟨(by rintro e ⟨⟩), rfl⟩)) ?_
  exact .tryFinally hwalk (ends_inner hallow makes_teardownBuildInfra htear)

/-- What the pool is recorded as. -/
def intent (now : String) : Resource := ⟨"pool", backend, some "p", now, none, .empty⟩

omit hallow in
/-- The pool is created, and confirming it raises. -/
theorem ends_realize_unconfirmed (s : State) (rest : Sys) :
    Prog.Ends (sysSem run.driver) (realize process (.pool pool)) ⟨some s, rest⟩
      (.error (.call false))
      ⟨some (s.withResource (intent "")), { rest with live := .pool backend :: rest.live }⟩ := by
  have houtside : ∀ {α : Type} {r : Except Err α}, (∀ e, r = .error e → e = .call false) →
      Outside r := fun hr e he => ⟨false, hr e he⟩
  refine .bind_raise (.bind (.perform (r := .ok ())
    ⟨(by rintro e ⟨⟩), .inl ⟨trivial, s, "", _, rfl, rfl, rfl⟩⟩) ?_)
  refine .bind (.perform (r := .ok ()) ⟨(by rintro e ⟨⟩), .inl ⟨trivial, rfl⟩⟩) ?_
  refine .bind_raise (.perform ⟨houtside fun e he => by cases he; rfl, .inr ⟨?_, rfl⟩⟩)
  simp [Effective, Err.late]

omit hallow in
/-- The pool is created and confirmed. -/
theorem ends_realize {s : State} (hs : s.resources = []) (rest : Sys) :
    ∃ s' rest', s'.resources = [{ intent "" with outcomeAt := some "" }] ∧
      rest'.live = .pool backend :: rest.live ∧
      Prog.Ends (sysSem run.driver) (realize process (.pool pool)) ⟨some s, rest⟩ (.ok ())
        ⟨some s', rest'⟩ := by
  refine ⟨{ s with resources := [{ intent "" with outcomeAt := some "" }] }, { rest with
    live := .pool backend :: rest.live
    ctx := { rest.ctx with
      poolBackends := Function.update rest.ctx.poolBackends "p" (some backend) } },
    rfl, rfl, ?_⟩
  have htracked : Prog.Ends (sysSem run.driver)
      (tracked "pool" backend (some "p") .empty (sysOp (.create (.pool backend))))
      ⟨some s, rest⟩ (.ok ())
      ⟨some { s with resources := [{ intent "" with outcomeAt := some "" }] },
        { rest with live := .pool backend :: rest.live }⟩ := by
    refine .bind (.perform (r := .ok ())
      ⟨(by rintro e ⟨⟩), .inl ⟨trivial, s, "", _, rfl, rfl, rfl⟩⟩) ?_
    refine .bind (.perform (r := .ok ()) ⟨(by rintro e ⟨⟩), .inl ⟨trivial, rfl⟩⟩) ?_
    refine .bind (.perform (r := .ok ()) ⟨(by rintro e ⟨⟩),
      .inl ⟨trivial, _, "", _, rfl, ?_, rfl⟩⟩) (.ret _ _)
    simp only [Mutation.apply, State.withResource, hs, State.replaceResource]
    rfl
  exact .bind htracked (.perform ⟨rfl, rfl⟩)

/-- A range that is brought up and left running: its pool is live and recorded. -/
theorem ends_leaked {s : State} (hs : s.resources = []) (rest : Sys)
    (hstart : ∀ i (w : World Sys), w.resources = [] → startOk i w)
    (hlock : rest.infraLock = false) (hdown : rest.ctx.buildInfra.active = false) :
    ∃ s' rest', s'.resources = [{ intent "" with outcomeAt := some "" }] ∧
      rest'.live = .pool backend :: rest.live ∧
      Prog.Ends (restricted process (some 1) allow startOk).bigSem
        (Command.main process (.run false true)) ⟨some s, rest⟩ (.ok ()) ⟨some s', rest'⟩ := by
  obtain ⟨s₁, hs₁, -, hbuild⟩ := ends_buildWalk hallow s rest
    (fun i w hw => hstart i w (hw.trans hs)) hlock hdown
  obtain ⟨s₂, rest₂, hs₂, hlive, hrealize⟩ := ends_realize
    (s := { s₁ with phase := Phase.run.name }) (hs₁.trans hs) rest
  let s₃ := s₂.withNodeRecord
    { (s₂.nodeRecord "pool:p").getD ⟨"pool:p", none, none⟩ with realizedAt := some "" }
  have hwalk : Prog.Ends (restricted process (some 1) allow startOk).bigSem
      (walkWaves .realize run.plan.graph.waves)
      ⟨some { s₁ with phase := Phase.run.name }, rest⟩ (.ok ()) ⟨some s₃, rest₂⟩ := by
    rw [waves]
    refine .bind (Machine.ends_fork rfl (by simp [waveItems])
      (.cons ⟨trivial, hstart _ _ (hs₁.trans hs)⟩ ?_ .nil)) (.ret _ _)
    exact ends_runHook makes_realize hallow.inner hrealize (hallow.outer _ _ _ (by rintro x ⟨⟩) (by rintro ⟨⟩))
      ⟨.inl ⟨trivial, s₂, "", s₃, rfl, rfl, rfl⟩, hallow.outer _ _ _ (by rintro x ⟨⟩) (by rintro ⟨⟩)⟩
  have hup : Prog.Ends (restricted process (some 1) allow startOk).bigSem
      (bringUp process false) ⟨some s, rest⟩ (.ok ()) ⟨some s₃, rest₂⟩ :=
    .bind (.ret _ _) (.bind hbuild (.bind (Machine.ends_lift (ends_setPhase hallow .run s₁ _)) hwalk))
  refine ⟨{ s₃ with phase := Phase.leaked.name }, rest₂, hs₂, hlive, ?_⟩
  exact .bind hup.attempt (.bind (Machine.ends_lift (ends_setPhase hallow .leaked _ _))
    (Machine.ends_lift (.perform ⟨rfl, hallow.outer _ _ _ (by rintro x ⟨⟩) (by rintro ⟨⟩)⟩)))

end

/-- The world before the run. -/
def before : World Sys := ⟨none, [], [], fun _ => none, .fresh, false⟩

/-- `state.json` as it is created. -/
def created : State := .initial run.runId "plan" "LibvirtDriver" "qemu:///system" ""

theorem boots (cmd : Command) (hcmd : cmd ≠ .cleanup)
    (allow : (o : RunOp SysOp) → World Sys → Except Err ((runSig sysSig).Res o) → Prop) :
    RunBoots run allow (fun _ _ => True) before
      ⟨M allow, ⟨some created, before.rest⟩, cmd.main process⟩ :=
  ⟨process, some 1, cmd, _, .fresh (R := run) (P := process) (w := before) rfl (some 1) hcmd rfl
    (fun _ => rfl) "LibvirtDriver" "qemu:///system" "", rfl⟩

theorem lenient_secondReadHolds : Lenient SecondReadHolds := by
  intro o w r ho
  cases o with
  | readRemaining => exact absurd rfl ho
  | _ => trivial

/-- A range that is left running: its pool is live and recorded. -/
theorem live_recorded_leaked : ∃ b c, RunHistory run SecondReadHolds (fun _ _ => True) b c ∧
    Obj.pool backend ∈ c.world.rest.live ∧ ∃ s, c.world.ledger = some s ∧
      ∃ r ∈ s.resources, r.target = .ok (.pool backend) := by
  obtain ⟨s, rest, -, hlive, hmain⟩ := ends_leaked lenient_secondReadHolds.permits (s := created) rfl
    before.rest (fun _ _ _ => trivial) rfl rfl
  obtain ⟨log, hrun⟩ := Machine.Run.of_ends hmain .boot
  have hist : RunHistory run SecondReadHolds (fun _ _ => True) _ _ := History.first_run ⟨rfl, rfl⟩
    (boots (.run false true) (by simp) SecondReadHolds) hrun
  have hmem : Obj.pool backend ∈ rest.live := by simp [hlive]
  exact ⟨_, _, hist, hmem, live_recorded distinct hist _ hmem⟩

/-- The pool is created; its confirm, its destroy and the second read of the teardown
raise, and `state.json` is removed. -/
theorem live_unrecorded : run.Distinct ∧
    ∃ b c, RunHistory run (fun _ _ _ => True) (fun _ _ => True) b c ∧
      Obj.pool backend ∈ c.world.rest.live ∧ c.world.ledger = none := by
  refine ⟨distinct, ?_⟩
  have hallow : Permits fun _ _ _ => True := ⟨fun _ _ _ _ => trivial, fun _ _ _ _ _ => trivial⟩
  obtain ⟨s₁, hs₁, -, hbuild⟩ := ends_buildWalk hallow created before.rest
    (fun _ _ _ => trivial) rfl rfl
  let s₂ := { s₁ with phase := Phase.run.name }
  let s₃ := s₂.withResource (intent "")
  let rest₃ : Sys := { before.rest with live := .pool backend :: before.rest.live }
  let s₄ := { s₃ with phase := Phase.cleanup.name }
  let s₅ := { s₄ with phase := Phase.done.name }
  have hres : s₄.resources = [intent ""] := by
    show s₁.resources ++ [intent ""] = _
    rw [hs₁]
    rfl
  have hwalk : Prog.Ends (M fun _ _ _ => True).bigSem (walkWaves .realize run.plan.graph.waves)
      ⟨some s₂, before.rest⟩ (.error (.call false)) ⟨some s₃, rest₃⟩ := by
    rw [waves]
    refine .bind_raise (Machine.ends_fork rfl (by simp [waveItems]) (.raise ⟨trivial, trivial⟩ ?_))
    exact ends_runHook_raise makes_realize hallow.inner (ends_realize_unconfirmed s₂ before.rest)
  have hup : Prog.Ends (M fun _ _ _ => True).bigSem (bringUp process false)
      ⟨some created, before.rest⟩ (.error (.call false)) ⟨some s₃, rest₃⟩ :=
    .bind (.ret _ _) (.bind hbuild
      (.bind (Machine.ends_lift (ends_setPhase hallow .run s₁ _)) hwalk))
  have hdestroy : Prog.Ends (M fun _ _ _ => True).sem (destroyRecorded (intent ""))
      ⟨some s₄, rest₃⟩ (.ok ()) ⟨some s₄, rest₃⟩ := by
    refine .ignore (.bind_raise (.perform (r := .error (.call false)) ⟨?_, trivial⟩))
    exact ⟨fun e he => ⟨false, by cases he; rfl⟩, fun _ => false, by simp, by simp, rfl⟩
  have hfinish : Prog.Ends (M fun _ _ _ => True).sem finishTeardown ⟨some s₄, rest₃⟩ (.ok ())
      ⟨none, rest₃⟩ :=
    .bind (ends_setPhase hallow .done s₄ rest₃) (.bind (.perform (r := .ok ()) ⟨rfl, trivial⟩)
      (.perform ⟨.inl ⟨trivial, rfl⟩, trivial⟩))
  have hteardown : Prog.Ends (M fun _ _ _ => True).sem teardown ⟨some s₃, rest₃⟩ (.ok ())
      ⟨none, rest₃⟩ := by
    refine .bind (.ignore (ends_setPhase hallow .cleanup s₃ rest₃)) ?_
    refine .bind (.attempt (.perform (r := .ok [intent ""]) ⟨⟨rfl, .inl ⟨s₄, rfl, ?_⟩⟩, trivial⟩)) ?_
    · rw [hres]
    refine .bind (.bind hdestroy (.ret _ _)) ?_
    refine .bind (.attempt (.perform (r := .error (.call false)) ⟨⟨rfl, .inr ⟨_, rfl⟩⟩, trivial⟩)) ?_
    exact .ignore hfinish
  have hmain : Prog.Ends (M fun _ _ _ => True).bigSem (Command.main process (.run false false))
      ⟨some created, before.rest⟩ (.error (.call false)) ⟨none, rest₃⟩ :=
    .bind hup.attempt (.bind (Machine.ends_lift hteardown) (.raise _ _))
  obtain ⟨log, hrun⟩ := Machine.Run.of_ends hmain .boot
  exact ⟨_, _, History.first_run ⟨rfl, rfl⟩ (boots (.run false false) (by simp) _) hrun,
    List.mem_cons_self, rfl⟩

end PoolRun

end TestRange
