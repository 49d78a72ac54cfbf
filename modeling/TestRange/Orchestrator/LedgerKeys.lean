/-
A backend name is listed once, as long as no hook starts over its own leftovers.

`record_intent` appends to the ledger without looking for the name it is given.  Within one
walk every hook runs once and records each of its resources once; what makes a name be listed
twice is a hook that runs again, in a resumed run, while what it recorded before is still
listed, or a second attempt at the build infrastructure after a first one that failed part way.

* `StartsAfresh`, `BuildsAfresh` — the condition: whoever records finds nothing of its own;
* `doorLogic` — a hook that does not record, and the first intent behind the door of the build
  infrastructure;
* `Listed` — the invariant: what is listed of a hook's own it has recorded itself;
* `ledger_names_unique` — in every history whose steps meet the condition, no name is listed
  twice;
* `PoolRun.pool_listed_twice` — a run that fails once and is resumed lists its pool twice.
-/
import TestRange.Lib.Footprint
import TestRange.Orchestrator.Covered

namespace TestRange

/-! ### The condition -/

/-- Whether a hook records: it neither finds its VM in the cache nor reattaches. -/
def Process.records (P : Process) : Item → Bool
  | (.materialize, .vm v _) => !(P.probe v).cached
  | (.materialize, _) => false
  | (.realize, n) => !P.reattach n.name

/-- None of the entries is listed. -/
def Unlisted (R : RunConfig) (es : List Entry) (w : World Sys) : Prop :=
  ∀ e ∈ es, ∀ r ∈ w.resources, r.backendName ≠ e.name R

/-- A hook that records starts when nothing of its own is listed. -/
def StartsAfresh (P : Process) (i : Item) (w : World Sys) : Prop :=
  P.records i = true → Unlisted P.toRunConfig (ownEntries i) w

/-- The build infrastructure, which begins with its pool, is begun when nothing of it is
listed. -/
def BuildsAfresh (R : RunConfig) :
    (o : RunOp SysOp) → World Sys → Except Err ((runSig sysSig).Res o) → Prop
  | .inner (.recordIntent kind _ _ _), w, _ => kind = "build_pool" → Unlisted R R.infra w
  | _, _, _ => True

/-! ### Behind the door of the build infrastructure -/

/-- Whether a call records an intent. -/
def SysOp.isIntent : SysOp → Bool
  | .recordIntent _ _ _ _ => true
  | _ => false

/-- Whether the hooks of a walk may take the lock of the build infrastructure. -/
def Walk.builds : Walk → Bool
  | .materialize => true
  | .realize => false

/-- The rule of a hook that may record or not, and take the lock of the build infrastructure or
not: after it has taken it, the first intent is that of the build pool. -/
def doorLogic (builds records : Bool) : Prog.Logic sysSig Err Bool where
  ok
    | .recordIntent kind _ _ _, door => records = true ∧ (door = true → kind = "build_pool")
    | .acquireInfraLock, _ => builds = true
    | _, _ => True
  next
    | .recordIntent _ _ _ _, _, _, door' => door' = false
    | .acquireInfraLock, _, _, door' => door' = true
    | .releaseInfraLock, _, _, door' => door' = false
    | _, door, _, door' => door' = door

/-- The same, of a worker. -/
def taskDoor (builds records : Bool) : Prog.Logic (runSig sysSig) Err Bool where
  ok
    | .inner o, door => (doorLogic builds records).ok o door
    | _, _ => True
  next
    | .inner o, door, r, door' => (doorLogic builds records).next o door r door'
    | _, door, _, door' => door' = door

/-- The calls that do not take the lock. -/
def indoors : Set SysOp := {o | o ≠ .acquireInfraLock}

/-- Of these, the ones that record no intent. -/
def silent : Set SysOp := {o | o ≠ .acquireInfraLock ∧ o.isIntent = false}

section Doors

variable {own : Set SysOp} {R : RunConfig} {P : Process} {builds records : Bool}

theorem makes_indoors {o : SysOp} (h : o ≠ .acquireInfraLock) : Makes indoors (sysOp o) :=
  makes_sysOp h

theorem makes_getItem {α : Type} {d : String → Option α} {k : String} :
    Makes own (getItem d k) := by
  unfold getItem
  split <;> trivial

theorem makes_onlyIf {b : Bool} {p : Hook Unit} (hp : Makes own p) : Makes own (onlyIf b p) := by
  unfold onlyIf
  split
  · exact hp
  · trivial

theorem makes_getPool {name : String} : Makes indoors (getPool name) :=
  .seq (makes_indoors (by rintro ⟨⟩)) fun _ => makes_getItem

theorem makes_tracked {α : Type} {kind backendName : String} {planName : Option String}
    {metadata : Dict} {create : Hook α} (hcreate : Makes indoors create) :
    Makes indoors (tracked kind backendName planName metadata create) :=
  .seq (makes_indoors (by rintro ⟨⟩)) fun _ => .seq hcreate fun _ =>
    .seq (makes_indoors (by rintro ⟨⟩)) fun _ => trivial

theorem makes_trackedVolume {kind backendName poolBackend : String} {planName : Option String}
    {before after : Hook Unit} (hbefore : Makes indoors before) (hafter : Makes indoors after) :
    Makes indoors (trackedVolume kind backendName planName poolBackend before after) :=
  makes_tracked (.seq hbefore fun _ => .seq (makes_indoors (by rintro ⟨⟩)) fun _ => hafter)

theorem makes_provisionSwitch {kindPrefix : String} {sw : Switch} :
    Makes indoors (provisionSwitch R kindPrefix sw) := by
  unfold provisionSwitch
  refine .seq (makes_tracked (makes_indoors (by rintro ⟨⟩))) fun uplink => ?_
  refine .seq (makes_indoors (by rintro ⟨⟩)) fun _ => .seq (.forM fun net => ?_) fun _ => ?_
  · exact .seq (makes_tracked (makes_indoors (by rintro ⟨⟩))) fun _ =>
      makes_indoors (by rintro ⟨⟩)
  · cases uplink with
    | none => trivial
    | some uplinkBackend => exact makes_indoors (by rintro ⟨⟩)

theorem makes_sidecarHome {poolBackend : Option String} :
    Makes indoors (sidecarHome R poolBackend) := by
  unfold sidecarHome
  split
  · trivial
  · split
    · trivial
    · exact makes_getPool

theorem makes_materializeSidecarFor {kindPrefix : String} {sw : Switch}
    {poolBackend : Option String} :
    Makes indoors (materializeSidecarFor R kindPrefix sw poolBackend) := by
  have hwork : Makes indoors (sysOp .work) := makes_indoors (by rintro ⟨⟩)
  unfold materializeSidecarFor
  split
  · refine .seq makes_sidecarHome fun pool => .seq ?_ fun nics => ?_
    · unfold sidecarAttachments
      split <;> trivial
    refine .seq hwork fun _ => .seq (makes_trackedVolume trivial trivial) fun _ => ?_
    refine .seq hwork fun _ => .seq (makes_trackedVolume trivial trivial) fun _ => ?_
    refine .seq (makes_indoors (by rintro ⟨⟩)) fun c => .seq (.forM fun net => ?_) fun _ => ?_
    · exact .seq makes_getItem fun _ => trivial
    refine .seq (makes_tracked (makes_indoors (by rintro ⟨⟩))) fun _ => .seq hwork fun _ => ?_
    exact makes_indoors (by rintro ⟨⟩)
  · trivial

theorem makes_bringUpVm {v : VMRecipe} : Makes indoors (bringUpVm R v) := by
  have hbuilt : ∀ {built : List String} {role : String}, Makes indoors (builtPath built role) := by
    intro built role
    unfold builtPath
    split <;> trivial
  unfold bringUpVm
  refine .seq (makes_indoors (by rintro ⟨⟩)) fun c => .seq makes_getItem fun built => ?_
  refine .seq makes_getPool fun home => .seq (makes_trackedVolume hbuilt trivial) fun _ => ?_
  refine .seq (.forM fun hd => ?_) fun _ => .seq (makes_tracked ?_) fun _ => ?_
  · exact .seq makes_getPool fun _ => makes_trackedVolume hbuilt trivial
  · exact .seq (makes_indoors (by rintro ⟨⟩)) fun _ => makes_indoors (by rintro ⟨⟩)
  · exact makes_indoors (by rintro ⟨⟩)

theorem makes_bestEffortDelete {o : Obj} : Makes indoors (bestEffortDelete o) := by
  unfold bestEffortDelete
  refine .seq (.attempt (makes_indoors (by rintro ⟨⟩))) fun r => ?_
  cases r with
  | error e => trivial
  | ok a => exact makes_indoors (by rintro ⟨⟩)

theorem makes_buildOneVm {v : VMRecipe} {probe : Probe} {pool net : String} :
    Makes indoors (buildOneVm R v probe pool net) := by
  have hwork : Makes indoors (sysOp .work) := makes_indoors (by rintro ⟨⟩)
  unfold buildOneVm
  refine .seq (makes_trackedVolume trivial (makes_onlyIf hwork)) fun _ => ?_
  refine .seq (makes_onlyIf (.seq hwork fun _ => makes_trackedVolume trivial trivial)) fun _ => ?_
  refine .seq (.forM fun i => makes_trackedVolume trivial trivial) fun _ => ?_
  refine .seq hwork fun _ => .seq (makes_onlyIf (makes_trackedVolume trivial trivial)) fun _ => ?_
  refine .seq (makes_tracked (makes_indoors (by rintro ⟨⟩))) fun _ => ?_
  refine .seq hwork fun _ => .seq hwork fun _ => .seq hwork fun _ => ?_
  refine .seq (.forM fun _ => hwork) fun _ => .seq (makes_indoors (by rintro ⟨⟩)) fun _ => ?_
  refine .seq makes_bestEffortDelete fun _ => .seq (makes_onlyIf makes_bestEffortDelete) fun _ => ?_
  refine .seq (makes_onlyIf makes_bestEffortDelete) fun _ => ?_
  exact .seq (.forM fun i => makes_bestEffortDelete) fun _ => makes_bestEffortDelete

/-- A hook that takes no lock leaves the door shut. -/
theorem Makes.wp_shut {α : Type} {p : Hook α} (hp : Makes own p)
    (hown : ∀ o ∈ own, o ≠ .acquireInfraLock ∧ (o.isIntent = true → records = true)) :
    p.wp (doorLogic builds records) (fun _ door => door = false) (fun _ door => door = false) false := by
  refine Prog.Within.wp (I := fun door => door = false) hp ?_ ?_ rfl
  · rintro o door ho rfl
    obtain ⟨hlock, hintent⟩ := hown o (Set.singleton_subset_iff.mp ho)
    cases o with
    | recordIntent => exact ⟨hintent rfl, by rintro ⟨⟩⟩
    | acquireInfraLock => exact absurd rfl hlock
    | _ => trivial
  · rintro o door r door' ho rfl hnext
    have hlock := (hown o (Set.singleton_subset_iff.mp ho)).1
    cases o with
    | acquireInfraLock => exact absurd rfl hlock
    | _ => exact hnext

theorem wp_indoors {α : Type} {p : Hook α} (hp : Makes indoors p) :
    p.wp (doorLogic builds true) (fun _ door => door = false) (fun _ door => door = false) false :=
  hp.wp_shut fun _ ho => ⟨ho, fun _ => rfl⟩

theorem wp_silent {α : Type} {p : Hook α} (hp : Makes silent p) :
    p.wp (doorLogic builds records) (fun _ door => door = false) (fun _ door => door = false) false :=
  hp.wp_shut fun o ho => ⟨ho.1, fun hintent => by rw [ho.2] at hintent; cases hintent⟩

/-- The pool comes first. -/
theorem wp_door_createBuildInfra {door : Bool} :
    (createBuildInfra R).wp (doorLogic true true) (fun _ _ => True) (fun _ _ => True) door := by
  have hrest : ∀ {α β : Type} {p : Hook α} {f : α → Hook β}, Makes indoors p →
      (∀ a, (f a).wp (doorLogic true true) (fun _ _ => True) (fun _ _ => True) false) →
      (p >>= f).wp (doorLogic true true) (fun _ _ => True) (fun _ _ => True) false := by
    intro α β p f hp hf
    refine Prog.wp_seq (Prog.wp_mono (fun _ _ h => h) (fun _ _ _ => trivial) (wp_indoors hp)) ?_
    rintro a - rfl
    exact hf a
  unfold createBuildInfra createBuildPool tracked
  refine Prog.wp_seq (P := fun _ door => door = false) ?_ ?_
  · refine Prog.wp_seq (P := fun _ door => door = false) ?_ fun _ door hdoor => hdoor
    refine Prog.wp_seq (P := fun _ door => door = false)
      (Prog.wp_perform.mpr ⟨⟨rfl, fun _ => rfl⟩, fun _ _ h => h, fun _ _ _ => trivial⟩) ?_
    rintro - - rfl
    refine Prog.wp_mono (fun _ _ h => h) (fun _ _ _ => trivial) (wp_indoors (.seq ?_ fun _ => ?_))
    · exact makes_indoors (by rintro ⟨⟩)
    · exact .seq (makes_indoors (by rintro ⟨⟩)) fun _ => trivial
  · rintro poolBackend - rfl
    refine hrest makes_provisionSwitch fun _ => hrest ?_ fun net => ?_
    · unfold firstNetwork
      split
      · exact .seq (makes_indoors (by rintro ⟨⟩)) fun _ => makes_getItem
      · trivial
    · exact hrest makes_materializeSidecarFor fun _ =>
        hrest (makes_indoors (by rintro ⟨⟩)) fun _ => trivial

theorem wp_door_ensureBuildInfra :
    (ensureBuildInfra P).wp (doorLogic true true) (fun _ door => door = false) (fun _ _ => True)
      false := by
  unfold ensureBuildInfra withInfraLock
  refine Prog.wp_seq (P := fun _ _ => True)
    (Prog.wp_perform.mpr ⟨rfl, fun _ _ _ => trivial, fun _ _ _ => trivial⟩) fun _ door _ => ?_
  refine (congrFun Prog.wp_tryFinally _).mpr ?_
  -- Whatever comes of it, the lock is released.
  have hrelease : ∀ door, (sysOp .releaseInfraLock).wp (doorLogic true true)
      (fun _ door' => door' = false) (fun _ _ => True) door := fun door =>
    Prog.wp_perform.mpr ⟨trivial, fun _ _ h => h, fun _ _ _ => trivial⟩
  refine Prog.wp_mono (Q := fun _ _ => True) (E := fun _ _ => True) (fun _ door _ => hrelease door)
    (fun _ door _ => Prog.wp_mono (fun _ _ _ => trivial) (fun _ _ h => h) (hrelease door)) ?_
  refine Prog.wp_seq (P := fun _ _ => True)
    (Prog.wp_perform.mpr ⟨trivial, fun _ _ _ => trivial, fun _ _ _ => trivial⟩) fun c door _ => ?_
  dsimp only
  split_ifs
  · split <;> trivial
  · trivial
  · exact wp_door_createBuildInfra

/-- A node that is reattached records nothing. -/
theorem makes_realize_silent {n : Node} (hre : P.reattach n.name = true) :
    Makes silent (realize P n) := by
  have hmemory : ∀ f : Ctx → Ctx, Makes silent (sysOp (.updateCtx f)) := fun f =>
    makes_sysOp ⟨by rintro ⟨⟩, rfl⟩
  have hwork : Makes silent (sysOp .work) := makes_sysOp ⟨by rintro ⟨⟩, rfl⟩
  cases n with
  | pool pool =>
    rw [realize, if_pos hre]
    exact hmemory _
  | network sw =>
    rw [realize, if_pos hre]
    exact hmemory _
  | sidecar sw =>
    rw [realize, if_pos hre]
    exact .seq (hmemory _) fun _ => hwork
  | vm v deps =>
    rw [realize, hre]
    exact .seq trivial fun _ => hwork

theorem makes_realize_indoors {n : Node} (hre : P.reattach n.name = false) :
    Makes indoors (realize P n) := by
  have hwork : Makes indoors (sysOp .work) := makes_indoors (by rintro ⟨⟩)
  have hneg : ¬ P.reattach n.name = true := by simp [hre]
  cases n with
  | pool pool =>
    rw [realize, if_neg hneg]
    exact .seq (makes_tracked (makes_indoors (by rintro ⟨⟩))) fun _ =>
      makes_indoors (by rintro ⟨⟩)
  | network sw =>
    rw [realize, if_neg hneg]
    exact makes_provisionSwitch
  | sidecar sw =>
    rw [realize, if_neg hneg]
    exact .seq makes_materializeSidecarFor fun _ => hwork
  | vm v deps => exact .seq (makes_onlyIf makes_bringUpVm) fun _ => hwork

/-- **Every hook keeps to its rule of the door.** -/
theorem wp_door_hooks (i : Item) :
    (hooks P i.1 i.2).wp (doorLogic i.1.builds (P.records i)) (fun _ _ => True) (fun _ _ => True) false := by
  have hsilent : ∀ {p : Hook Unit}, Makes silent p →
      p.wp (doorLogic i.1.builds (P.records i)) (fun _ _ => True) (fun _ _ => True) false := fun hp =>
    Prog.wp_mono (fun _ _ _ => trivial) (fun _ _ _ => trivial) (wp_silent hp)
  obtain ⟨walk, n⟩ := i
  cases walk with
  | materialize =>
    cases n with
    | vm v deps =>
      show (if (P.probe v).cached = true then setBuilt v.name (artifactRoles v)
        else (ensureBuildInfra P >>= fun built =>
          buildOneVm P.toRunConfig v (P.probe v) built.1 built.2)).wp _ _ _ _
      split_ifs with hcached
      · exact hsilent (makes_sysOp ⟨by rintro ⟨⟩, rfl⟩)
      · have hrecords : P.records (.materialize, .vm v deps) = true := by
          simp [Process.records, hcached]
        rw [hrecords]
        refine Prog.wp_seq wp_door_ensureBuildInfra ?_
        rintro built - rfl
        exact Prog.wp_mono (fun _ _ _ => trivial) (fun _ _ _ => trivial)
          (wp_indoors makes_buildOneVm)
    | _ => trivial
  | realize =>
    show (realize P n).wp _ _ _ _
    cases hre : P.reattach n.name with
    | true => exact hsilent (makes_realize_silent hre)
    | false =>
      have hrecords : P.records (.realize, n) = true := by simp [Process.records, hre]
      rw [hrecords]
      exact Prog.wp_mono (fun _ _ _ => trivial) (fun _ _ _ => trivial)
        (wp_indoors (makes_realize_indoors hre))

/-- A worker keeps to the rule of its hook. -/
theorem wp_door_onInner {p : Hook Unit} {door : Bool}
    (hp : p.wp (doorLogic builds records) (fun _ _ => True) (fun _ _ => True) door) :
    (onInner p).wp (taskDoor builds records) (fun _ _ => True) (fun _ _ => True) door := by
  induction p generalizing door with
  | ret a => trivial
  | raise e => trivial
  | call o k ih => exact ⟨hp.1, fun r door' hn => ih r (hp.2 r door' hn)⟩

theorem wp_door_worker (jobs : Option ℤ) (i : Item) :
    ((machine P jobs).fn i).wp (taskDoor i.1.builds (P.records i)) (fun _ _ => True) (fun _ _ => True)
      false := by
  refine Prog.wp_seq (wp_door_onInner (wp_door_hooks i)) fun _ door _ => ?_
  have houter : ∀ {o : RunOp SysOp} {door : Bool}, (∀ x, o ≠ .inner x) →
      (runOp (S := sysSig) o : Prog (runSig sysSig) Err _).wp (taskDoor i.1.builds (P.records i))
        (fun _ _ => True) (fun _ _ => True) door := by
    intro o door ho
    refine Prog.wp_perform.mpr ⟨?_, fun _ _ _ => trivial, fun _ _ _ => trivial⟩
    cases o with
    | inner x => exact absurd rfl (ho x)
    | _ => trivial
  exact Prog.wp_seq (houter (by rintro x ⟨⟩)) fun _ door _ => houter (by rintro x ⟨⟩)

theorem doorLogic_next (o : SysOp) (door : Bool) (r : Except Err (sysSig.Res o)) :
    ∃ door', (doorLogic builds records).next o door r door' := by
  cases o <;> exact ⟨_, rfl⟩

theorem taskDoor_next (o : RunOp SysOp) (door : Bool) (r : Except Err ((runSig sysSig).Res o)) :
    ∃ door', (taskDoor builds records).next o door r door' := by
  cases o with
  | inner o => exact @doorLogic_next builds records o door r
  | _ => exact ⟨door, rfl⟩

end Doors

/-! ### What a worker finds listed -/

/-- What is listed of a hook's own it has recorded, if it records at all; what is listed of
the build infrastructure is recorded by whoever makes it. -/
structure Fresh (P : Process) (R : RunConfig) (es : List Entry) (i : Item) (l : Local)
    (door : Bool) : Prop where
  own : P.records i = true → ∀ e ∈ ownEntries i, e ∈ es → e ∈ l.own
  locked : l.sect = .locked → door = true
  made : ∀ made, l.sect = .creating made →
    door = true ∧ made = [] ∨ ∀ e ∈ R.infra, e ∈ es → e ∈ made

section Steps

variable {P : Process} {R : RunConfig} {es es' : List Entry} {i j : Item} {l l' : Local}
  {door door' : Bool} {o : SysOp} {r : Except Err (sysSig.Res o)}

theorem not_mem_of_append_sublist {α : Type} {xs ys : List α} {x : α}
    (h : (xs ++ [x]).Sublist ys) (hnodup : ys.Nodup) : x ∉ xs := by
  intro hx
  exact (List.nodup_append.mp (h.nodup hnodup)).2.2 x hx x (List.mem_singleton_self x) rfl

/-- What is recorded is not listed yet. -/
theorem Fresh.unlisted (h : R.Distinct) (hi : i ∈ R.items) (hf : Fresh P R es i l door)
    {kind n : String} {planName : Option String} {metadata : Dict} {e : Entry}
    (hcan : l.CanRecord R i e)
    (hdoor : (doorLogic i.1.builds (P.records i)).ok (.recordIntent kind n planName metadata) door)
    (hafresh : kind = "build_pool" → ∀ e ∈ R.infra, e ∉ es) : e ∉ es := by
  intro hmem
  have hroom := hcan.room
  have hplaced := hcan.placed
  cases hsect : l.sect with
  | free =>
    simp only [Local.made, Local.room, hsect] at hroom
    have hown : e ∈ ownEntries i := hroom.subset (by simp)
    exact not_mem_of_append_sublist hroom (h.nodup_own hi) (hf.own hdoor.1 e hown hmem)
  | creating made =>
    simp only [Local.made, Local.room, hsect] at hroom
    have hinfra : e ∈ R.infra := hroom.subset (by simp)
    rcases hf.made made hsect with ⟨hshut, -⟩ | hall
    · exact hafresh (hdoor.2 hshut) e hinfra hmem
    · exact not_mem_of_append_sublist hroom h.nodup_infra (hall e hinfra hmem)
  | locked => simp [Local.Placed, hsect] at hplaced
  | up => simp [Local.Placed, hsect] at hplaced

/-- An entry that a call records is the one the hook may record. -/
theorem LedgerStep.entry (h : R.Distinct) (hi : i ∈ R.items)
    (hok : (sysLogic R (some i)).ok o l) {kind n : String} {planName : Option String}
    {metadata : Dict} {e : Entry} (ho : o = .recordIntent kind n planName metadata)
    (he : e.Names R kind n metadata) (hmem : e ∈ R.catalog) : l.CanRecord R i e := by
  subst ho
  obtain ⟨i', e', hi', hnames, hcan⟩ := hok
  cases hi'
  have heq : e' = e := h.name_inj (Local.room_subset hi hcan.mem) hmem
    (hnames.name.symm.trans he.name)
  subst heq
  exact hcan

/-- A call lists nothing twice. -/
theorem Fresh.nodup_step (h : R.Distinct) (hi : i ∈ R.items) (hf : Fresh P R es i l door)
    (hok : (sysLogic R (some i)).ok o l) (hdoor : (doorLogic i.1.builds (P.records i)).ok o door)
    (hafresh : ∀ n planName metadata, o = .recordIntent "build_pool" n planName metadata →
      ∀ e ∈ R.infra, e ∉ es)
    (hstep : LedgerStep R o r es es') (hnodup : es.Nodup) : es'.Nodup := by
  cases hstep with
  | same heq =>
    rw [heq]
    exact hnodup
  | @record kind n planName metadata e ho he hmem heq =>
    have hcan := LedgerStep.entry h hi hok ho he hmem
    subst ho
    have hnew : e ∉ es := by
      refine hf.unlisted h hi hcan hdoor ?_
      rintro rfl
      exact hafresh n planName metadata rfl
    rw [heq]
    refine List.nodup_append.mpr ⟨hnodup, List.nodup_singleton e, ?_⟩
    rintro x hx y hy rfl
    rw [List.mem_singleton.mp hy] at hx
    exact hnew hx
  | forget ho heq =>
    rw [heq]
    exact hnodup.filter _

/-- What is listed after a call was listed before, or is what it records. -/
theorem LedgerStep.mem (hstep : LedgerStep R o r es es') {e : Entry} (he : e ∈ es') :
    e ∈ es ∨ ∃ kind n planName metadata, o = .recordIntent kind n planName metadata ∧
      e.Names R kind n metadata ∧ e ∈ R.catalog := by
  cases hstep with
  | same heq => exact .inl (heq ▸ he)
  | @record kind n planName metadata e' ho he' hmem heq =>
    rw [heq] at he
    rcases List.mem_append.mp he with he | he
    · exact .inl he
    · rw [List.mem_singleton.mp he]
      exact .inr ⟨kind, n, planName, metadata, ho, he', hmem⟩
  | forget ho heq =>
    rw [heq] at he
    exact .inl (List.mem_filter.mp he).1

/-- A call that is no intent, and after which the hook is where it was. -/
theorem Fresh.keep (hf : Fresh P R es i l door) (hown : l'.own = l.own) (hsect : l'.sect = l.sect)
    (hdoor : door' = door) (hsub : ∀ e ∈ es', e ∈ es) : Fresh P R es' i l' door' where
  own := by
    rw [hown]
    exact fun hrec e he hmem => hf.own hrec e he (hsub e hmem)
  locked := by
    rw [hsect, hdoor]
    exact hf.locked
  made := by
    intro made hmade
    rw [hsect] at hmade
    rw [hdoor]
    exact (hf.made made hmade).imp_right fun hall e he hmem => hall e he (hsub e hmem)

/-- A call that is no intent, and after which nothing is known of the infrastructure. -/
theorem Fresh.leave (hf : Fresh P R es i l door) (hown : l'.own = l.own)
    (hlocked : l'.sect = .locked → door' = true) (hmade : ∀ made, l'.sect ≠ .creating made)
    (hsub : ∀ e ∈ es', e ∈ es) : Fresh P R es' i l' door' where
  own := by
    rw [hown]
    exact fun hrec e he hmem => hf.own hrec e he (hsub e hmem)
  locked := hlocked
  made := fun made h => absurd h (hmade made)

/-- What a hook finds listed after its own call. -/
theorem Fresh.step (h : R.Distinct) (ht : Thread R es i l) (hf : Fresh P R es i l door)
    (hok : (sysLogic R (some i)).ok o l) (hdoor : (doorLogic i.1.builds (P.records i)).ok o door)
    (hafresh : ∀ n planName metadata, o = .recordIntent "build_pool" n planName metadata →
      ∀ e ∈ R.infra, e ∉ es)
    (hnext : (sysLogic R (some i)).next o l r l')
    (hnextDoor : (doorLogic i.1.builds (P.records i)).next o door r door')
    (hstep : LedgerStep R o r es es') : Fresh P R es' i l' door' := by
  have hsub : o.isIntent = false → ∀ e ∈ es', e ∈ es := by
    intro hintent e he
    rcases hstep.mem he with he | ⟨kind, n, planName, metadata, rfl, -⟩
    · exact he
    · cases hintent
  cases o with
  | recordIntent kind n planName metadata =>
    obtain ⟨i', e, hi', hnames, hcan, rfl⟩ := hnext
    cases hi'
    cases hnextDoor
    have hroom := hcan.room
    have hplaced := hcan.placed
    -- Only the entry itself is new.
    have hmem : ∀ x ∈ es', x ∈ es ∨ x = e := by
      intro x hx
      rcases hstep.mem hx with hx | ⟨kind', n', planName', metadata', ho, hx', hcat⟩
      · exact .inl hx
      · cases ho
        exact .inr (h.name_inj hcat (Local.room_subset ht.item hcan.mem)
          (hx'.name.symm.trans hnames.name))
    obtain ⟨own, last, gone, sect, ready⟩ := l
    cases sect with
    | free =>
      refine ⟨fun hrec x hx hes => ?_, (by rintro ⟨⟩), by rintro made ⟨⟩⟩
      rcases hmem x hes with hes | rfl
      · exact List.mem_append_left _ (hf.own hrec x hx hes)
      · exact List.mem_append_right _ (List.mem_singleton_self x)
    | creating made =>
      refine ⟨fun hrec x hx hes => ?_, (by rintro ⟨⟩), ?_⟩
      · rcases hmem x hes with hes | rfl
        · exact hf.own hrec x hx hes
        · exact absurd hx (h.not_own_of_infra ht.item (hroom.subset (by simp [Local.made])))
      · rintro - ⟨⟩
        refine .inr fun x hx hes => ?_
        rcases hmem x hes with hes | rfl
        · rcases hf.made made rfl with ⟨hshut, -⟩ | hall
          -- The first intent behind the door.
          · obtain rfl := hdoor.2 hshut
            exact absurd hes (hafresh n planName metadata rfl x hx)
          · exact List.mem_append_left _ (hall x hx hes)
        · exact List.mem_append_right _ (List.mem_singleton_self x)
    | locked => exact hplaced.elim
    | up => exact hplaced.elim
  | readCtx =>
    obtain ⟨c, -, -, rfl⟩ := hnext
    have hsub' := hsub rfl
    cases hnextDoor
    obtain ⟨own, last, gone, sect, ready⟩ := l
    cases sect with
    | locked =>
      have hshut := hf.locked rfl
      refine ⟨?_, fun _ => hshut, ?_⟩
      · exact fun hrec x hx hes => hf.own hrec x hx (hsub' x hes)
      · intro made hmade
        simp only [Local.read] at hmade
        split_ifs at hmade
        cases hmade
        exact .inl ⟨hshut, rfl⟩
    | _ => exact hf.keep rfl rfl rfl hsub'
  | setInfra infra =>
    obtain ⟨-, rfl⟩ := hnext
    exact hf.leave rfl (by rintro ⟨⟩) (by rintro made ⟨⟩) (hsub rfl)
  | acquireInfraLock =>
    obtain ⟨-, rfl⟩ := hnext
    exact hf.leave rfl (fun _ => hnextDoor) (by rintro made ⟨⟩) (hsub rfl)
  | releaseInfraLock =>
    obtain ⟨-, rfl⟩ := hnext
    have hsub' := hsub rfl
    obtain ⟨own, last, gone, sect, ready⟩ := l
    cases sect <;> exact hf.leave rfl (by rintro ⟨⟩) (by rintro made ⟨⟩) hsub'
  | createSwitch =>
    rw [hnext.1]
    exact hf.keep rfl rfl hnextDoor (hsub rfl)
  | updateCtx =>
    rw [hnext.2]
    exact hf.keep rfl rfl hnextDoor (hsub rfl)
  | _ =>
    rw [show l' = _ from hnext]
    exact hf.keep rfl rfl hnextDoor (hsub rfl)

/-- What another hook finds listed: each records its own, and one at a time the build
infrastructure. -/
theorem Fresh.other {lj : Local} (h : R.Distinct) (hji : j ≠ i) (ht : Thread R es i l)
    (hj : j ∈ R.items) (hf : Fresh P R es j lj door)
    (halone : lj.sect.held = true → l.sect.held = false)
    (hok : (sysLogic R (some i)).ok o l) (hstep : LedgerStep R o r es es') :
    Fresh P R es' j lj door := by
  -- What is new belongs to the hook that records it, or it holds the lock.
  have hnew : ∀ e ∈ es', e ∉ es → (e ∈ ownEntries i ∨ e ∈ R.infra ∧ l.sect.held = true) := by
    intro e he hne
    rcases hstep.mem he with he | ⟨kind, n, planName, metadata, ho, hnames, hcat⟩
    · exact absurd he hne
    · have hmem := (LedgerStep.entry h ht.item hok ho hnames hcat).mem
      cases hsect : l.sect with
      | creating made => exact .inr ⟨by simpa [Local.room, hsect] using hmem, rfl⟩
      | _ => exact .inl (by simpa [Local.room, hsect] using hmem)
  refine ⟨fun hrec e he hes => ?_, hf.locked, fun made hmade => ?_⟩
  · by_cases hold : e ∈ es
    · exact hf.own hrec e he hold
    · rcases hnew e hes hold with hown | ⟨hinfra, -⟩
      · exact absurd (h.owner_unique hj ht.item he hown) hji
      · exact absurd he (h.not_own_of_infra hj hinfra)
  · refine (hf.made made hmade).imp_right fun hall e he hes => ?_
    by_cases hold : e ∈ es
    · exact hall e he hold
    · rcases hnew e hes hold with hown | ⟨-, hheld⟩
      · exact absurd hown (h.not_own_of_infra ht.item he)
      · have hnot := halone (by rw [hmade]; rfl)
        rw [hheld] at hnot
        cases hnot

end Steps

/-! ### The invariant -/

/-- What is known of the workers, with the door of each. -/
abbrev Watched := Item → Ghost (Local × Bool) Err

/-- Nothing is listed twice. -/
structure Listed (P : Process) (R : RunConfig) (w : World Sys) (ts : Watched) : Prop where
  nodup : (R.recorded w).Nodup
  fresh : ∀ i l door, ts i = .active (l, door) → Fresh P R (R.recorded w) i l door

section Keeping

variable {P : Process} {R : RunConfig} {w w' : World Sys} {m : MainLocal} {ts : Watched}
  {items : List Item} {i : Item} {l l' : Local} {door door' : Bool}

/-- What is known of the workers, without their doors. -/
def Watched.workers (ts : Watched) : Workers := fun i => (ts i).map Prod.fst

theorem Watched.workers_active (h : ts i = .active (l, door)) : ts.workers i = .active l := by
  rw [workers, h]
  rfl

theorem unlisted_recorded (h : R.Distinct) {es : List Entry} (hes : Unlisted R es w) :
    ∀ e ∈ es, e ∉ R.recorded w := by
  intro e he hmem
  obtain ⟨-, r, hr, hname⟩ := (RunConfig.mem_recorded h).mp hmem
  exact hes e he r hr hname

/-- A call of the main thread, which records nothing. -/
theorem Listed.main_op (h : R.Distinct) {o : RunOp SysOp}
    {r : Except Err ((runSig sysSig).Res o)} (hl : Listed P R w ts)
    (hquiet : ∀ i x, ts i ≠ .active x) (hok : (mainLogic R).ok (.inl o) m)
    (hsem : runSem (sysInner R.driver) o w r w') : Listed P R w' ts := by
  have hnodup : (R.recorded w').Nodup → Listed P R w' ts := fun hnodup =>
    ⟨hnodup, fun i l door hact => absurd hact (hquiet i _)⟩
  by_cases ho : ∀ x, o ≠ .inner x
  · apply hnodup
    obtain ⟨-, hres | ⟨-, hledger⟩⟩ := runSem_step hsem ho
    · rw [RunConfig.recorded, hres]
      exact hl.nodup
    · rw [RunConfig.recorded, World.resources, hledger]
      exact List.nodup_nil
  · obtain ⟨x, rfl⟩ := not_forall_not.mp ho
    apply hnodup
    have hrole : Role R none := by rintro i ⟨⟩
    have hstep := recorded_step h hrole hok hsem
    cases hstep with
    | same heq =>
      rw [heq]
      exact hl.nodup
    | record hx =>
      subst hx
      obtain ⟨i, e, hi, -⟩ := hok
      cases hi
    | forget hx heq =>
      rw [heq]
      exact hl.nodup.filter _

/-- The invariant, with one worker moved. -/
theorem Listed.update {g : Ghost (Local × Bool) Err} (hnodup : (R.recorded w').Nodup)
    (hself : ∀ l door, g = .active (l, door) → Fresh P R (R.recorded w') i l door)
    (hothers : ∀ j l door, j ≠ i → ts j = .active (l, door) → Fresh P R (R.recorded w') j l door) :
    Listed P R w' (Function.update ts i g) where
  nodup := hnodup
  fresh := by
    intro j l door hj
    by_cases hji : j = i
    · subst hji
      rw [Function.update_self] at hj
      exact hself l door hj
    · rw [Function.update_of_ne hji] at hj
      exact hothers j l door hji hj

/-- A call of a hook. -/
theorem Listed.task_inner (h : R.Distinct) {o : SysOp} {r : Except Err (sysSig.Res o)}
    (hk : Kept R w m (some items) ts.workers) (hl : Listed P R w ts)
    (hact : ts i = .active (l, door)) (hok : (sysLogic R (some i)).ok o l)
    (hdoor : (doorLogic i.1.builds (P.records i)).ok o door) (hsem : sysSem R.driver o w r w')
    (hafresh : BuildsAfresh R (.inner o) w r) (hnext : (sysLogic R (some i)).next o l r l')
    (hnextDoor : (doorLogic i.1.builds (P.records i)).next o door r door') :
    Listed P R w' (Function.update ts i (.active (l', door'))) := by
  have hacti : ts.workers i = .active l := Watched.workers_active hact
  have ht := hk.thread i l hacti
  have hf := hl.fresh i l door hact
  have hrole : Role R (some i) := by
    rintro j ⟨⟩
    exact ht.item
  have hstep := recorded_step h hrole hok hsem
  have hbegin : ∀ n planName metadata, o = .recordIntent "build_pool" n planName metadata →
      ∀ e ∈ R.infra, e ∉ R.recorded w := by
    rintro n planName metadata rfl
    exact unlisted_recorded h (hafresh rfl)
  refine Listed.update (hf.nodup_step h ht.item hok hdoor hbegin hstep hl.nodup) ?_ ?_
  · rintro l₁ door₁ ⟨⟩
    exact hf.step h ht hok hdoor hbegin hnext hnextDoor hstep
  · intro j lj doorj hji hj
    have hactj : ts.workers j = .active lj := Watched.workers_active hj
    refine (hl.fresh j lj doorj hj).other h hji ht (hk.thread j lj hactj).item ?_ hok hstep
    intro hheld
    by_contra hheld'
    rw [Bool.not_eq_false] at hheld'
    exact hji (hk.alone j i lj l hactj hacti hheld hheld')

/-- A call of a worker that is not one of the hook's. -/
theorem Listed.task_outer {o : RunOp SysOp} {r : Except Err ((runSig sysSig).Res o)}
    (hl : Listed P R w ts) (hact : ts i = .active (l, door)) (ho : ∀ x, o ≠ .inner x)
    (hok : (taskLogic R i).ok o l) (hsem : runSem (sysInner R.driver) o w r w') :
    Listed P R w' (Function.update ts i (.active (l, door))) := by
  rw [Discipline.update_eq_self_of_eq hact]
  obtain ⟨-, hres | ⟨rfl, -⟩⟩ := runSem_step hsem ho
  · have hrecorded : R.recorded w' = R.recorded w := by
      rw [RunConfig.recorded, hres, RunConfig.recorded]
    exact ⟨hrecorded ▸ hl.nodup, hrecorded ▸ hl.fresh⟩
  · exact hok.elim

end Keeping

/-- The processes whose hooks follow the rule of the door as well. -/
def watchedDiscipline {R : RunConfig} (h : R.Distinct) {P : Process} (hP : P.toRunConfig = R)
    (jobs : Option ℤ)
    (allow : (o : RunOp SysOp) → World Sys → Except Err ((runSig sysSig).Res o) → Prop)
    (startOk : Item → World Sys → Prop) :
    Discipline (restricted P jobs allow startOk) MainLocal (Local × Bool) :=
  (keptDiscipline h hP jobs allow startOk).watch
    (fun i => taskDoor i.1.builds (P.records i)) (fun _ => false) (fun i => @taskDoor_next i.1.builds (P.records i))
    fun i _ _ => wp_door_worker jobs i

/-- The invariant is kept on top of the one of every process. -/
def listedExtra {R : RunConfig} (h : R.Distinct) {P : Process} (hP : P.toRunConfig = R)
    (jobs : Option ℤ) :
    (watchedDiscipline h hP jobs (BuildsAfresh R) (StartsAfresh P)).Extra where
  Inv := fun w _ _ _ ts => Listed P R w ts
  main_op := by
    subst hP
    intro w log m ts o r w' m' hk hl hquiet hok hsem hnext
    exact hl.main_op h hquiet hok hsem.1
  fork := fun _ hl _ => hl
  start := by
    subst hP
    intro w log m ts items i hk hl hi hidle hstart
    refine Listed.update hl.nodup ?_ fun j l door _ hj => hl.fresh j l door hj
    rintro l door ⟨⟩
    refine ⟨fun hrec e he hmem => ?_, (by rintro ⟨⟩), by rintro made ⟨⟩⟩
    exact absurd hmem (unlisted_recorded h (hstart.2 hrec) e he)
  task_op := by
    subst hP
    rintro w log m ts items i ⟨l, door⟩ o r w' ⟨l', door'⟩ hk hl hi hact hok hsem hnext
    cases o with
    | inner o => exact hl.task_inner h hk hact hok.1 hok.2 hsem.1 hsem.2 hnext.1 hnext.2
    | returned walk node =>
      obtain ⟨rfl, rfl⟩ : l' = l ∧ door' = door := hnext
      exact hl.task_outer (o := .returned walk node) hact (by rintro x ⟨⟩) hok.1 hsem.1
    | mark walk node =>
      obtain ⟨rfl, rfl⟩ : l' = l ∧ door' = door := hnext
      exact hl.task_outer (o := .mark walk node) hact (by rintro x ⟨⟩) hok.1 hsem.1
    | _ => exact hok.1.elim
  finish := by
    intro w log m ts items i l r hk hl hi hact hret hexc
    exact Listed.update hl.nodup (by rintro l door ⟨⟩) fun j l door _ hj => hl.fresh j l door hj
  tick := fun _ hl => hl
  join := fun _ hl _ _ _ _ => hl

/-! ### Histories -/

/-- A process of the run boots; whoever records in it finds nothing of its own. -/
def AfreshBoots (R : RunConfig) (w : World Sys)
    (b : Boot (runSig sysSig) Item Err (World Sys) Unit) : Prop :=
  ∃ P jobs cmd w₀, Boots R w P jobs cmd w₀ ∧
    b = ⟨restricted P jobs (BuildsAfresh R) (StartsAfresh P), w₀, cmd.main P⟩

/-- The histories whose steps all meet the condition. -/
abbrev AfreshHistory (R : RunConfig) := History Untouched (AfreshBoots R)

/-- What holds between processes. -/
structure ListedOnce (R : RunConfig) (w : World Sys) : Prop where
  fits : ReadsEntries R w.resources
  nodup : (R.recorded w).Nodup

theorem listedOnce_of_run {R : RunConfig} (h : R.Distinct) {w : World Sys}
    {b : Boot (runSig sysSig) Item Err (World Sys) Unit} (hw : ListedOnce R w)
    (hb : AfreshBoots R w b) {c : Proc (runSig sysSig) Item Err (World Sys) Unit}
    (hrun : b.machine.Run b.world b.main c) : ListedOnce R c.world := by
  obtain ⟨P, jobs, cmd, w₀, hboots, rfl⟩ := hb
  obtain ⟨hP, hres, -, hctx⟩ := hboots.world
  have hfits₀ : ReadsEntries R w₀.resources := by
    rw [hres]
    exact hw.fits
  have hnodup₀ : (R.recorded w₀).Nodup := by
    rw [RunConfig.recorded, hres]
    exact hw.nodup
  let D := (watchedDiscipline h hP jobs (BuildsAfresh R) (StartsAfresh P)).and
    (listedExtra h hP jobs)
  have hinv : D.Inv w₀ [] .boot none fun _ => .idle :=
    ⟨Kept.boot hfits₀ hctx, hnodup₀, by rintro i l door ⟨⟩⟩
  obtain ⟨m, ts, hholds⟩ := D.run (Q := Anyhow) (E := Anyhow) hinv
    (wp_command hP h cmd past_boot) hrun
  have hend : Kept R c.world m _ (Watched.workers ts) ∧ Listed P R c.world ts := hholds.inv
  exact ⟨hend.1.fits, hend.2.nodup⟩

/-- A resource of the run is told by its name. -/
theorem nodup_names {R : RunConfig} (h : R.Distinct) {w : World Sys} (hw : ListedOnce R w) :
    (w.resources.map (·.backendName)).Nodup := by
  have hnodup := hw.nodup
  have hfits := hw.fits
  rw [RunConfig.recorded, RunConfig.entriesNamed] at hnodup
  generalize w.resources = rs at hnodup hfits
  induction rs with
  | nil => exact List.nodup_nil
  | cons r rs ih =>
    obtain ⟨e, he, hr⟩ := hfits r List.mem_cons_self
    have hnamed : R.entryNamed r.backendName = some e :=
      (RunConfig.entryNamed_eq_some h).mpr ⟨he, hr.name.symm⟩
    rw [List.map_cons, List.filterMap_cons_some hnamed] at hnodup
    obtain ⟨hnot, hrest⟩ := List.nodup_cons.mp hnodup
    refine List.nodup_cons.mpr ⟨fun hmem => hnot ?_,
      ih hrest fun x hx => hfits x (List.mem_cons_of_mem r hx)⟩
    exact List.mem_filterMap.mpr ⟨_, hmem, hnamed⟩

/-- **A backend name is listed once**: for every run whose composed names are pairwise distinct,
in every history of its processes in which no hook that records starts while something of its
own is listed, and the build infrastructure is not begun while something of it is. -/
theorem ledger_names_unique {R : RunConfig} (h : R.Distinct)
    {b : Boot (runSig sysSig) Item Err (World Sys) Unit}
    {c : Proc (runSig sysSig) Item Err (World Sys) Unit} (hist : AfreshHistory R b c) :
    ∀ s, c.world.ledger = some s → (s.resources.map (·.backendName)).Nodup := by
  have hinit : ∀ w, Untouched w → ListedOnce R w := by
    rintro w ⟨hledger, -⟩
    refine ⟨?_, ?_⟩
    · rw [World.resources, hledger]
      exact by rintro r ⟨⟩
    · rw [RunConfig.recorded, World.resources, hledger]
      exact List.nodup_nil
  obtain ⟨hlisted, -⟩ := History.invariant (I := ListedOnce R) hinit
    (fun w b hw hb c hrun => listedOnce_of_run h hw hb hrun) hist
  intro s hs
  have hnames := nodup_names h hlisted
  rwa [World.resources, hs] at hnames

/-! ### A run with one pool -/

namespace PoolRun

theorem permits_afresh : Permits (BuildsAfresh run) where
  inner := by
    intro o ho w r
    cases o with
    | recordIntent kind n planName metadata =>
      rintro rfl
      exact absurd rfl (ho n planName metadata)
    | _ => trivial
  outer := by
    intro o w r ho _
    cases o with
    | inner x => exact absurd rfl (ho x)
    | _ => trivial

theorem starts_afresh (i : Item) {w : World Sys} (hw : w.resources = []) :
    StartsAfresh process i w := by
  intro _ e _ r hr
  rw [hw] at hr
  cases hr

/-- A range that is left running: its pool is listed once. -/
theorem listed_once_leaked : ∃ b c, AfreshHistory run b c ∧ ∃ s, c.world.ledger = some s ∧
    (∃ r ∈ s.resources, r.backendName = backend) ∧ (s.resources.map (·.backendName)).Nodup := by
  obtain ⟨s, rest, hs, -, hmain⟩ := ends_leaked permits_afresh (s := created) rfl before.rest
    (fun i _ hw => starts_afresh i hw) rfl rfl
  obtain ⟨log, hrun⟩ := Machine.Run.of_ends hmain .boot
  have hboots : AfreshBoots run before ⟨restricted process (some 1) (BuildsAfresh run)
      (StartsAfresh process), ⟨some created, before.rest⟩,
      Command.main process (.run false true)⟩ :=
    ⟨process, some 1, _, _, .fresh (R := run) (P := process) (w := before) rfl (some 1)
      (show Command.run false true ≠ .cleanup by simp) rfl (fun _ => rfl) "LibvirtDriver"
      "qemu:///system" "", rfl⟩
  have hist : AfreshHistory run _ _ := History.first_run ⟨rfl, rfl⟩ hboots hrun
  exact ⟨_, _, hist, s, rfl, ⟨_, by rw [hs]; exact List.mem_singleton_self _, rfl⟩,
    ledger_names_unique distinct hist s rfl⟩

/-- The pool is recorded, and creating it raises. -/
theorem ends_realize_refused (s : State) (rest : Sys) :
    Prog.Ends (sysSem run.driver) (realize process (.pool pool)) ⟨some s, rest⟩
      (.error (.call false)) ⟨some (s.withResource (intent "")), rest⟩ := by
  refine .bind_raise (.bind (.perform (r := .ok ())
    ⟨(by rintro e ⟨⟩), .inl ⟨trivial, s, "", _, rfl, rfl, rfl⟩⟩) (.bind_raise (.perform ?_)))
  refine ⟨fun e he => ⟨false, by cases he; rfl⟩, .inr ⟨?_, rfl⟩⟩
  simp [Effective, Err.late]

/-- A process whose pool is refused has recorded it, stamped nothing realized and goes on to its
teardown. -/
theorem ends_refused (s : State) (rest : Sys) (hlock : rest.infraLock = false)
    (hdown : rest.ctx.buildInfra.active = false) :
    ∃ s', s'.resources = s.resources ++ [intent ""] ∧
      (∀ n, s'.Stamped .realize n → s.Stamped .realize n) ∧
      Prog.Ends (M fun _ _ _ => True).bigSem (bringUp process false) ⟨some s, rest⟩
        (.error (.call false)) ⟨some s', rest⟩ := by
  have hallow : Permits fun _ _ _ => True := ⟨fun _ _ _ _ => trivial, fun _ _ _ _ _ => trivial⟩
  obtain ⟨s₁, hs₁, hstamped, hbuild⟩ := ends_buildWalk hallow s rest (fun _ _ _ => trivial) hlock
    hdown
  let s₂ := { s₁ with phase := Phase.run.name }
  have hwalk : Prog.Ends (M fun _ _ _ => True).bigSem (walkWaves .realize run.plan.graph.waves)
      ⟨some s₂, rest⟩ (.error (.call false)) ⟨some (s₂.withResource (intent "")), rest⟩ := by
    rw [waves]
    refine .bind_raise (Machine.ends_fork rfl (by simp [waveItems]) (.raise ⟨trivial, trivial⟩ ?_))
    exact ends_runHook_raise makes_realize hallow.inner (ends_realize_refused s₂ rest)
  refine ⟨s₂.withResource (intent ""), ?_, hstamped, ?_⟩
  · show s₁.resources ++ [intent ""] = _
    rw [hs₁]
  · exact .bind (.ret _ _) (.bind hbuild
      (.bind (Machine.ends_lift (ends_setPhase hallow .run s₁ _)) hwalk))

/-- The pool is refused and the process killed; the run is resumed, and records the pool again. -/
theorem pool_listed_twice : run.Distinct ∧
    ∃ b c, RunHistory run (fun _ _ _ => True) (fun _ _ => True) b c ∧
      ∃ s, c.world.ledger = some s ∧ ¬ (s.resources.map (·.backendName)).Nodup := by
  refine ⟨distinct, ?_⟩
  obtain ⟨s₁, hs₁, hstamped, hfirst⟩ := ends_refused created before.rest rfl rfl
  have hboot : ∀ w, (M fun _ _ _ => True).Run w (Command.main process (.run false false))
      (Machine.booted w (Command.main process (.run false false))) := fun _ => .boot
  obtain ⟨log₁, hrun₁⟩ := Machine.Run.of_ends_bind hfirst.attempt (hboot _)
  have hist₁ : RunHistory run (fun _ _ _ => True) (fun _ _ => True) _ _ :=
    History.first_run ⟨rfl, rfl⟩ (boots (.run false false) (by simp) fun _ _ _ => True) hrun₁
  obtain ⟨s₂, hs₂, -, hagain⟩ := ends_refused s₁ before.rest.restart rfl rfl
  obtain ⟨log₂, hrun₂⟩ := Machine.Run.of_ends_bind hagain.attempt (hboot _)
  have hreopen : Boots run ⟨some s₁, before.rest⟩ process (some 1) (.run false false)
      ⟨some s₁, before.rest.restart⟩ := by
    refine .reopen (P := process) rfl (some 1) (by simp) rfl fun n => ?_
    refine ⟨by rintro ⟨⟩, fun hs => ?_⟩
    have hnone := hstamped n hs
    simp [State.Stamped, created, State.initial, State.nodeRecord] at hnone
  have hist₂ := hist₁.then_run ⟨process, some 1, _, _, hreopen, rfl⟩ hrun₂
  refine ⟨_, _, hist₂, s₂, rfl, ?_⟩
  rw [hs₂, hs₁]
  decide

end PoolRun

end TestRange
