/-
The ledger of a run, and the invariant every run of a process keeps.

What `state.json` lists are entries of the run; seen as a list of entries, a call
appends one, drops one or leaves the list alone.

* `RunConfig.recorded` — the ledger, as a list of entries;
* `recorded_step` — what a call may do to it;
* `Kept` — the invariant: what is recorded fits, the dictionaries are sound, and what
  the threads know is so;
* `keptDiscipline` — every process keeps it.
-/
import TestRange.Orchestrator.Mains

namespace TestRange

/-- What `state.json` lists. -/
def World.resources (w : World Sys) : List Resource := w.ledger.elim [] State.resources

namespace RunConfig

variable (R : RunConfig)

/-- The entry that has a name. -/
def entryNamed (n : String) : Option Entry := R.catalog.find? fun e => e.name R = n

/-- The entries of a list of names. -/
def entriesNamed (ns : List String) : List Entry := ns.filterMap R.entryNamed

/-- The ledger, as a list of entries. -/
def recorded (w : World Sys) : List Entry := R.entriesNamed (w.resources.map (·.backendName))

variable {R}

theorem entryNamed_eq_some (h : R.Distinct) {n : String} {e : Entry} :
    R.entryNamed n = some e ↔ e ∈ R.catalog ∧ e.name R = n := by
  constructor
  · intro hfind
    exact ⟨List.mem_of_find?_eq_some hfind, by simpa using List.find?_some hfind⟩
  · rintro ⟨he, rfl⟩
    cases hfind : R.entryNamed (e.name R) with
    | none => exact absurd (List.find?_eq_none.mp hfind e he) (by simp)
    | some e' =>
      have hname : e'.name R = e.name R := by simpa using List.find?_some hfind
      rw [h.name_inj (List.mem_of_find?_eq_some hfind) he hname]

theorem mem_recorded (h : R.Distinct) {w : World Sys} {e : Entry} :
    e ∈ R.recorded w ↔ e ∈ R.catalog ∧ ∃ r ∈ w.resources, r.backendName = e.name R := by
  simp only [recorded, entriesNamed, List.mem_filterMap, List.mem_map, entryNamed_eq_some h]
  constructor
  · rintro ⟨-, ⟨r, hr, rfl⟩, he, hname⟩
    exact ⟨he, r, hr, hname.symm⟩
  · rintro ⟨he, r, hr, hname⟩
    exact ⟨_, ⟨r, hr, rfl⟩, he, hname.symm⟩

/-- Dropping a name drops its entry. -/
theorem entriesNamed_filter (h : R.Distinct) (ns : List String) (n : String) :
    R.entriesNamed (ns.filter (· ≠ n)) = (R.entriesNamed ns).filter fun e => e.name R ≠ n := by
  induction ns with
  | nil => rfl
  | cons m ns ih =>
    unfold entriesNamed at ih ⊢
    by_cases hm : m = n
    · subst hm
      cases hfind : R.entryNamed m with
      | none => simpa [hfind] using ih
      | some e =>
        have hname := ((entryNamed_eq_some h).mp hfind).2
        simpa [hfind, hname] using ih
    · cases hfind : R.entryNamed m with
      | none => simpa [hfind, hm] using ih
      | some e =>
        have hname := ((entryNamed_eq_some h).mp hfind).2
        simpa [hfind, hname, hm] using ih

end RunConfig

/-! ### What a call does to the ledger -/

section Steps

variable {R : RunConfig} {w w' : World Sys} {role : Option Item} {o : SysOp}
  {r : Except Err (sysSig.Res o)} {l l' : Local}

/-- The roles of a process. -/
def Role (R : RunConfig) (role : Option Item) : Prop := ∀ i, role = some i → i ∈ R.items

theorem resources_of_ledger (h : w'.ledger = w.ledger) : w'.resources = w.resources := by
  rw [World.resources, h, World.resources]

/-- What a call may do to the ledger, as a list of entries. -/
inductive LedgerStep (R : RunConfig) (o : SysOp) (r : Except Err (sysSig.Res o))
    (es es' : List Entry) : Prop
  | same (h : es' = es)
      (hfailed : ∀ kind n planName metadata, o = .recordIntent kind n planName metadata →
        r.isOk = false)
  | record {kind n : String} {planName : Option String} {metadata : Dict} {e : Entry}
      (ho : o = .recordIntent kind n planName metadata) (he : e.Names R kind n metadata)
      (hmem : e ∈ R.catalog) (h : es' = es ++ [e])
  | forget {n : String} (ho : o = .forget n) (h : es' = es.filter fun e => e.name R ≠ n)

theorem isOk_of_not_effective {α : Type} {r : Except Err α} (h : ¬ Effective Err.late r) :
    r.isOk = false := by
  cases r with
  | error e => rfl
  | ok a => exact absurd trivial h

/-- Confirming replaces resources by others of the same names. -/
theorem names_confirm {s s' : State} {n now : String} {metadata : Dict}
    (h : (Mutation.confirm n metadata now).apply s = .ok s') :
    s'.resources.map (·.backendName) = s.resources.map (·.backendName) := by
  simp only [Mutation.apply] at h
  split at h
  case h_2 => cases h
  case h_1 r₀ hfind =>
  have hname : r₀.backendName = n := by simpa using List.find?_some hfind
  rw [State.replaceResource] at h
  split_ifs at h
  cases h
  simp only [List.map_map]
  refine List.map_congr_left fun x _ => ?_
  simp only [Function.comp_apply]
  split_ifs with hx
  · rw [hx]
    exact hname
  · rfl

theorem recorded_step (h : R.Distinct) (hrole : Role R role) (hok : (sysLogic R role).ok o l)
    (hsem : sysSem R.driver o w r w') : LedgerStep R o r (R.recorded w) (R.recorded w') := by
  -- A call that is no mutation, or has no effect.
  have hsame : w'.ledger = w.ledger → R.recorded w' = R.recorded w := by
    intro hledger
    rw [RunConfig.recorded, resources_of_ledger hledger, RunConfig.recorded]
  cases o with
  | recordIntent kind n planName metadata =>
    obtain ⟨i, e, hi, hnames, hcan⟩ := hok
    obtain ⟨-, ⟨-, s, now, s', hs, happly, rfl⟩ | ⟨hno, rfl⟩⟩ := hsem
    · have hmem : e ∈ R.catalog := Local.room_subset (hrole i hi) hcan.mem
      refine .record rfl hnames hmem ?_
      cases happly
      have hentry : R.entryNamed n = some e :=
        (RunConfig.entryNamed_eq_some h).mpr ⟨hmem, hnames.name.symm⟩
      simp [RunConfig.recorded, RunConfig.entriesNamed, World.resources, hs, State.withResource,
        hentry]
    · exact .same rfl fun _ _ _ _ _ => isOk_of_not_effective hno
  | confirm n metadata =>
    refine .same ?_ (by rintro _ _ _ _ ⟨⟩)
    obtain ⟨-, ⟨-, s, now, s', hs, happly, rfl⟩ | ⟨hno, rfl⟩⟩ := hsem
    · have hnames := names_confirm happly
      simp only [RunConfig.recorded, World.resources, hs, Option.elim_some]
      rw [hnames]
    · rfl
  | forget n =>
    obtain ⟨-, ⟨-, s, now, s', hs, happly, rfl⟩ | ⟨hno, rfl⟩⟩ := hsem
    · refine .forget rfl ?_
      cases happly
      have hfilter : (s.resources.filter (·.backendName ≠ n)).map (·.backendName) =
          (s.resources.map (·.backendName)).filter (· ≠ n) := by
        rw [List.filter_map]
        rfl
      simp only [RunConfig.recorded, World.resources, hs, Option.elim_some, State.removeResource]
      rw [hfilter, RunConfig.entriesNamed_filter h]
    · exact .same rfl (by rintro _ _ _ _ ⟨⟩)
  | _ => exact .same (hsame (ledger_eq_of_mutation hsem rfl)) (by rintro _ _ _ _ ⟨⟩)

/-- What is recorded stays the record of entries. -/
theorem fits_step (h : R.Distinct) (hok : (sysLogic R role).ok o l) (hrole : Role R role)
    (hsem : sysSem R.driver o w r w') (hfits : ReadsEntries R w.resources) :
    ReadsEntries R w'.resources := by
  cases o with
  | recordIntent kind n planName metadata =>
    obtain ⟨i, e, hi, hnames, hcan⟩ := hok
    obtain ⟨-, ⟨-, s, now, s', hs, happly, rfl⟩ | ⟨hno, rfl⟩⟩ := hsem
    · cases happly
      intro x hx
      rcases List.mem_append.mp hx with hx | hx
      · exact hfits x (by rw [World.resources, hs]; exact hx)
      · rw [List.mem_singleton.mp hx]
        exact ⟨e, Local.room_subset (hrole i hi) hcan.mem, hnames.kind, hnames.name,
          hnames.metadata⟩
    · exact hfits
  | confirm n metadata =>
    obtain ⟨e, he, -, hname, hmetadata⟩ := hok
    obtain ⟨-, ⟨-, s, now, s', hs, happly, rfl⟩ | ⟨hno, rfl⟩⟩ := hsem
    · have hfits' : ∀ x ∈ s.resources, ∃ e ∈ R.catalog, x.Fits R e := fun x hx =>
        hfits x (by rw [World.resources, hs]; exact hx)
      simp only [Mutation.apply] at happly
      split at happly
      case h_2 => cases happly
      case h_1 r₀ hfind =>
      rw [State.replaceResource] at happly
      split_ifs at happly
      cases happly
      -- The resource that is found is that of the entry which is confirmed.
      obtain ⟨e₀, he₀, hr₀⟩ := hfits' r₀ (List.mem_of_find?_eq_some hfind)
      have hn : r₀.backendName = n := by simpa using List.find?_some hfind
      have heq : e₀ = e := h.name_inj he₀ he (by rw [← hr₀.name, hn, hname])
      subst heq
      intro x hx
      obtain ⟨x₀, hx₀, rfl⟩ := List.mem_map.mp hx
      split_ifs
      · refine ⟨e₀, he, hr₀.kind, hr₀.name, ?_⟩
        show r₀.metadata.update metadata = _
        rw [hr₀.metadata, hmetadata]
        exact Entry.update_metadataOf _
      · exact hfits' x₀ hx₀
    · exact hfits
  | forget n =>
    obtain ⟨-, ⟨-, s, now, s', hs, happly, rfl⟩ | ⟨hno, rfl⟩⟩ := hsem
    · cases happly
      intro x hx
      exact hfits x (by rw [World.resources, hs]; exact (List.mem_filter.mp hx).1)
    · exact hfits
  | _ =>
    rw [resources_of_ledger (ledger_eq_of_mutation hsem rfl)]
    exact hfits

/-- The calls that change what is in memory: the context or the lock. -/
def SysOp.onMemory : SysOp → Bool
  | .updateCtx _ => true
  | .setInfra _ => true
  | .acquireInfraLock => true
  | .releaseInfraLock => true
  | _ => false

/-- The other calls leave the memory alone. -/
theorem memory_step (hsem : sysSem R.driver o w r w') (ho : o.onMemory = false) :
    w'.rest.ctx = w.rest.ctx ∧ w'.rest.infraLock = w.rest.infraLock := by
  have hcreate : ∀ {α : Type} {x : Obj} {r : Except Err α} {w₁ : World Sys},
      createCall x w r w₁ → w₁.rest.ctx = w.rest.ctx ∧ w₁.rest.infraLock = w.rest.infraLock := by
    rintro α x r w₁ ⟨-, ⟨-, rfl⟩ | ⟨-, rfl⟩⟩ <;> exact ⟨rfl, rfl⟩
  have hremove : ∀ {x : Obj} {r : Except Err Unit} {w₁ : World Sys},
      removeCall x w r w₁ → w₁.rest.ctx = w.rest.ctx ∧ w₁.rest.infraLock = w.rest.infraLock := by
    rintro x r w₁ ⟨-, gone, -, -, rfl⟩
    exact ⟨rfl, rfl⟩
  have hstore : ∀ {m : String → Mutation} {r : Except Err Unit} {w₁ : World Sys},
      storeCall m w r w₁ → w₁.rest.ctx = w.rest.ctx ∧ w₁.rest.infraLock = w.rest.infraLock := by
    rintro m r w₁ ⟨-, ⟨-, s, now, s', -, -, rfl⟩ | ⟨-, rfl⟩⟩ <;> exact ⟨rfl, rfl⟩
  cases o with
  | recordIntent => exact hstore hsem
  | confirm => exact hstore hsem
  | forget => exact hstore hsem
  | create => exact hcreate hsem
  | createSwitch => exact hcreate hsem.1
  | createNetwork net n sb =>
    obtain ⟨w₁, h₁, rfl⟩ := hsem
    have h₂ := hcreate h₁
    split <;> exact h₂
  | createVm n nics refs =>
    simp only [sysSem] at hsem
    split at hsem
    · rw [hsem.2]
      exact ⟨rfl, rfl⟩
    · obtain ⟨w₁, h₁, rfl⟩ := hsem
      have h₂ := hcreate h₁
      exact h₂
  | remove => exact hremove hsem
  | destroy kind n metadata =>
    simp only [sysSem] at hsem
    split at hsem
    · rw [hsem.2]
      exact ⟨rfl, rfl⟩
    · exact hremove hsem
  | work => rw [hsem.2]; exact ⟨rfl, rfl⟩
  | readCtx => rw [hsem.2]; exact ⟨rfl, rfl⟩
  | updateCtx => cases ho
  | setInfra => cases ho
  | acquireInfraLock => cases ho
  | releaseInfraLock => cases ho

/-- The context stays sound. -/
theorem sound_step (hok : (sysLogic R role).ok o l) (hsem : sysSem R.driver o w r w')
    (hsound : w.rest.ctx.Sound R) : w'.rest.ctx.Sound R := by
  cases ho : o.onMemory with
  | false =>
    rw [(memory_step hsem ho).1]
    exact hsound
  | true =>
    cases o with
    | updateCtx f =>
      rw [hsem.2]
      exact { hok _ hsound with infra := hsound.infra }
    | setInfra infra =>
      rw [hsem.2]
      exact { hsound with infra := hok.1 }
    | acquireInfraLock => rw [hsem.2.2]; exact hsound
    | releaseInfraLock => rw [hsem.2]; exact hsound
    | _ => cases ho

/-- An allowed call takes the thread somewhere. -/
theorem next_exists (hok : (sysLogic R role).ok o l) (hsem : sysSem R.driver o w r w')
    (hsound : w.rest.ctx.Sound R) : ∃ l', (sysLogic R role).next o l r l' := by
  cases o with
  | recordIntent =>
    obtain ⟨i, e, hi, hnames, hcan⟩ := hok
    exact ⟨_, i, e, hi, hnames, hcan, rfl⟩
  | createSwitch => exact ⟨l, rfl, hsem.2⟩
  | readCtx => exact ⟨_, _, hsem.1, hsound, rfl⟩
  | updateCtx => exact ⟨_, hsem.1, rfl⟩
  | setInfra => exact ⟨_, hsem.1, rfl⟩
  | acquireInfraLock => exact ⟨_, hsem.2.1, rfl⟩
  | releaseInfraLock => exact ⟨_, hsem.1, rfl⟩
  | _ => exact ⟨_, rfl⟩

/-! ### What a worker knows is so -/

/-- What a worker knows, of the ledger and of itself. -/
structure Thread (R : RunConfig) (es : List Entry) (i : Item) (l : Local) : Prop where
  item : i ∈ R.items
  last : ∀ e, l.last = some e → e ∈ l.room R i ∧ e ∈ es ∧ l.gone = none
  gone : ∀ o, l.gone = some o → ∃ e ∈ ownEntries i, e.obj R = o
  made : l.made.Sublist (l.room R i)
  own : l.own.Sublist (ownEntries i)

theorem Thread.init {es : List Entry} {i : Item} (hi : i ∈ R.items) :
    Thread R es i Local.init where
  item := hi
  last := by rintro _ ⟨⟩
  gone := by rintro _ ⟨⟩
  made := List.nil_sublist _
  own := List.nil_sublist _

/-- A worker that has nothing open and nothing removed, in a section of its own. -/
theorem Thread.moved {es es' : List Entry} {i : Item} (h : Thread R es i l)
    (hlast : l'.last = none) (hgone : l'.gone = l.gone) (hown : l'.own = l.own)
    (hmade : l'.made.Sublist (l'.room R i)) : Thread R es' i l' where
  item := h.item
  last := by
    intro e he
    rw [hlast] at he
    cases he
  gone := by
    rw [hgone]
    exact h.gone
  made := hmade
  own := by
    rw [hown]
    exact h.own

theorem Local.room_push {e : Entry} {i : Item} : (l.push e).room R i = l.room R i := by
  obtain ⟨own, last, gone, sect, ready⟩ := l
  cases sect <;> rfl

theorem Local.made_push {e : Entry} : (l.push e).made = l.made ++ [e] := by
  obtain ⟨own, last, gone, sect, ready⟩ := l
  cases sect <;> rfl

theorem Local.held_push {e : Entry} : (l.push e).sect.held = l.sect.held := by
  obtain ⟨own, last, gone, sect, ready⟩ := l
  cases sect <;> rfl

theorem Local.gone_push {e : Entry} : (l.push e).gone = none := by
  obtain ⟨own, last, gone, sect, ready⟩ := l
  cases sect <;> rfl

/-- What a worker knows after its own call. -/
theorem Thread.step {es es' : List Entry} {i : Item} (h : R.Distinct) (ht : Thread R es i l)
    (hok : (sysLogic R (some i)).ok o l) (hnext : (sysLogic R (some i)).next o l r l')
    (hstep : LedgerStep R o r es es') : Thread R es' i l' := by
  -- A call that tells nothing and is no mutation.
  have hsame : es' = es → l' = l → Thread R es' i l' := by
    rintro rfl rfl
    exact ht
  cases o with
  | recordIntent kind n planName metadata =>
    obtain ⟨i', e, hi', hnames, hcan, rfl⟩ := hnext
    cases hi'
    have hmem : e ∈ R.catalog := Local.room_subset ht.item hcan.mem
    refine ⟨ht.item, ?_, ?_, ?_, ?_⟩
    · intro e' he'
      have hr : r.isOk = true := by
        by_contra hr
        simp [hr] at he'
      have heq : e' = e := by simpa [hr, eq_comm] using he'
      subst heq
      refine ⟨?_, ?_, Local.gone_push⟩
      · show e' ∈ (l.push e').room R i
        rw [Local.room_push]
        exact hcan.mem
      · -- An intent that returned is recorded.
        cases hstep with
        | same heq hfailed =>
          rw [hfailed _ _ _ _ rfl] at hr
          cases hr
        | @record _ _ _ _ e₁ ho he₁ hmem₁ heq =>
          cases ho
          have he₁' : e₁ = e' := h.name_inj hmem₁ hmem (he₁.name.symm.trans hnames.name)
          rw [heq, he₁']
          exact List.mem_append_right _ (List.mem_singleton_self e')
        | forget ho => cases ho
    · intro x hx
      have hnone : (l.push e).gone = some x := hx
      rw [Local.gone_push] at hnone
      cases hnone
    · show (l.push e).made.Sublist ((l.push e).room R i)
      rw [Local.made_push, Local.room_push]
      exact hcan.room
    · obtain ⟨own, last, gone, sect, ready⟩ := l
      cases sect with
      | creating made => exact ht.own
      | free => exact hcan.room
      | locked => exact hcan.room
      | up => exact hcan.room
  | confirm n metadata =>
    cases hnext
    exact ht.moved rfl rfl rfl ht.made
  | forget n =>
    cases hnext
    cases hstep with
    | same heq hfailed => exact hsame heq rfl
    | record ho => cases ho
    | forget ho heq =>
      cases ho
      refine { ht with last := fun e he => ?_ }
      obtain ⟨hroom, hmem, hgone⟩ := ht.last e he
      refine ⟨hroom, ?_, hgone⟩
      rw [heq]
      refine List.mem_filter.mpr ⟨hmem, decide_eq_true ?_⟩
      -- What is open has not been seen removed.
      intro hname
      rw [hok e (Local.room_subset ht.item hroom) hname] at hgone
      cases hgone
  | remove x =>
    cases hnext
    refine ⟨ht.item, (by rintro e ⟨⟩), ?_, ht.made, ht.own⟩
    intro x' hx'
    have hr : r.isOk = true := by
      by_contra hr
      simp [hr] at hx'
    have heq : x' = x := by simpa [hr, eq_comm] using hx'
    rw [heq]
    exact (hok i rfl).2
  | destroy kind n metadata => cases hok
  | readCtx =>
    obtain ⟨c, -, -, rfl⟩ := hnext
    obtain ⟨own, last, gone, sect, ready⟩ := l
    cases sect with
    | locked =>
      refine ht.moved rfl rfl rfl ?_
      unfold Local.read Local.made Local.room
      dsimp only
      split_ifs
      · exact ht.own
      · exact List.nil_sublist _
    | _ =>
      cases hstep with
      | same heq => exact hsame heq rfl
      | record ho => cases ho
      | forget ho => cases ho
  | setInfra infra =>
    obtain ⟨-, rfl⟩ := hnext
    exact ht.moved rfl rfl rfl ht.own
  | acquireInfraLock =>
    obtain ⟨-, rfl⟩ := hnext
    exact ht.moved rfl rfl rfl ht.own
  | releaseInfraLock =>
    obtain ⟨-, rfl⟩ := hnext
    obtain ⟨own, last, gone, sect, ready⟩ := l
    cases sect <;> exact ht.moved rfl rfl rfl ht.own
  | createSwitch sw n =>
    cases hstep with
    | same heq => exact hsame heq hnext.1
    | record ho => cases ho
    | forget ho => cases ho
  | updateCtx f =>
    cases hstep with
    | same heq => exact hsame heq hnext.2
    | record ho => cases ho
    | forget ho => cases ho
  | _ =>
    cases hstep with
    | same heq => exact hsame heq hnext
    | record ho => cases ho
    | forget ho => cases ho

/-- What another worker knows is not touched: each minds its own entries. -/
theorem Thread.other {es es' : List Entry} {i j : Item} {lj : Local} (h : R.Distinct)
    (hij : j ≠ i) (ht : Thread R es i l) (hj : Thread R es j lj)
    (hok : (sysLogic R (some i)).ok o l) (hstep : LedgerStep R o r es es') :
    Thread R es' j lj := by
  refine { hj with last := fun e he => ?_ }
  obtain ⟨hroom, hmem, hgone⟩ := hj.last e he
  refine ⟨hroom, ?_, hgone⟩
  cases hstep with
  | same heq =>
    rw [heq]
    exact hmem
  | record ho he' hmem' heq =>
    rw [heq]
    exact List.mem_append_left _ hmem
  | forget ho heq =>
    cases ho
    rw [heq]
    refine List.mem_filter.mpr ⟨hmem, decide_eq_true ?_⟩
    intro hname
    -- The forgotten entry would belong to both.
    have hcat : e ∈ R.catalog := Local.room_subset hj.item hroom
    obtain ⟨e', he', hobj⟩ := ht.gone _ (hok e hcat hname)
    have heq' : e' = e := h.obj_inj (RunConfig.own_subset ht.item he') hcat hobj
    subst heq'
    unfold Local.room at hroom
    split at hroom
    · exact h.not_own_of_infra ht.item hroom he'
    · exact hij (h.owner_unique hj.item ht.item hroom he')

/-- Only the lock's own calls take or release it. -/
theorem held_step {i : Item} (hok : (sysLogic R (some i)).ok o l)
    (hnext : (sysLogic R (some i)).next o l r l') (ha : o ≠ .acquireInfraLock)
    (hr : o ≠ .releaseInfraLock) : l'.sect.held = l.sect.held := by
  cases o with
  | recordIntent =>
    obtain ⟨i', e, -, -, -, rfl⟩ := hnext
    exact Local.held_push
  | readCtx =>
    obtain ⟨c, -, -, rfl⟩ := hnext
    obtain ⟨own, last, gone, sect, ready⟩ := l
    cases sect with
    | locked =>
      unfold Local.read
      dsimp only
      split_ifs <;> rfl
    | _ => rfl
  | setInfra infra =>
    obtain ⟨-, rfl⟩ := hnext
    rcases hok.2 with ⟨hrole, -⟩ | ⟨-, hsect⟩
    · cases hrole
    · rw [hsect]
      rfl
  | acquireInfraLock => exact absurd rfl ha
  | releaseInfraLock => exact absurd rfl hr
  | createSwitch => rw [hnext.1]
  | updateCtx => rw [hnext.2]
  | _ => rw [show l' = _ from hnext]

theorem infraLock_step (hsem : sysSem R.driver o w r w') (ha : o ≠ .acquireInfraLock)
    (hr : o ≠ .releaseInfraLock) : w'.rest.infraLock = w.rest.infraLock := by
  cases ho : o.onMemory with
  | false => exact (memory_step hsem ho).2
  | true =>
    cases o with
    | updateCtx => rw [hsem.2]
    | setInfra => rw [hsem.2]
    | acquireInfraLock => exact absurd rfl ha
    | releaseInfraLock => exact absurd rfl hr
    | _ => cases ho

end Steps

/-! ### The invariant -/

/-- What is known of the workers. -/
abbrev Workers := Item → Ghost Local Err

/-- The invariant of a process. -/
structure Kept (R : RunConfig) (w : World Sys) (m : MainLocal) (cur : Option (List Item))
    (ts : Workers) : Prop where
  fits : ReadsEntries R w.resources
  sound : w.rest.ctx.Sound R
  progress : Schedule.Progress R.schedule ts m.place cur
  thread : ∀ i l, ts i = .active l → Thread R (R.recorded w) i l
  lock : ∀ i l, ts i = .active l → l.sect.held = true → w.rest.infraLock = true
  alone : ∀ i j l l', ts i = .active l → ts j = .active l' → l.sect.held = true →
    l'.sect.held = true → i = j

section Keeping

variable {R : RunConfig} {w w' : World Sys} {m m' : MainLocal} {cur : Option (List Item)}
  {ts : Workers} {items : List Item} {i : Item} {l l' : Local}

/-- A call of the process that is not one of the hooks' leaves the ledger's entries and
the memory alone, or removes the ledger. -/
theorem runSem_step {o : RunOp SysOp} {r : Except Err ((runSig sysSig).Res o)}
    (hsem : runSem (sysInner R.driver) o w r w') (ho : ∀ x, o ≠ .inner x) :
    w'.rest = w.rest ∧ (w'.resources = w.resources ∨ o = .remove ∧ w'.ledger = none) := by
  have hmutates : ∀ {mu : String → Mutation} {r : Except Err Unit},
      (∀ now s s', (mu now).apply s = .ok s' → s'.resources = s.resources) →
      mutates Err.late mu w r w' → w'.rest = w.rest ∧ w'.resources = w.resources := by
    rintro mu r hres (⟨-, s, now, s', hs, happly, rfl⟩ | ⟨-, rfl⟩)
    · refine ⟨rfl, ?_⟩
      rw [World.resources, World.resources, hs]
      exact hres now s s' happly
    · exact ⟨rfl, rfl⟩
  cases o with
  | inner x => exact absurd rfl (ho x)
  | returned walk node =>
    rw [hsem.2]
    exact ⟨rfl, .inl rfl⟩
  | mark walk node =>
    obtain ⟨h₁, h₂⟩ := hmutates (fun now s s' happly => by cases walk <;> (cases happly; rfl)) hsem
    exact ⟨h₁, .inl h₂⟩
  | setPhase phase =>
    obtain ⟨h₁, h₂⟩ := hmutates (fun now s s' happly => by cases happly; rfl) hsem
    exact ⟨h₁, .inl h₂⟩
  | readResources =>
    rw [hsem.1]
    exact ⟨rfl, .inl rfl⟩
  | readRemaining =>
    rw [hsem.1]
    exact ⟨rfl, .inl rfl⟩
  | release =>
    rw [show w' = w from hsem]
    exact ⟨rfl, .inl rfl⟩
  | remove =>
    obtain ⟨-, rfl⟩ | ⟨-, rfl⟩ := hsem
    · exact ⟨rfl, .inr ⟨rfl, rfl⟩⟩
    · exact ⟨rfl, .inl rfl⟩

theorem fits_of_step {o : RunOp SysOp} (hfits : ReadsEntries R w.resources)
    (h : w'.resources = w.resources ∨ o = .remove ∧ w'.ledger = none) :
    ReadsEntries R w'.resources := by
  rcases h with h | ⟨-, h⟩
  · rw [h]
    exact hfits
  · rw [World.resources, h]
    exact by rintro r ⟨⟩

/-- A call of the main thread, which is alone. -/
theorem Kept.main_op (h : R.Distinct) {o : RunOp SysOp} {r : Except Err ((runSig sysSig).Res o)}
    (hk : Kept R w m none ts) (hquiet : ∀ i l, ts i ≠ .active l)
    (hok : (mainLogic R).ok (.inl o) m) (hsem : runSem (sysInner R.driver) o w r w') :
    ∃ m', (mainLogic R).next (.inl o) m r m' ∧ Kept R w' m' none ts := by
  have hrole : Role R none := by rintro i ⟨⟩
  have hkept : ∀ m', m'.place = m.place → ReadsEntries R w'.resources → w'.rest.ctx.Sound R →
      Kept R w' m' none ts := by
    intro m' hplace hfits hsound
    refine ⟨hfits, hsound, ?_, ?_, ?_, ?_⟩
    · rw [hplace]
      exact hk.progress
    · exact fun i l hl => absurd hl (hquiet i l)
    · exact fun i l hl => absurd hl (hquiet i l)
    · exact fun i j l l' hl => absurd hl (hquiet i l)
  cases o with
  | inner o =>
    obtain ⟨l', hl'⟩ := next_exists hok hsem hk.sound
    exact ⟨_, ⟨l', hl', rfl⟩, hkept _ rfl (fits_step h hok hrole hsem hk.fits)
      (sound_step hok hsem hk.sound)⟩
  | returned walk node => exact hok.elim
  | mark walk node => exact hok.elim
  | readResources =>
    obtain ⟨hrest, hres⟩ := runSem_step hsem (by rintro x ⟨⟩)
    have hk' := fun m' hm' => hkept m' hm' (fits_of_step hk.fits hres) (by rw [hrest]; exact hk.sound)
    obtain ⟨rfl, ⟨s, hs, rfl⟩ | ⟨e, rfl⟩⟩ := hsem
    · refine ⟨_, ⟨?_, rfl⟩, hk' _ rfl⟩
      have := hk.fits
      rwa [World.resources, hs] at this
    · exact ⟨_, rfl, hk' _ rfl⟩
  | readRemaining =>
    obtain ⟨hrest, hres⟩ := runSem_step hsem (by rintro x ⟨⟩)
    have hk' := fun m' hm' => hkept m' hm' (fits_of_step hk.fits hres) (by rw [hrest]; exact hk.sound)
    obtain ⟨rfl, ⟨s, hs, rfl⟩ | ⟨e, rfl⟩⟩ := hsem
    · refine ⟨_, ⟨?_, rfl⟩, hk' _ rfl⟩
      have := hk.fits
      rwa [World.resources, hs] at this
    · exact ⟨_, rfl, hk' _ rfl⟩
  | _ =>
    obtain ⟨hrest, hres⟩ := runSem_step hsem (by rintro x ⟨⟩)
    exact ⟨m, rfl, hkept m rfl (fits_of_step hk.fits hres) (by rw [hrest]; exact hk.sound)⟩

/-- The invariant, with one worker moved. -/
theorem Kept.update {g : Ghost Local Err} (hk : Kept R w m (some items) ts) (hi : i ∈ items)
    (hfits : ReadsEntries R w'.resources) (hsound : w'.rest.ctx.Sound R)
    (hself : ∀ l, g = .active l → Thread R (R.recorded w') i l)
    (hothers : ∀ j l, j ≠ i → ts j = .active l → Thread R (R.recorded w') j l)
    (hlock : ∀ j l, Function.update ts i g j = .active l → l.sect.held = true →
      w'.rest.infraLock = true)
    (halone : ∀ l, g = .active l → l.sect.held = true → ∀ j l', j ≠ i → ts j = .active l' →
      l'.sect.held = false) :
    Kept R w' m (some items) (Function.update ts i g) where
  fits := hfits
  sound := hsound
  progress := hk.progress.update R.nodup_schedule hi g
  thread := by
    intro j l hj
    by_cases hji : j = i
    · subst hji
      rw [Function.update_self] at hj
      exact hself l hj
    · rw [Function.update_of_ne hji] at hj
      exact hothers j l hji hj
  lock := hlock
  alone := by
    intro j k lj lk hj hk' hheld hheld'
    by_cases hji : j = i
    · by_cases hki : k = i
      · rw [hji, hki]
      · subst hji
        rw [Function.update_self] at hj
        rw [Function.update_of_ne hki] at hk'
        rw [halone lj hj hheld k lk hki hk'] at hheld'
        cases hheld'
    · rw [Function.update_of_ne hji] at hj
      by_cases hki : k = i
      · subst hki
        rw [Function.update_self] at hk'
        rw [halone lk hk' hheld' j lj hji hj] at hheld
        cases hheld
      · rw [Function.update_of_ne hki] at hk'
        exact hk.alone j k lj lk hj hk' hheld hheld'

/-- A call of a hook. -/
theorem Kept.task_inner (h : R.Distinct) {o : SysOp} {r : Except Err (sysSig.Res o)}
    (hk : Kept R w m (some items) ts) (hi : i ∈ items) (hl : ts i = .active l)
    (hok : (sysLogic R (some i)).ok o l) (hsem : sysSem R.driver o w r w') :
    ∃ l', (sysLogic R (some i)).next o l r l' ∧
      Kept R w' m (some items) (Function.update ts i (.active l')) := by
  have ht := hk.thread i l hl
  have hrole : Role R (some i) := by
    rintro j ⟨⟩
    exact ht.item
  obtain ⟨l', hnext⟩ := next_exists hok hsem hk.sound
  have hstep := recorded_step h hrole hok hsem
  refine ⟨l', hnext, hk.update hi (fits_step h hok hrole hsem hk.fits)
    (sound_step hok hsem hk.sound) ?_ ?_ ?_ ?_⟩
  · rintro l₁ ⟨⟩
    exact ht.step h hok hnext hstep
  · intro j lj hji hj
    exact ht.other h hji (hk.thread j lj hj) hok hstep
  · intro j lj hj hheld
    by_cases ha : o = .acquireInfraLock
    · subst ha
      rw [hsem.2.2]
    · by_cases hrel : o = .releaseInfraLock
      · -- Whoever holds the lock is the one that releases it.
        subst hrel
        by_cases hji : j = i
        · subst hji
          rw [Function.update_self] at hj
          cases hj
          rw [hnext.2, Local.held_released] at hheld
          cases hheld
        · rw [Function.update_of_ne hji] at hj
          exact absurd (hk.alone j i lj l hj hl hheld hok) hji
      · rw [infraLock_step hsem ha hrel]
        by_cases hji : j = i
        · subst hji
          rw [Function.update_self] at hj
          cases hj
          rw [held_step hok hnext ha hrel] at hheld
          exact hk.lock j l hl hheld
        · rw [Function.update_of_ne hji] at hj
          exact hk.lock j lj hj hheld
  · rintro l₁ ⟨⟩ hheld j lj hji hj
    by_contra hheld'
    rw [Bool.not_eq_false] at hheld'
    have hfree := hk.lock j lj hj hheld'
    by_cases ha : o = .acquireInfraLock
    · subst ha
      rw [hsem.1] at hfree
      cases hfree
    · by_cases hrel : o = .releaseInfraLock
      · subst hrel
        rw [hnext.2, Local.held_released] at hheld
        cases hheld
      · rw [held_step hok hnext ha hrel] at hheld
        exact hji (hk.alone j i lj l hj hl hheld' hheld)

/-- A call of a worker that is not one of the hook's. -/
theorem Kept.task_outer {o : RunOp SysOp} {r : Except Err ((runSig sysSig).Res o)}
    (hk : Kept R w m (some items) ts) (hl : ts i = .active l) (ho : ∀ x, o ≠ .inner x)
    (hok : (taskLogic R i).ok o l) (hsem : runSem (sysInner R.driver) o w r w') :
    Kept R w' m (some items) (Function.update ts i (.active l)) := by
  rw [Discipline.update_eq_self_of_eq hl]
  obtain ⟨hrest, hres⟩ := runSem_step hsem ho
  have hres' : w'.resources = w.resources := by
    rcases hres with hres | ⟨rfl, -⟩
    · exact hres
    · exact hok.elim
  have hrecorded : R.recorded w' = R.recorded w := by
    rw [RunConfig.recorded, hres', RunConfig.recorded]
  refine ⟨?_, ?_, hk.progress, ?_, ?_, hk.alone⟩
  · rw [hres']
    exact hk.fits
  · rw [hrest]
    exact hk.sound
  · rw [hrecorded]
    exact hk.thread
  · rw [hrest]
    exact hk.lock

/-- A worker that is over, or starts: it holds no lock. -/
theorem Kept.rest {g : Ghost Local Err} (hk : Kept R w m (some items) ts) (hi : i ∈ items)
    (hself : ∀ l, g = .active l → l = Local.init) :
    Kept R w m (some items) (Function.update ts i g) := by
  have hitem : i ∈ R.items := RunConfig.mem_schedule.mp (hk.progress.mem_sched hi)
  refine hk.update hi hk.fits hk.sound ?_ ?_ ?_ ?_
  · intro l hl
    rw [hself l hl]
    exact Thread.init hitem
  · exact fun j l _ hj => hk.thread j l hj
  · intro j l hj hheld
    by_cases hji : j = i
    · subst hji
      rw [Function.update_self] at hj
      rw [hself l hj] at hheld
      cases hheld
    · rw [Function.update_of_ne hji] at hj
      exact hk.lock j l hj hheld
  · intro l hl hheld
    rw [hself l hl] at hheld
    cases hheld

end Keeping

/-- **Every process keeps the invariant.** -/
def keptDiscipline {R : RunConfig} (h : R.Distinct) {P : Process} (hP : P.toRunConfig = R)
    (jobs : Option ℤ)
    (allow : (o : RunOp SysOp) → World Sys → Except Err ((runSig sysSig).Res o) → Prop)
    (startOk : Item → World Sys → Prop) :
    Discipline (restricted P jobs allow startOk) MainLocal Local where
  mainLogic := mainLogic R
  taskLogic := taskLogic R
  taskRet := fun _ l => l.sect = .free
  taskExc := fun _ _ l => l.sect.held = false
  init := fun _ => .init
  Inv := fun w _ m cur ts => Kept R w m cur ts
  main_op := by
    subst hP
    intro w log m ts o r w' hk hquiet hok hsem
    exact hk.main_op h hquiet hok hsem.1
  fork := by
    rintro w log m ts items hk - ⟨-, past, rest, hplace, hsched⟩
    have hprogress := hk.progress
    rw [hplace] at hprogress
    obtain ⟨hidle, hprogress'⟩ := hprogress.fork R.nodup_schedule hsched
    refine ⟨hidle, { hk with progress := ?_ }⟩
    rw [hplace]
    exact hprogress'
  start := by
    intro w log m ts items i hk hi _ _
    have hitem : i ∈ R.items := RunConfig.mem_schedule.mp (hk.progress.mem_sched hi)
    refine ⟨wp_runHook (follows_hooks hP h hitem), hk.rest hi ?_⟩
    rintro l ⟨⟩
    rfl
  task_op := by
    subst hP
    intro w log m ts items i l o r w' hk hi hl hok hsem
    cases o with
    | inner o => exact hk.task_inner h hi hl hok hsem.1
    | returned walk node =>
      refine ⟨l, rfl, hk.task_outer (o := .returned walk node) hl ?_ hok hsem.1⟩
      exact by rintro x ⟨⟩
    | mark walk node =>
      refine ⟨l, rfl, hk.task_outer (o := .mark walk node) hl ?_ hok hsem.1⟩
      exact by rintro x ⟨⟩
    | _ => exact hok.elim
  finish := by
    intro w log m ts items i l r hk hi _ _ _
    exact hk.rest hi (by rintro l ⟨⟩)
  tick := fun hk => hk
  join := by
    rintro w log m ts items r hk ⟨-, past, rest, hplace, hsched⟩ hquiet hret -
    have hprogress := hk.progress
    rw [hplace] at hprogress
    cases r with
    | ok a =>
      exact ⟨_, ⟨past, hplace, rfl⟩, { hk with progress := hprogress.join (hret rfl) }⟩
    | error e => exact ⟨_, rfl, { hk with progress := rfl }⟩

/-- What a process knows when it is booted. -/
def MainLocal.boot : MainLocal := ⟨.reached [], .init, false⟩

theorem Kept.boot {R : RunConfig} {w : World Sys} (hfits : ReadsEntries R w.resources)
    (hctx : w.rest.ctx = .fresh) : Kept R w .boot none fun _ => .idle where
  fits := hfits
  sound := by
    rw [hctx]
    exact Ctx.sound_fresh R
  progress := by
    refine ⟨⟨R.schedule, rfl⟩, ?_, fun _ _ => rfl⟩
    intro i hi
    simp at hi
  thread := by rintro i l ⟨⟩
  lock := by rintro i l ⟨⟩
  alone := by rintro i j l l' ⟨⟩

theorem past_boot : Past [] () MainLocal.boot := ⟨rfl, rfl, rfl⟩

end TestRange
