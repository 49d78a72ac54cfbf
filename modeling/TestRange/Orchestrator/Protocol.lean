/-
The protocol of a run: what each thread must know before a call, and what it learns.

A hook records only its own entries, each once and in its order, creates what its open
intent stands for, and forgets only what it has seen removed.  The build infrastructure
is the business of whoever holds its lock.

* `Local`, `sysLogic` — what a thread knows, and the rule of every call;
* `Ctx.Sound` — what is in the dictionaries under a name is what was composed for it;
* `wp_tracked`, `wp_trackedVolume` — record, create, confirm;
* `wp_forM_entries` — a loop that records one entry per element.
-/
import TestRange.Orchestrator.Entries

namespace TestRange

/-! ### What a thread knows -/

/-- Where a thread stands with the lock of the build infrastructure. -/
inductive Section
  | free
  | locked
  /-- It was found down; what has been recorded of it since. -/
  | creating (made : List Entry)
  | up

/-- The lock is held. -/
def Section.held : Section → Bool
  | .free => false
  | _ => true

/-- What a thread knows. -/
structure Local where
  /-- What the hook has recorded, in order. -/
  own : List Entry
  /-- The intent that is open. -/
  last : Option Entry
  /-- What was seen removed. -/
  gone : Option Obj
  sect : Section
  /-- The build infrastructure was seen up. -/
  ready : Bool

namespace Local

def init : Local := ⟨[], none, none, .free, false⟩

/-- What is being recorded: the entries of the hook, or the build infrastructure. -/
def made (l : Local) : List Entry :=
  match l.sect with
  | .creating made => made
  | _ => l.own

/-- What there is to record. -/
def room (R : RunConfig) (i : Walk × Node) (l : Local) : List Entry :=
  match l.sect with
  | .creating _ => R.infra
  | _ => ownEntries i

/-- One more is recorded. -/
def push (l : Local) (e : Entry) : Local :=
  match l.sect with
  | .creating made => { l with sect := .creating (made ++ [e]), gone := none }
  | _ => { l with own := l.own ++ [e], gone := none }

/-- The place to record: a hook that builds first sees the infrastructure up. -/
def Placed (walk : Walk) (l : Local) : Prop :=
  match l.sect with
  | .free => walk = .materialize → l.ready = true
  | .creating _ => True
  | _ => False

/-- The entry may be recorded now. -/
structure CanRecord (R : RunConfig) (i : Walk × Node) (l : Local) (e : Entry) : Prop where
  room : (l.made ++ [e]).Sublist (l.room R i)
  placed : l.Placed i.1

/-- The open intent is that of the object. -/
def Opened (R : RunConfig) (l : Local) (o : Obj) : Prop :=
  ∃ e, l.last = some e ∧ e.obj R = o ∧ l.gone = none

/-- The context has been read. -/
def read (l : Local) (c : Ctx) : Local :=
  match l.sect with
  | .locked => { l with sect := if c.buildInfra.active then .up else .creating [], last := none }
  | _ => l

/-- The lock has been released. -/
def released (l : Local) : Local :=
  match l.sect with
  | .up => { l with sect := .free, last := none, ready := true }
  | _ => { l with sect := .free, last := none }

end Local

/-- What a call records is the entry. -/
structure Entry.Names (R : RunConfig) (e : Entry) (kind backendName : String) (metadata : Dict) :
    Prop where
  kind : kind = e.kind
  name : backendName = e.name R
  metadata : metadata = e.metadata R

/-- What the build infrastructure is when it is up. -/
def BuildInfra.Sound (R : RunConfig) (infra : BuildInfra) : Prop :=
  infra.active = true → infra.poolBackend = some R.buildHome ∧ infra.buildSwitch = some R.buildSwitch

/-- What the dictionaries hold under a name is what was composed for it. -/
structure Ctx.Sound (R : RunConfig) (c : Ctx) : Prop where
  pool : ∀ n b, c.poolBackends n = some b → b = R.compose "pool" n
  network : ∀ n b, c.networkBackends n = some b →
    (∃ e ∈ R.catalog, e.obj R = .network b) ∨ ∃ sw, b = R.driver.uplinkSegment sw
  switch : ∀ n b, c.switchBackends n = some b → ∃ e ∈ R.catalog, e.obj R = .switch b
  sidecar : ∀ n b, c.sidecarBackends n = some b → ∃ e ∈ R.catalog, e.obj R = .vm b
  infra : c.buildInfra.Sound R

theorem Ctx.sound_fresh (R : RunConfig) : Ctx.fresh.Sound R where
  pool := by rintro _ _ ⟨⟩
  network := by rintro _ _ ⟨⟩
  switch := by rintro _ _ ⟨⟩
  sidecar := by rintro _ _ ⟨⟩
  infra := by rintro ⟨⟩

/-! ### The rules -/

/-- Whether a hook may create an object: its intent is open. -/
def MayCreate (R : RunConfig) (role : Option (Walk × Node)) (l : Local) (o : Obj) : Prop :=
  role.isSome = true ∧ l.Opened R o

/-- Whether an object is for the thread to remove: the main thread removes when it is
alone, a hook what it made. -/
def MayRemove (R : RunConfig) (role : Option (Walk × Node)) (l : Local) (o : Obj) : Prop :=
  ∀ i, role = some i → l.sect = .free ∧ ∃ e ∈ ownEntries i, e.obj R = o

/-- Whether the build infrastructure may be said to be up or down. -/
def MaySet (R : RunConfig) (role : Option (Walk × Node)) (l : Local) (infra : BuildInfra) : Prop :=
  infra.Sound R ∧ ((role = none ∧ infra.active = false) ∨
    (infra.active = true ∧ l.sect = .creating R.infra))

/-- The protocol of a thread: a hook, or the main thread. -/
def sysLogic (R : RunConfig) (role : Option (Walk × Node)) : Prog.Logic sysSig Err Local where
  ok
    | .recordIntent kind backendName _ metadata, l => ∃ i e, role = some i ∧
        e.Names R kind backendName metadata ∧ l.CanRecord R i e
    | .confirm backendName metadata, l => ∃ e ∈ R.catalog, l.last = some e ∧
        backendName = e.name R ∧ metadata = e.metadata R
    | .forget backendName, l => ∀ e ∈ R.catalog, e.name R = backendName → l.gone = some (e.obj R)
    | .create o, l => MayCreate R role l o
    | .createSwitch _ backendName, l => MayCreate R role l (.switch backendName)
    | .createNetwork _ backendName _, l => MayCreate R role l (.network backendName)
    | .createVm backendName _ _, l => MayCreate R role l (.vm backendName)
    | .remove o, l => MayRemove R role l o
    | .destroy _ _ _, _ => role = none
    | .work, _ => True
    | .readCtx, _ => True
    | .updateCtx f, _ => ∀ c, c.Sound R → (f c).Sound R
    | .setInfra infra, l => MaySet R role l infra
    | .acquireInfraLock, l => l.sect = .free
    | .releaseInfraLock, l => l.sect.held = true
  next
    | .recordIntent kind backendName _ metadata, l, r, l' => ∃ i e, role = some i ∧
        e.Names R kind backendName metadata ∧ l.CanRecord R i e ∧
        l' = { l.push e with last := if r.isOk then some e else none }
    | .confirm _ _, l, _, l' => l' = { l with last := none }
    | .createSwitch sw _, l, r, l' => l' = l ∧
        ∀ u, r = .ok u → u = if sw.nat then some (R.driver.uplinkSegment sw) else none
    | .remove o, l, r, l' =>
      l' = { l with last := none, gone := if r.isOk then some o else none }
    | .destroy kind backendName metadata, l, r, l' =>
      l' = { l with last := none, gone := if r.isOk then
        (destroyTarget kind backendName metadata).toOption else none }
    | .readCtx, l, r, l' => ∃ c, r = .ok c ∧ c.Sound R ∧ l' = l.read c
    | .updateCtx _, l, r, l' => r = .ok () ∧ l' = l
    | .setInfra _, l, r, l' => r = .ok () ∧ l' = { l with sect := .up, last := none }
    | .acquireInfraLock, l, r, l' => r = .ok () ∧ l' = { l with sect := .locked, last := none }
    | .releaseInfraLock, l, r, l' => r = .ok () ∧ l' = l.released
    | _, l, _, l' => l' = l

/-! ### Following the protocol -/

/-- Where entries are recorded: in a hook, or while the build infrastructure is made. -/
inductive Site
  | hook (ready : Bool)
  | infra

namespace Site

/-- What a thread knows once it has recorded some entries there. -/
def after (s : Site) (es : List Entry) : Local :=
  match s with
  | hook ready => ⟨es, none, none, .free, ready⟩
  | infra => ⟨[], none, none, .creating es, false⟩

def room (R : RunConfig) (i : Walk × Node) : Site → List Entry
  | hook _ => ownEntries i
  | infra => R.infra

def Placed (walk : Walk) : Site → Prop
  | hook ready => walk = .materialize → ready = true
  | infra => True

def held : Site → Bool
  | hook _ => false
  | infra => true

/-- The last of the entries is an open intent. -/
def opened (s : Site) (es : List Entry) (e : Entry) : Local :=
  { s.after (es ++ [e]) with last := some e }

end Site

/-- An exception leaves the lock as it is. -/
def Fails (held : Bool) (_ : Err) (l : Local) : Prop := l.sect.held = held

/-- What an object is recorded with. -/
theorem Entry.names_of_obj {R : RunConfig} {e : Entry} {o : Obj} {kind : String}
    (hkind : kind = e.kind) (ho : e.obj R = o) : e.Names R kind o.name (Entry.metadataOf o) :=
  ⟨hkind, by rw [Entry.name, ho], by rw [Entry.metadata, ho]⟩

section Rules

variable {R : RunConfig} {i : Walk × Node} {s : Site} {es : List Entry} {e : Entry} {l : Local}
  {role : Option (Walk × Node)}

theorem Local.room_subset (hi : i ∈ R.items) {e : Entry} (he : e ∈ l.room R i) :
    e ∈ R.catalog := by
  unfold Local.room at he
  split at he
  · exact RunConfig.infra_subset he
  · exact RunConfig.own_subset hi he

theorem Local.CanRecord.mem (h : l.CanRecord R i e) : e ∈ l.room R i :=
  h.room.subset (by simp)

theorem Site.canRecord (hroom : (es ++ [e]).Sublist (s.room R i)) (hplaced : s.Placed i.1) :
    (s.after es).CanRecord R i e := by
  cases s with
  | hook ready => exact ⟨hroom, hplaced⟩
  | infra => exact ⟨hroom, trivial⟩

theorem Site.push_after : { (s.after es).push e with last := some e } = s.opened es e := by
  cases s <;> rfl

theorem Site.held_after : (s.after es).sect.held = s.held := by
  cases s <;> rfl

theorem Site.mayCreate {o : Obj} (ho : e.obj R = o) :
    MayCreate R (some i) (s.opened es e) o := by
  cases s <;> exact ⟨rfl, e, rfl, ho, rfl⟩

theorem Site.read_after (c : Ctx) : (s.after es).read c = s.after es := by
  cases s <;> rfl

theorem Site.read_opened (c : Ctx) : (s.opened es e).read c = s.opened es e := by
  cases s <;> rfl

/-- Record, create, confirm: what is created is what was recorded. -/
theorem wp_tracked {α : Type} {kind backendName : String} {planName : Option String}
    {metadata : Dict} {create : Hook α} {Q : α → Local → Prop} (h : R.Distinct) (hi : i ∈ R.items)
    (hnames : e.Names R kind backendName metadata)
    (hroom : (es ++ [e]).Sublist (s.room R i)) (hplaced : s.Placed i.1)
    (hcreate : create.wp (sysLogic R (some i))
      (fun a l' => l' = s.opened es e ∧ Q a (s.after (es ++ [e]))) (Fails s.held) (s.opened es e)) :
    (tracked kind backendName planName metadata create).wp (sysLogic R (some i)) Q
      (Fails s.held) (s.after es) := by
  have hcan := Site.canRecord hroom hplaced
  unfold tracked
  refine Prog.wp_seq (P := fun _ l' => l' = s.opened es e)
    (Prog.wp_perform.mpr ⟨⟨i, e, rfl, hnames, hcan⟩, ?_, ?_⟩) ?_
  · rintro a l' ⟨i', e', hi', hnames', hcan', rfl⟩
    cases hi'
    -- The entry is told by the name it is recorded under.
    have heq : e' = e := h.name_inj (Local.room_subset hi hcan'.mem) (Local.room_subset hi hcan.mem)
      (hnames'.name.symm.trans hnames.name)
    subst heq
    exact Site.push_after
  · rintro err l' ⟨i', e', hi', -, -, rfl⟩
    cases s <;> rfl
  · rintro - l' rfl
    refine Prog.wp_seq hcreate ?_
    rintro a l' ⟨rfl, hQ⟩
    refine Prog.wp_seq (P := fun _ l' => l' = s.after (es ++ [e]))
      (Prog.wp_perform.mpr ⟨⟨e, Local.room_subset hi hcan.mem, ?_, hnames.name, hnames.metadata⟩,
        ?_, ?_⟩) ?_
    · cases s <;> rfl
    · rintro - l' rfl
      cases s <;> rfl
    · rintro err l' rfl
      cases s <;> rfl
    · rintro - l' rfl
      exact hQ

/-- A call that creates what the open intent stands for. -/
theorem wp_creates {o : SysOp} {x : Obj} {Q : sysSig.Res o → Local → Prop}
    (hok : ∀ l, MayCreate R (some i) l x → (sysLogic R (some i)).ok o l)
    (hnext : ∀ l r l', (sysLogic R (some i)).next o l r l' → l' = l) (hobj : e.obj R = x)
    (hQ : ∀ a, Q a (s.opened es e)) :
    (sysOp o).wp (sysLogic R (some i)) Q (Fails s.held) (s.opened es e) := by
  refine Prog.wp_perform.mpr ⟨hok _ (Site.mayCreate hobj), ?_, ?_⟩
  · intro a l' hl'
    rw [hnext _ _ _ hl']
    exact hQ a
  · intro err l' hl'
    rw [hnext _ _ _ hl']
    cases s <;> rfl

theorem wp_work {Q : Unit → Local → Prop} {E : Err → Local → Prop} (hQ : Q () l)
    (hE : ∀ err, E err l) : (sysOp .work).wp (sysLogic R role) Q E l := by
  refine Prog.wp_perform.mpr ⟨trivial, ?_, ?_⟩
  · rintro a l' rfl
    exact hQ
  · rintro err l' rfl
    exact hE err

theorem wp_readCtx {Q : Ctx → Local → Prop} {E : Err → Local → Prop}
    (hQ : ∀ c, c.Sound R → Q c (l.read c)) :
    (sysOp .readCtx).wp (sysLogic R role) Q E l := by
  refine Prog.wp_perform.mpr ⟨trivial, ?_, ?_⟩
  · rintro a l' ⟨c, hc, hsound, rfl⟩
    cases hc
    exact hQ _ hsound
  · rintro err l' ⟨c, hc, -⟩
    cases hc

theorem wp_updateCtx {f : Ctx → Ctx} {Q : Unit → Local → Prop} {E : Err → Local → Prop}
    (hf : ∀ c, c.Sound R → (f c).Sound R) (hQ : Q () l) :
    (sysOp (.updateCtx f)).wp (sysLogic R role) Q E l := by
  refine Prog.wp_perform.mpr ⟨hf, ?_, ?_⟩
  · rintro a l' ⟨-, rfl⟩
    exact hQ
  · rintro err l' ⟨hr, -⟩
    cases hr

theorem wp_getItem {α : Type} {d : String → Option α} {k : String} {Q : α → Local → Prop}
    {E : Err → Local → Prop} (hQ : ∀ a, d k = some a → Q a l) (hE : ∀ err, E err l) :
    (getItem d k).wp (sysLogic R role) Q E l := by
  unfold getItem
  split
  case h_1 a ha => exact hQ a ha
  case h_2 => exact hE _

theorem wp_getPool {n : String} {Q : String → Local → Prop}
    (hQ : Q (R.compose "pool" n) (s.after es)) :
    (getPool n).wp (sysLogic R role) Q (Fails s.held) (s.after es) := by
  simp only [getPool, Prog.bind_eq_bind, Prog.wp_bind]
  refine wp_readCtx fun c hc => ?_
  rw [Site.read_after]
  refine wp_getItem (fun b hb => ?_) (fun _ => Site.held_after)
  rw [hc.pool n b hb]
  exact hQ

/-- A program that learns nothing and changes nothing. -/
def Quiet (R : RunConfig) (role : Option (Walk × Node)) (p : Hook Unit) : Prop :=
  ∀ l, p.wp (sysLogic R role) (fun _ l' => l' = l) (fun _ l' => l' = l) l

theorem quiet_pure : Quiet R role (pure ()) := fun _ => rfl

theorem quiet_work : Quiet R role (sysOp .work) := fun _ => wp_work rfl fun _ => rfl

theorem quiet_builtPath {built : List String} {r : String} :
    Quiet R role (builtPath built r) := by
  intro l
  unfold builtPath
  split <;> rfl

theorem Quiet.wp {p : Hook Unit} (hp : Quiet R role p) {Q : Unit → Local → Prop}
    {E : Err → Local → Prop} (hQ : Q () l) (hE : ∀ err, E err l) :
    p.wp (sysLogic R role) Q E l := by
  refine Prog.wp_mono ?_ ?_ (hp l)
  · rintro - l' rfl
    exact hQ
  · rintro err l' rfl
    exact hE err

theorem wp_trackedVolume {kind backendName poolBackend : String} {planName : Option String}
    {before after : Hook Unit} {Q : Unit → Local → Prop} (h : R.Distinct) (hi : i ∈ R.items)
    (hkind : kind = e.kind) (hobj : e.obj R = .volume poolBackend backendName)
    (hroom : (es ++ [e]).Sublist (s.room R i)) (hplaced : s.Placed i.1)
    (hbefore : Quiet R (some i) before) (hafter : Quiet R (some i) after)
    (hQ : Q () (s.after (es ++ [e]))) :
    (trackedVolume kind backendName planName poolBackend before after).wp (sysLogic R (some i)) Q
      (Fails s.held) (s.after es) := by
  have hfails : ∀ err, Fails s.held err (s.opened es e) := by
    intro err
    cases s <;> rfl
  refine wp_tracked h hi (Entry.names_of_obj hkind hobj) hroom hplaced ?_
  refine Prog.wp_seq (hbefore.wp (Q := fun _ l' => l' = s.opened es e) rfl hfails) ?_
  rintro - l' rfl
  refine Prog.wp_seq (P := fun _ l' => l' = s.opened es e)
    (wp_creates (fun _ hl => hl) (fun _ _ _ hl => hl) hobj fun _ => rfl) ?_
  rintro - l' rfl
  exact hafter.wp ⟨rfl, hQ⟩ hfails

/-- A loop that records one entry per element. -/
theorem wp_forM_entries {β : Type} {xs : List β} {f : β → Hook PUnit} {g : β → Entry}
    (hroom : (es ++ xs.map g).Sublist (s.room R i))
    (hbody : ∀ x ∈ xs, ∀ es', (es' ++ [g x]).Sublist (s.room R i) →
      (f x).wp (sysLogic R (some i)) (fun _ l => l = s.after (es' ++ [g x])) (Fails s.held)
        (s.after es')) :
    (xs.forM f).wp (sysLogic R (some i)) (fun _ l => l = s.after (es ++ xs.map g))
      (Fails s.held) (s.after es) := by
  refine Prog.wp_forM (fun done l => l = s.after (es ++ done.map g)) ?_ (fun _ h => h) (by simp)
  rintro done x rest rfl l rfl
  have hsub : (es ++ done.map g ++ [g x]).Sublist (s.room R i) := by
    refine List.Sublist.trans ?_ hroom
    simp
  have := hbody x (by simp) _ hsub
  simpa using this

end Rules

end TestRange
