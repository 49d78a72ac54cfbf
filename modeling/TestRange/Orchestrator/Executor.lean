/-
The executor: two walks over the build graph.

Each wave of a walk is mapped onto the bounded pool and gates the next one.  A node's
hook is stamped in the ledger after it has returned.  The walks know nothing of what
hooks do, and neither does this module: hooks are arbitrary programs over arbitrary
operations, of which only one thing is assumed, that they leave the completion stamps
to the executor (`InnerSem`).

* `Walk.Gated` — what gating means for a run of a walk;
* `Walk.gated_run` — the invariant: each node's observed history is that of its hook,
  and waves are gone through in order;
* `walks_gated` — both walks are gated, for every accepted graph, every number of
  jobs, all hooks and every interleaving.
-/
import TestRange.Lib.Pool
import TestRange.Graph.BuildGraph
import TestRange.State.Store

namespace TestRange

/-- The two walks, and the hook of a node each of them runs. -/
inductive Walk
  | materialize
  | realize
  deriving DecidableEq, Repr

/-- What a run acts on: `state.json`, if it is there, and everything else. -/
structure World (Ω : Type) where
  ledger : Option State
  rest : Ω

/-! ### Operations -/

/-- The operations of a run: those of the hooks, and those of the executor and of the
teardown on the state store. -/
inductive RunOp (Op : Type)
  | inner (o : Op)
  /-- No operation of the source: the point at which a hook has returned. -/
  | returned (walk : Walk) (node : String)
  /-- `mark_node_materialized`, `mark_node_realized`. -/
  | mark (walk : Walk) (node : String)
  | setPhase (phase : Phase)
  /-- `store.read().resources` -/
  | readResources
  /-- The same, once the teardown has gone through what it read. -/
  | readRemaining
  | release
  | remove

abbrev runSig (S : Sig) : Sig where
  Op := RunOp S.Op
  Res
    | .inner o => S.Res o
    | .readResources => List Resource
    | .readRemaining => List Resource
    | _ => Unit

section Semantics

variable {S : Sig} {ε Ω : Type}

/-- Whether a call took effect: it returned, or raised late. -/
def Effective {α : Type} (late : ε → Bool) : Except ε α → Prop
  | .ok _ => True
  | .error e => late e = true

/-- A mutation of the store, at some clock reading: it may raise before its effect or
after it. -/
def mutates (late : ε → Bool) (m : String → Mutation) (w : World Ω) (r : Except ε Unit)
    (w' : World Ω) : Prop :=
  (Effective late r ∧ ∃ s now s', w.ledger = some s ∧ (m now).apply s = .ok s' ∧
      w' = { w with ledger := some s' }) ∨
    (¬ Effective late r ∧ w' = w)

/-- What the operations of the hooks do.  Stamps are the executor's. -/
structure InnerSem (S : Sig) (ε Ω : Type) where
  sem : Prog.Sem S ε (World Ω)
  /-- Whether an exception is raised after the effect of the call. -/
  late : ε → Bool
  nodes_eq : ∀ {o w r w'}, sem o w r w' → w'.ledger.map State.nodes = w.ledger.map State.nodes

/-- The stamp of a walk. -/
def Walk.stamp : Walk → String → String → Mutation
  | .materialize => .markNodeMaterialized
  | .realize => .markNodeRealized

/-- A read of the store. -/
def readsResources (w : World Ω) (r : Except ε (List Resource)) (w' : World Ω) : Prop :=
  w' = w ∧ ((∃ s, w.ledger = some s ∧ r = .ok s.resources) ∨ ∃ e, r = .error e)

/-- What the operations of a run do. -/
def runSem (I : InnerSem S ε Ω) : Prog.Sem (runSig S) ε (World Ω)
  | .inner o, w, r, w' => I.sem o w r w'
  | .returned _ _, w, r, w' => r = .ok () ∧ w' = w
  | .mark walk node, w, r, w' => mutates I.late (walk.stamp node) w r w'
  | .setPhase phase, w, r, w' => mutates I.late (fun _ => .setPhase phase.name) w r w'
  | .readResources, w, r, w' => readsResources w r w'
  | .readRemaining, w, r, w' => readsResources w r w'
  | .release, w, _, w' => w' = w
  | .remove, w, r, w' => (Effective I.late r ∧ w' = { w with ledger := none }) ∨
      (¬ Effective I.late r ∧ w' = w)

/-- A program of the hooks' operations. -/
def onInner {α : Type} : Prog S ε α → Prog (runSig S) ε α
  | .ret a => .ret a
  | .raise e => .raise e
  | .call o k => .call (.inner o) fun r => onInner (k r)

def runOp (o : RunOp S.Op) : Prog (runSig S) ε ((runSig S).Res o) := Prog.perform (S := runSig S) o

end Semantics

/-! ### The walks -/

def defaultMaxWorkers : ℤ := 8

/-- How many workers to run for some items of work, given an optional cap. -/
def resolveWorkers (nItems : ℕ) (jobs : Option ℤ) : ℕ :=
  if nItems ≤ 1 then 1 else min (max (jobs.getD defaultMaxWorkers) 1).toNat nItems

section Walks

variable {S : Sig} {ε Ω ν : Type} [DecidableEq ν] {nodeName : ν → String}

/-- Run one node's hook and stamp its completion. -/
def runHook (walk : Walk) (node : String) (hook : Prog S ε Unit) : Prog (runSig S) ε Unit := do
  onInner hook
  runOp (.returned walk node)
  runOp (.mark walk node)

/-- The items of a wave. -/
def waveItems (walk : Walk) (wave : List ν) : List (Walk × ν) := wave.map fun n => (walk, n)

/-- Wave after wave. -/
def walkWaves (walk : Walk) (waves : List (List ν)) : MainProg (runSig S) (Walk × ν) ε Unit :=
  waves.forM fun wave => MainProg.fork (waveItems walk wave)

/-- The build walk.  The build infrastructure is torn down on every exit. -/
def materializeGraph (prepareKeys teardownBuildInfra : Prog S ε Unit)
    (g : BuildGraph ν nodeName) : MainProg (runSig S) (Walk × ν) ε Unit := do
  MainProg.lift (runOp (.setPhase .build))
  MainProg.lift (onInner prepareKeys)
  (walkWaves .materialize g.contentWaves).tryFinally (MainProg.lift (onInner teardownBuildInfra))

/-- The run walk. -/
def realizeGraph (g : BuildGraph ν nodeName) : MainProg (runSig S) (Walk × ν) ε Unit := do
  MainProg.lift (runOp (.setPhase .run))
  walkWaves .realize g.waves

/-- The machine of the walks: every item is a hook run by `runHook`. -/
def walkMachine (nodeName : ν → String) (I : InnerSem S ε Ω) (hooks : Walk → ν → Prog S ε Unit)
    (jobs : Option ℤ) : Machine (runSig S) (Walk × ν) ε (World Ω) where
  fn := fun i => runHook i.1 (nodeName i.2) (hooks i.1 i.2)
  workers := fun n => resolveWorkers n jobs
  sem := runSem I
  startOk := fun _ _ => True

end Walks

/-- A node carries the stamp of a walk in the state. -/
def State.Stamped (walk : Walk) (s : State) (node : String) : Prop :=
  ∃ rec, s.nodeRecord node = some rec ∧
    match walk with
    | .materialize => rec.materializedAt.isSome
    | .realize => rec.realizedAt.isSome

/-- A node carries the stamp of a walk in `state.json`. -/
def World.Stamped {Ω : Type} (walk : Walk) (w : World Ω) (node : String) : Prop :=
  ∃ s, w.ledger = some s ∧ s.Stamped walk node

/-! ### What is observed of a hook -/

namespace Walk

variable {S : Sig} {ε Ω ν : Type} [DecidableEq ν] {nodeName : ν → String}

/-- What is observed of one node's hook. -/
inductive Event (ε : Type)
  | start
  | returned
  | mark (r : Except ε Unit)
  | fin (r : Except ε Unit)

/-- What a label says about the hook `i`. -/
def view (i : Walk × ν) : Label (runSig S) (Walk × ν) ε → Option (Event ε)
  | .start j => if j = i then some .start else none
  | .op j (.returned _ _) _ => if j = i then some .returned else none
  | .op j (.mark _ _) r => if j = i then some (.mark r) else none
  | .fin j r => if j = i then some (.fin r) else none
  | _ => none

/-- The history of the hook `i`. -/
def events (i : Walk × ν) (log : List (Label (runSig S) (Walk × ν) ε)) : List (Event ε) :=
  log.filterMap (view i)

/-- `n` is scheduled in a later wave than `m`. -/
def Later (waves : List (List ν)) (m n : ν) : Prop :=
  ∃ before wave after, waves = before ++ wave :: after ∧ m ∈ before.flatten ∧ n ∈ wave

/-- A run of a walk is gated by the relation `needs` and the waves. -/
structure Gated (walk : Walk) (nodes : List ν) (nodeName : ν → String) (needs : ν → ν → Prop)
    (waves : List (List ν)) (w₀ : World Ω) (c : Proc (runSig S) (Walk × ν) ε (World Ω) Unit) :
    Prop where
  /-- A hook's own calls come after its start, and before it has returned or raised. -/
  inside : ∀ pre n o r post, c.log = pre ++ .op (walk, n) (.inner o) r :: post →
    events (walk, n) pre = [.start]
  /-- A hook starts only after those of all transitive dependencies have returned. -/
  ready : ∀ pre n post, c.log = pre ++ .start (walk, n) :: post →
    ∀ m, Relation.TransGen needs n m → .returned ∈ events (walk, m) pre
  /-- Once a hook has raised, no node of a later wave ever starts. -/
  halted : ∀ m n, Later waves m n → .start ∈ events (walk, n) c.log →
    ∀ e, .fin (.error e) ∉ events (walk, m) c.log
  /-- The walk raises only after every hook that was started has finished. -/
  drained : ∀ e, c.main = .raise e → ∀ n, .start ∈ events (walk, n) c.log →
    ∃ r, .fin r ∈ events (walk, n) c.log
  /-- At the end, if no stamp failed to be written, the nodes stamped since the start
  are those whose hook returned. -/
  stamped : (c.main = .ret () ∨ ∃ e, c.main = .raise e) →
    (∀ n e, .mark (.error e) ∉ events (walk, n) c.log) →
    ∀ n ∈ nodes, c.world.Stamped walk (nodeName n) ↔
      w₀.Stamped walk (nodeName n) ∨ .returned ∈ events (walk, n) c.log

/-! ### Stamps -/

theorem nodeRecord_withNodeRecord (s : State) (rec : NodeRecord) (node : String) :
    (s.withNodeRecord rec).nodeRecord node =
      if rec.name = node then some rec else s.nodeRecord node := by
  rw [State.nodeRecord, State.withNodeRecord, List.find?_append, List.find?_filter]
  by_cases h : rec.name = node
  · have hnone : s.nodes.find? (fun _ => false) = none := List.find?_eq_none.mpr (by simp)
    simp [h, hnone]
  · have hsame : s.nodes.find? (fun n => !decide (n.name = rec.name) && decide (n.name = node)) =
        s.nodes.find? (fun n => decide (n.name = node)) := by
      congr 1
      funext n
      by_cases hn : n.name = node
      · simp [hn, Ne.symm h]
      · simp [hn]
    simp [hsame, h, State.nodeRecord]

theorem name_getD_nodeRecord (s : State) (node : String) :
    ((s.nodeRecord node).getD ⟨node, none, none⟩).name = node := by
  cases h : s.nodeRecord node with
  | none => rfl
  | some rec =>
    have := List.find?_some h
    simpa using this

/-- Stamping a node stamps it and no other. -/
theorem stamped_stamp {walk : Walk} {node now : String} {s s' : State}
    (h : (walk.stamp node now).apply s = .ok s') (name : String) :
    s'.Stamped walk name ↔ s.Stamped walk name ∨ name = node := by
  have hname := name_getD_nodeRecord s node
  cases walk with
  | materialize =>
    cases h
    simp only [State.Stamped, nodeRecord_withNodeRecord, hname]
    by_cases hn : node = name
    · simp [hn]
    · simp [hn, Ne.symm hn]
  | realize =>
    cases h
    simp only [State.Stamped, nodeRecord_withNodeRecord, hname]
    by_cases hn : node = name
    · simp [hn]
    · simp [hn, Ne.symm hn]

/-- Only the node records matter. -/
theorem stamped_congr {walk : Walk} {w w' : World Ω}
    (h : w'.ledger.map State.nodes = w.ledger.map State.nodes) (name : String) :
    w'.Stamped walk name ↔ w.Stamped walk name := by
  have hrec : ∀ s s' : State, s'.nodes = s.nodes →
      (s'.Stamped walk name ↔ s.Stamped walk name) := by
    intro s s' hs
    simp only [State.Stamped, State.nodeRecord, hs]
  unfold World.Stamped
  cases hl : w.ledger with
  | none =>
    cases hl' : w'.ledger with
    | none => simp
    | some s' => rw [hl, hl'] at h; cases h
  | some s =>
    cases hl' : w'.ledger with
    | none => rw [hl, hl'] at h; cases h
    | some s' =>
      rw [hl, hl'] at h
      simp [hrec s s' (Option.some.inj h)]

/-! ### The invariant of a walk -/

/-- How far a worker is with its hook. -/
inductive HookPos
  | inside
  | returned
  | stamped
  /-- The stamp raised. -/
  | failed

/-- What has been observed of a hook, by how far it is. -/
def Fits : Ghost HookPos ε → List (Event ε) → Prop
  | .idle, es => es = []
  | .active .inside, es => es = [.start]
  | .active .returned, es => es = [.start, .returned]
  | .active .stamped, es => es = [.start, .returned, .mark (.ok ())]
  | .active .failed, es => ∃ e, es = [.start, .returned, .mark (.error e)]
  | .done (.ok _), es => es = [.start, .returned, .mark (.ok ()), .fin (.ok ())]
  | .done (.error e), es => es = [.start, .fin (.error e)] ∨
      ∃ e', es = [.start, .returned, .mark (.error e'), .fin (.error e)]

/-- How far the main thread is: past some waves, or past a wave that raised. -/
inductive Place (ν : Type)
  | reached (past : List (List ν))
  | stopped

/-- What the place of the main thread says about the workers. -/
def Progress (walk : Walk) (waves : List (List ν)) (ts : Walk × ν → Ghost HookPos ε) :
    Place ν → Option (List (Walk × ν)) → Prop
  | .reached past, none => (∀ n ∈ past.flatten, ts (walk, n) = .done (.ok ())) ∧
      ∀ n ∉ past.flatten, ts (walk, n) = .idle
  | .reached past, some items => ∃ wave rest, waves = past ++ wave :: rest ∧
      items = waveItems walk wave ∧ (∀ n ∈ past.flatten, ts (walk, n) = .done (.ok ())) ∧
      ∀ n ∉ past.flatten, n ∉ wave → ts (walk, n) = .idle
  | .stopped, none => True
  | .stopped, some _ => False

/-- Every start comes after all earlier waves. -/
def Ordered (walk : Walk) (waves : List (List ν)) (log : List (Label (runSig S) (Walk × ν) ε)) :
    Prop :=
  ∀ pre n post, log = pre ++ .start (walk, n) :: post →
    ∀ m, Later waves m n → .returned ∈ events (walk, m) pre ∧ .fin (.ok ()) ∈ events (walk, m) pre

/-- Every call of a hook is made after its start and before anything else is observed of it. -/
def Inside (log : List (Label (runSig S) (Walk × ν) ε)) : Prop :=
  ∀ pre i o r post, log = pre ++ .op i (.inner o) r :: post → events i pre = [.start]

/-- The stamps are those of the start and those written since. -/
def Stamps (walk : Walk) (nodeName : ν → String) (w₀ w : World Ω)
    (log : List (Label (runSig S) (Walk × ν) ε)) : Prop :=
  (∀ n e, .mark (.error e) ∉ events (walk, n) log) → ∀ name, w.Stamped walk name ↔
    w₀.Stamped walk name ∨ ∃ n, nodeName n = name ∧ .mark (.ok ()) ∈ events (walk, n) log

/-- The invariant of a walk. -/
structure Inv (walk : Walk) (nodeName : ν → String) (waves : List (List ν)) (w₀ w : World Ω)
    (log : List (Label (runSig S) (Walk × ν) ε)) (place : Place ν)
    (cur : Option (List (Walk × ν))) (ts : Walk × ν → Ghost HookPos ε) : Prop where
  fits : ∀ n, Fits (ts (walk, n)) (events (walk, n) log)
  known : ∀ i, ts i ≠ .idle → i.1 = walk ∧ i.2 ∈ waves.flatten
  inside : Inside log
  ordered : Ordered walk waves log
  progress : Progress walk waves ts place cur
  stamps : Stamps walk nodeName w₀ w log

@[simp] theorem events_nil (i : Walk × ν) :
    events i ([] : List (Label (runSig S) (Walk × ν) ε)) = [] := rfl

theorem events_concat (i : Walk × ν) (log : List (Label (runSig S) (Walk × ν) ε))
    (l : Label (runSig S) (Walk × ν) ε) :
    events i (log ++ [l]) = events i log ++ (view i l).toList := by
  rw [events, List.filterMap_append]
  cases h : view i l <;> simp [events, h]

theorem Ordered.concat {walk : Walk} {waves : List (List ν)}
    {log : List (Label (runSig S) (Walk × ν) ε)} {l : Label (runSig S) (Walk × ν) ε}
    (h : Ordered walk waves log) (hl : ∀ n, l = .start (walk, n) →
      ∀ m, Later waves m n →
        .returned ∈ events (walk, m) log ∧ .fin (.ok ()) ∈ events (walk, m) log) :
    Ordered walk waves (log ++ [l]) := by
  intro pre n post heq m hm
  rcases List.eq_nil_or_concat post with rfl | ⟨post', x, rfl⟩
  · obtain ⟨rfl, hx⟩ := List.append_inj' heq rfl
    exact hl n (by simpa using hx) m hm
  · have heq' : log ++ [l] = (pre ++ .start (walk, n) :: post') ++ [x] := by simpa using heq
    obtain ⟨hlog, -⟩ := List.append_inj' heq' rfl
    exact h pre n post' hlog m hm

theorem Inside.concat {log : List (Label (runSig S) (Walk × ν) ε)}
    {l : Label (runSig S) (Walk × ν) ε} (h : Inside log)
    (hl : ∀ i o r, l = .op i (.inner o) r → events i log = [.start]) : Inside (log ++ [l]) := by
  intro pre i o r post heq
  rcases List.eq_nil_or_concat post with rfl | ⟨post', x, rfl⟩
  · obtain ⟨rfl, hx⟩ := List.append_inj' heq rfl
    exact hl i o r (by simpa using hx)
  · have heq' : log ++ [l] = (pre ++ .op i (.inner o) r :: post') ++ [x] := by simpa using heq
    obtain ⟨hlog, -⟩ := List.append_inj' heq' rfl
    exact h pre i o r post' hlog

omit [DecidableEq ν] in
/-- The waves before the one of `n` are told by `n`. -/
theorem past_eq_of_mem {waves past before rest after : List (List ν)} {wave wave' : List ν} {n : ν}
    (hnd : waves.flatten.Nodup) (h : waves = past ++ wave :: rest)
    (h' : waves = before ++ wave' :: after) (hn : n ∈ wave) (hn' : n ∈ wave') : before = past := by
  subst h
  rw [List.flatten_append, List.flatten_cons] at hnd
  obtain ⟨-, htail, hdisj⟩ := List.nodup_append'.mp hnd
  have hdisj' := (List.nodup_append'.mp htail).2.2
  rcases List.append_eq_append_iff.mp h' with ⟨mid, rfl, hmid⟩ | ⟨mid, rfl, hmid⟩
  · rcases mid with _ | ⟨v, mid⟩
    · simp
    · -- `wave` would be before `wave'`, so `n` would be in two waves.
      have hrest : rest = mid ++ wave' :: after := by simpa using (List.cons.inj hmid).2
      have : n ∈ rest.flatten := List.mem_flatten.mpr ⟨wave', by simp [hrest], hn'⟩
      exact absurd this (hdisj' hn)
  · rcases mid with _ | ⟨v, mid⟩
    · simp
    · have hv : wave' = v := (List.cons.inj hmid).1
      have hmem : n ∈ (before ++ v :: mid).flatten :=
        List.mem_flatten.mpr ⟨v, by simp, hv ▸ hn'⟩
      exact absurd (List.mem_append_left _ hn) (hdisj hmem)

omit [DecidableEq ν] in
theorem not_mem_past {waves past rest : List (List ν)} {wave : List ν} {n : ν}
    (hnd : waves.flatten.Nodup) (h : waves = past ++ wave :: rest) (hn : n ∈ wave) :
    n ∉ past.flatten := by
  subst h
  rw [List.flatten_append] at hnd
  intro hp
  exact (List.nodup_append'.mp hnd).2.2 hp (by simp [hn])

/-! ### The walk keeps its invariant -/

/-- What a worker may do at each point of its hook. -/
def hookLogic (nodeName : ν → String) (i : Walk × ν) : Prog.Logic (runSig S) ε HookPos where
  ok
    | .inner _, pos => pos = .inside
    | .returned walk node, pos => pos = .inside ∧ walk = i.1 ∧ node = nodeName i.2
    | .mark walk node, pos => pos = .returned ∧ walk = i.1 ∧ node = nodeName i.2
    | _, _ => False
  next
    | .returned _ _, _, .ok _, pos' => pos' = .returned
    | .returned _ _, _, .error _, _ => False
    | .mark _ _, _, .ok _, pos' => pos' = .stamped
    | .mark _ _, _, .error _, pos' => pos' = .failed
    | _, pos, _, pos' => pos' = pos

/-- What the main thread may do. -/
def mainLogic (walk : Walk) (waves : List (List ν)) :
    Prog.Logic ((runSig S).withFork (Walk × ν)) ε (Place ν) where
  ok
    | .inl (.inner _), _ => True
    | .inl (.setPhase _), _ => True
    | .inl _, _ => False
    | .inr items, place => ∃ past wave rest, place = .reached past ∧
        waves = past ++ wave :: rest ∧ items = waveItems walk wave
  next
    | .inl _, place, _, place' => place' = place
    | .inr _, place, .ok _, place' => ∃ past wave rest, place = .reached past ∧
        waves = past ++ wave :: rest ∧ place' = .reached (past ++ [wave])
    | .inr _, _, .error _, place' => place' = .stopped

omit [DecidableEq ν] in
/-- A hook runs inside. -/
theorem wp_runHook {nodeName : ν → String} {i : Walk × ν} (hook : Prog S ε Unit) :
    (runHook i.1 (nodeName i.2) hook).wp (hookLogic nodeName i) (fun _ pos => pos = .stamped)
      (fun _ pos => pos = .inside ∨ pos = .failed) .inside := by
  have hinner : ∀ p : Prog S ε Unit, (onInner p).wp (hookLogic nodeName i)
      (fun _ pos => pos = .inside) (fun _ pos => pos = .inside) .inside := by
    intro p
    induction p with
    | ret a => rfl
    | raise e => rfl
    | call o k ih => exact ⟨rfl, fun r pos hpos => by cases hpos; exact ih r⟩
  simp only [runHook, Prog.bind_eq_bind, Prog.wp_bind]
  refine Prog.wp_mono (fun _ pos hpos => ?_) (fun _ pos hpos => .inl hpos) (hinner hook)
  cases hpos
  refine ⟨⟨rfl, rfl, rfl⟩, ?_⟩
  rintro (e | a) pos hpos
  · exact hpos.elim
  · cases hpos
    refine ⟨⟨rfl, rfl, rfl⟩, ?_⟩
    rintro (e | a) pos hpos
    · exact .inr hpos
    · exact hpos

section Keeps

variable {walk : Walk} {waves : List (List ν)} {w₀ w w' : World Ω}
  {log : List (Label (runSig S) (Walk × ν) ε)} {place : Place ν} {cur : Option (List (Walk × ν))}
  {ts : Walk × ν → Ghost HookPos ε} {l : Label (runSig S) (Walk × ν) ε}

/-- A label that says nothing of a stamp keeps the stamps where the node records are
kept. -/
theorem Stamps.concat (h : Stamps walk nodeName w₀ w log)
    (hl : ∀ i r, view i l ≠ some (.mark r))
    (hw : w'.ledger.map State.nodes = w.ledger.map State.nodes) :
    Stamps walk nodeName w₀ w' (log ++ [l]) := by
  have hmark : ∀ n r, .mark r ∈ events (walk, n) (log ++ [l]) ↔ .mark r ∈ events (walk, n) log := by
    intro n r
    rw [events_concat, List.mem_append, or_iff_left]
    intro hmem
    exact hl (walk, n) r (Option.mem_toList.mp hmem)
  intro hno name
  rw [stamped_congr hw, h (fun n e hmem => hno n e ((hmark n _).mpr hmem))]
  simp only [hmark]

/-- A stamp that is written is one more stamp. -/
theorem Stamps.mark {n : ν} {r : Except ε Unit} {late : ε → Bool}
    (h : Stamps walk nodeName w₀ w log) (hw : mutates late (walk.stamp (nodeName n)) w r w') :
    Stamps walk nodeName w₀ w'
      (log ++ [.op (walk, n) (RunOp.mark walk (nodeName n)) r]) := by
  have hmark : ∀ m r', .mark r' ∈ events (walk, m)
      (log ++ [.op (walk, n) (RunOp.mark walk (nodeName n)) r]) ↔
        .mark r' ∈ events (walk, m) log ∨ m = n ∧ r' = r := by
    intro m r'
    rw [events_concat, List.mem_append, view]
    refine or_congr Iff.rfl ?_
    by_cases hmn : n = m
    · simp [hmn]
    · simp [hmn, Ne.symm hmn]
  intro hno name
  rcases hw with ⟨-, s, now, s', hs, happly, rfl⟩ | ⟨hno', -⟩
  · have hold := h (fun m e hmem => hno m e ((hmark m _).mpr (.inl hmem))) name
    have hr : r = .ok () := by
      cases hr : r with
      | ok a => rfl
      | error e => exact absurd ((hmark n (.error e)).mpr (.inr ⟨rfl, hr.symm⟩)) (hno n e)
    have hnew : World.Stamped walk { w with ledger := some s' } name ↔
        World.Stamped walk w name ∨ name = nodeName n := by
      simp [World.Stamped, hs, stamped_stamp happly name]
    rw [hnew, hold, or_assoc]
    refine or_congr Iff.rfl ⟨?_, ?_⟩
    · rintro (⟨m, hm, hmem⟩ | rfl)
      · exact ⟨m, hm, (hmark m _).mpr (.inl hmem)⟩
      · exact ⟨n, rfl, (hmark n _).mpr (.inr ⟨rfl, hr.symm⟩)⟩
    · rintro ⟨m, hm, hmem⟩
      rcases (hmark m _).mp hmem with hmem | ⟨rfl, -⟩
      · exact .inl ⟨m, hm, hmem⟩
      · exact .inr hm.symm
  · cases r with
    | ok a => exact absurd trivial hno'
    | error e => exact absurd ((hmark n (.error e)).mpr (.inr ⟨rfl, rfl⟩)) (hno n e)

/-- A step that is not observed of any hook. -/
theorem Inv.silent (h : Inv walk nodeName waves w₀ w log place cur ts)
    (hview : ∀ i, view i l = none) (hw : w'.ledger.map State.nodes = w.ledger.map State.nodes)
    (hinner : ∀ i o r, l = .op i (.inner o) r → events i log = [.start])
    {place' : Place ν} {cur' : Option (List (Walk × ν))} (hp : Progress walk waves ts place' cur') :
    Inv walk nodeName waves w₀ w' (log ++ [l]) place' cur' ts where
  fits := fun n => by
    rw [events_concat, hview, Option.toList_none, List.append_nil]
    exact h.fits n
  known := h.known
  inside := h.inside.concat hinner
  ordered := h.ordered.concat fun n hn => by
    have := hview (walk, n)
    rw [hn] at this
    simp [view] at this
  progress := hp
  stamps := h.stamps.concat (fun i r hr => by rw [hview] at hr; cases hr) hw

/-- A step that is observed of the hook `i`, which is in the wave being run. -/
theorem Inv.observed {items : List (Walk × ν)} {i : Walk × ν} {v : Event ε}
    {g : Ghost HookPos ε} (hnd : waves.flatten.Nodup) (h : Inv walk nodeName waves w₀ w log place (some items) ts)
    (hi : i ∈ items) (hview : ∀ j, view j l = if i = j then some v else none)
    (hfits : Fits g (events i log ++ [v])) (hordered : Ordered walk waves (log ++ [l]))
    (hstamps : Stamps walk nodeName w₀ w' (log ++ [l])) :
    Inv walk nodeName waves w₀ w' (log ++ [l]) place (some items) (Function.update ts i g) := by
  cases place with
  | stopped => exact h.progress.elim
  | reached past =>
    obtain ⟨wave, rest, hw, rfl, hpast, hrest⟩ := h.progress
    obtain ⟨n, hn, rfl⟩ := List.mem_map.mp hi
    have hmem : n ∈ waves.flatten := by
      rw [hw]
      exact List.mem_flatten.mpr ⟨wave, by simp, hn⟩
    have hnew : n ∉ past.flatten := not_mem_past hnd hw hn
    -- Nothing changes for the other nodes.
    have hother : ∀ m, m ≠ n → Function.update ts (walk, n) g (walk, m) = ts (walk, m) := by
      intro m hm
      exact Function.update_of_ne (fun heq => hm (Prod.mk.inj heq).2) _ _
    -- What is observed is no call of a hook.
    have hinside : Inside (log ++ [l]) := h.inside.concat fun j o r hl => by
      have hseen := hview (walk, n)
      rw [hl, if_pos rfl] at hseen
      cases hseen
    refine ⟨fun m => ?_, fun j hj => ?_, hinside, hordered, ⟨wave, rest, hw, rfl, ?_, ?_⟩, hstamps⟩
    · rw [events_concat, hview]
      by_cases hm : m = n
      · subst hm
        rw [Function.update_self, if_pos rfl]
        exact hfits
      · rw [hother m hm, if_neg (fun heq => hm (Prod.mk.inj heq).2.symm), Option.toList_none,
          List.append_nil]
        exact h.fits m
    · by_cases hjn : j = (walk, n)
      · rw [hjn]
        exact ⟨rfl, hmem⟩
      · rw [Function.update_of_ne hjn] at hj
        exact h.known j hj
    · intro m hm
      rw [hother m (fun heq => hnew (heq ▸ hm))]
      exact hpast m hm
    · intro m hm hmw
      rw [hother m (fun heq => hmw (heq ▸ hn))]
      exact hrest m hm hmw

/-- Where the waves are run, what is before them is over. -/
theorem Inv.over_of_later {items : List (Walk × ν)} {n m : ν} (hnd : waves.flatten.Nodup)
    (h : Inv walk nodeName waves w₀ w log place (some items) ts) (hn : (walk, n) ∈ items)
    (hm : Later waves m n) :
    .returned ∈ events (walk, m) log ∧ .fin (.ok ()) ∈ events (walk, m) log := by
  cases place with
  | stopped => exact h.progress.elim
  | reached past =>
    obtain ⟨wave, rest, hw, rfl, hpast, -⟩ := h.progress
    obtain ⟨n', hn', heq⟩ := List.mem_map.mp hn
    obtain ⟨before, wave', after, hw', hmb, hnw⟩ := hm
    have hnn : n' = n := (Prod.mk.inj heq).2
    subst hnn
    have hbefore := past_eq_of_mem hnd hw hw' hn' hnw
    subst hbefore
    have hfits := h.fits m
    rw [hpast m hmb] at hfits
    rw [show events (walk, m) log = _ from hfits]
    simp

theorem Inv.mem_items {items : List (Walk × ν)} {i : Walk × ν}
    (h : Inv walk nodeName waves w₀ w log place (some items) ts) (hi : i ∈ items) :
    ∃ n, i = (walk, n) := by
  cases place with
  | stopped => exact h.progress.elim
  | reached past =>
    obtain ⟨wave, rest, -, rfl, -, -⟩ := h.progress
    obtain ⟨n, -, rfl⟩ := List.mem_map.mp hi
    exact ⟨n, rfl⟩

/-- What a worker observes next. -/
theorem Inv.task_op {items : List (Walk × ν)} {i : Walk × ν} {pos : HookPos}
    {I : InnerSem S ε Ω} {o : (runSig S).Op} {r : Except ε ((runSig S).Res o)}
    (hnd : waves.flatten.Nodup) (h : Inv walk nodeName waves w₀ w log place (some items) ts)
    (hi : i ∈ items) (hpos : ts i = .active pos) (hok : (hookLogic (ε := ε) nodeName i).ok o pos)
    (hsem : runSem I o w r w') :
    ∃ pos', (hookLogic nodeName i).next o pos r pos' ∧
      Inv walk nodeName waves w₀ w' (log ++ [.op i o r]) place (some items)
        (Function.update ts i (.active pos')) := by
  obtain ⟨n, rfl⟩ := h.mem_items hi
  have hfits := h.fits n
  rw [hpos] at hfits
  have hordered : Ordered walk waves (log ++ [.op (walk, n) o r]) :=
    h.ordered.concat fun m hm => nomatch hm
  cases o with
  | inner o =>
    refine ⟨pos, rfl, ?_⟩
    rw [Discipline.update_eq_self_of_eq hpos]
    refine h.silent (fun j => rfl) (I.nodes_eq hsem) (fun j o' r' hl => ?_) h.progress
    cases hl
    rw [show pos = .inside from hok] at hfits
    exact hfits
  | returned walk' node =>
    -- The ledger is as it was, so the stamps are those of before.
    obtain ⟨rfl, hwalk, rfl⟩ := hok
    obtain ⟨rfl, rfl⟩ := hsem
    refine ⟨.returned, rfl, h.observed hnd hi (fun j => rfl) ?_ hordered ?_⟩
    · show _ = _
      rw [show events (walk, n) log = _ from hfits]
      rfl
    · exact h.stamps.concat (fun j r hr => by simp only [view] at hr; split_ifs at hr; cases hr) rfl
  | mark walk' node =>
    obtain ⟨rfl, hwalk, rfl⟩ := hok
    subst hwalk
    have hstamps := h.stamps.mark hsem
    cases r with
    | ok a =>
      refine ⟨.stamped, rfl, h.observed hnd hi (fun j => rfl) ?_ hordered hstamps⟩
      show _ = _
      rw [show events (walk', n) log = _ from hfits]
      rfl
    | error e =>
      refine ⟨.failed, rfl, h.observed hnd hi (fun j => rfl) ⟨e, ?_⟩ hordered hstamps⟩
      rw [show events (walk', n) log = _ from hfits]
      rfl
  | setPhase phase => exact hok.elim
  | readResources => exact hok.elim
  | readRemaining => exact hok.elim
  | release => exact hok.elim
  | remove => exact hok.elim

theorem Inv.finish {items : List (Walk × ν)} {i : Walk × ν} {pos : HookPos} {r : Except ε Unit}
    (hnd : waves.flatten.Nodup) (h : Inv walk nodeName waves w₀ w log place (some items) ts)
    (hi : i ∈ items) (hpos : ts i = .active pos) (hret : r = .ok () → pos = .stamped)
    (hexc : ∀ e, r = .error e → pos = .inside ∨ pos = .failed) :
    Inv walk nodeName waves w₀ w (log ++ [.fin i r]) place (some items)
      (Function.update ts i (.done r)) := by
  obtain ⟨n, rfl⟩ := h.mem_items hi
  have hfits := h.fits n
  rw [hpos] at hfits
  have hordered : Ordered walk waves (log ++ [.fin (walk, n) r]) :=
    h.ordered.concat fun m hm => nomatch hm
  have hstamps : Stamps walk nodeName w₀ w (log ++ [.fin (walk, n) r]) :=
    h.stamps.concat (fun j r hr => by simp only [view] at hr; split_ifs at hr; cases hr) rfl
  refine h.observed hnd hi (v := .fin r) (fun j => rfl) ?_ hordered hstamps
  cases r with
  | ok a =>
    rw [hret rfl] at hfits
    show _ = _
    rw [show events (walk, n) log = _ from hfits]
    rfl
  | error e =>
    rcases hexc e rfl with rfl | rfl
    · refine .inl ?_
      rw [show events (walk, n) log = _ from hfits]
      rfl
    · obtain ⟨e', he'⟩ := hfits
      refine .inr ⟨e', ?_⟩
      rw [he']
      rfl

theorem Inv.main_op {I : InnerSem S ε Ω} {o : (runSig S).Op} {r : Except ε ((runSig S).Res o)}
    (h : Inv walk nodeName waves w₀ w log place none ts)
    (hok : (mainLogic (ε := ε) walk waves).ok (.inl o) place) (hsem : runSem I o w r w') :
    Inv walk nodeName waves w₀ w' (log ++ [.main o r]) place none ts := by
  cases o with
  | inner o =>
    exact h.silent (fun j => rfl) (I.nodes_eq hsem) (fun _ _ _ hl => by cases hl) h.progress
  | setPhase phase =>
    refine h.silent (fun j => rfl) ?_ (fun _ _ _ hl => by cases hl) h.progress
    rcases hsem with ⟨-, s, now, s', hs, happly, rfl⟩ | ⟨-, rfl⟩
    · cases happly
      simp [hs]
    · rfl
  | returned walk' node => exact hok.elim
  | mark walk' node => exact hok.elim
  | readResources => exact hok.elim
  | readRemaining => exact hok.elim
  | release => exact hok.elim
  | remove => exact hok.elim

/-- The main thread enters a wave. -/
theorem Inv.fork {items : List (Walk × ν)} (hnd : waves.flatten.Nodup)
    (h : Inv walk nodeName waves w₀ w log place none ts)
    (hok : (mainLogic (S := S) (ε := ε) walk waves).ok (.inr items) place) :
    (∀ i ∈ items, ts i = .idle) ∧
      Inv walk nodeName waves w₀ w (log ++ [.fork items]) place (some items) ts := by
  obtain ⟨past, wave, rest, rfl, hw, rfl⟩ := hok
  obtain ⟨hpast, hrest⟩ := h.progress
  refine ⟨fun i hi => ?_, h.silent (fun j => rfl) rfl (fun _ _ _ hl => by cases hl) ?_⟩
  · obtain ⟨n, hn, rfl⟩ := List.mem_map.mp hi
    exact hrest n (not_mem_past hnd hw hn)
  · exact ⟨wave, rest, hw, rfl, hpast, fun n hn _ => hrest n hn⟩

/-- The main thread leaves a wave. -/
theorem Inv.join {items : List (Walk × ν)} {r : Except ε Unit}
    (h : Inv walk nodeName waves w₀ w log place (some items) ts)
    (hret : r = .ok () → ∀ i ∈ items, ts i = .done (.ok ())) :
    ∃ place', (mainLogic (S := S) (ε := ε) walk waves).next (.inr items) place r place' ∧
      Inv walk nodeName waves w₀ w (log ++ [.join r]) place' none ts := by
  cases place with
  | stopped => exact h.progress.elim
  | reached past =>
    obtain ⟨wave, rest, hw, rfl, hpast, hrest⟩ := h.progress
    cases r with
    | error e =>
      exact ⟨.stopped, rfl, h.silent (fun j => rfl) rfl (fun _ _ _ hl => by cases hl) trivial⟩
    | ok a =>
      refine ⟨.reached (past ++ [wave]), ⟨past, wave, rest, rfl, hw, rfl⟩,
        h.silent (fun j => rfl) rfl (fun _ _ _ hl => by cases hl)
          ⟨fun n hn => ?_, fun n hn => ?_⟩⟩
      · rw [List.flatten_concat, List.mem_append] at hn
        rcases hn with hn | hn
        · exact hpast n hn
        · exact hret rfl _ (List.mem_map_of_mem hn)
      · rw [List.flatten_concat, List.mem_append, not_or] at hn
        exact hrest n hn.1 hn.2

end Keeps

/-- The machine of the walks keeps the invariant of a walk. -/
def discipline (walk : Walk) {waves : List (List ν)} (hnd : waves.flatten.Nodup) (w₀ : World Ω)
    (I : InnerSem S ε Ω) (hooks : Walk → ν → Prog S ε Unit) (jobs : Option ℤ) :
    Discipline (walkMachine nodeName I hooks jobs) (Place ν) HookPos where
  mainLogic := mainLogic walk waves
  taskLogic := hookLogic nodeName
  taskRet := fun _ pos => pos = .stamped
  taskExc := fun _ _ pos => pos = .inside ∨ pos = .failed
  init := fun _ => .inside
  Inv := Inv walk nodeName waves w₀
  main_op := fun h _ hok hsem => ⟨_, rfl, h.main_op hok hsem⟩
  fork := fun h _ hok => h.fork hnd hok
  start := by
    intro w log place ts items i h hi hidle _
    refine ⟨wp_runHook _, ?_⟩
    obtain ⟨n, rfl⟩ := h.mem_items hi
    have hfits := h.fits n
    rw [hidle] at hfits
    refine h.observed hnd hi (v := .start) (fun j => rfl) ?_ (h.ordered.concat ?_) ?_
    · show _ = _
      rw [show events (walk, n) log = _ from hfits]
      rfl
    · intro n' hn' m hm
      cases hn'
      exact h.over_of_later hnd hi hm
    · exact h.stamps.concat (fun j r hr => by simp only [view] at hr; split_ifs at hr; cases hr) rfl
  task_op := fun h hi hpos hok hsem => h.task_op hnd hi hpos hok hsem
  finish := fun h hi hpos hret hexc => h.finish hnd hi hpos hret hexc
  tick := fun h => h.silent (fun j => rfl) rfl (fun _ _ _ hl => by cases hl) h.progress
  join := fun h _ _ hret _ => h.join hret

omit [DecidableEq ν] in
/-- The loop over the waves. -/
theorem wp_walkWaves {walk : Walk} {waves : List (List ν)} :
    (walkWaves walk waves : MainProg (runSig S) (Walk × ν) ε Unit).wp (mainLogic walk waves)
      (fun _ _ => True) (fun _ _ => True) (.reached []) := by
  refine Prog.wp_forM (fun past place => place = .reached past) ?_ (fun _ _ => trivial) rfl
  rintro past wave rest hw place rfl
  refine ⟨⟨past, wave, rest, rfl, hw, rfl⟩, ?_⟩
  rintro (e | a) place' hnext
  · trivial
  · obtain ⟨past', wave', rest', hplace, hw', rfl⟩ := hnext
    cases hplace
    rw [hw] at hw'
    cases List.append_cancel_left hw'
    rfl

omit [DecidableEq ν] in
/-- Plain operations of the main thread leave the place as it is. -/
theorem wp_lift_onInner {α : Type} {walk : Walk} {waves : List (List ν)} (p : Prog S ε α)
    {Q : α → Place ν → Prop} {E : ε → Place ν → Prop} {place : Place ν} (hQ : ∀ a, Q a place)
    (hE : ∀ e, E e place) :
    (MainProg.lift (onInner p) : MainProg (runSig S) (Walk × ν) ε α).wp (mainLogic walk waves)
      Q E place := by
  induction p with
  | ret a => exact hQ a
  | raise e => exact hE e
  | call o k ih => exact ⟨trivial, fun r place' hplace => by cases hplace; exact ih r⟩

omit [DecidableEq ν] in
theorem wp_lift_setPhase {walk : Walk} {waves : List (List ν)} {phase : Phase}
    {Q : Unit → Place ν → Prop} {E : ε → Place ν → Prop} {place : Place ν} (hQ : Q () place)
    (hE : ∀ e, E e place) :
    (MainProg.lift (runOp (.setPhase phase)) : MainProg (runSig S) (Walk × ν) ε Unit).wp
      (mainLogic walk waves) Q E place := by
  refine ⟨trivial, ?_⟩
  rintro (e | a) place' rfl
  · exact hE e
  · exact hQ

/-! ### Gating -/

theorem Fits.fin_error {g : Ghost HookPos ε} {es : List (Event ε)} (h : Fits g es)
    (hok : .fin (.ok ()) ∈ es) (e : ε) : .fin (.error e) ∉ es := by
  rcases g with _ | (_ | _ | _ | _) | (e' | a)
  case done.error => rcases h with rfl | ⟨e₁, rfl⟩ <;> simp at hok
  case done.ok => simp [show es = _ from h]
  case active.failed =>
    obtain ⟨e₁, rfl⟩ := h
    simp at hok
  all_goals simp [show es = _ from h] at hok

theorem Fits.ne_idle {g : Ghost HookPos ε} {es : List (Event ε)} (h : Fits g es)
    (hstart : .start ∈ es) : g ≠ .idle := by
  rintro rfl
  simp [show es = [] from h] at hstart

theorem Fits.fin_mem {r : Except ε Unit} {es : List (Event ε)} (h : Fits (.done r) es) :
    .fin r ∈ es := by
  rcases r with e | a
  · rcases h with rfl | ⟨e₁, rfl⟩ <;> simp
  · simp [show es = _ from h]

/-- What has returned is stamped, unless the stamp failed. -/
theorem Fits.returned_iff {g : Ghost HookPos ε} {es : List (Event ε)} (h : Fits g es)
    (hquiet : ∀ pos, g ≠ .active pos) (hno : ∀ e, .mark (.error e) ∉ es) :
    .returned ∈ es ↔ .mark (.ok ()) ∈ es := by
  rcases g with _ | pos | (e | a)
  · simp [show es = [] from h]
  · exact absurd rfl (hquiet pos)
  · rcases h with rfl | ⟨e₁, rfl⟩
    · simp
    · exact absurd (by simp) (hno e₁)
  · simp [show es = _ from h]

omit [DecidableEq ν] in
theorem mem_log_of_start [DecidableEq ν] {i : Walk × ν}
    {log : List (Label (runSig S) (Walk × ν) ε)} (h : .start ∈ events i log) :
    ∃ pre post, log = pre ++ .start i :: post := by
  obtain ⟨l, hl, hview⟩ := List.mem_filterMap.mp h
  have hstart : l = .start i := by
    cases l with
    | start j =>
      simp only [view] at hview
      split_ifs at hview with hj
      rw [hj]
    | op j o r => cases o <;> (simp only [view] at hview; try split_ifs at hview) <;> cases hview
    | fin j r =>
      simp only [view] at hview
      split_ifs at hview
      cases hview
    | _ => cases hview
  obtain ⟨pre, post, hlog⟩ := List.append_of_mem hl
  exact ⟨pre, post, by rw [hlog, hstart]⟩

/-- A program that walks some waves in order is gated by whatever the waves respect. -/
theorem gated_run {walk : Walk} {nodes : List ν} {needs : ν → ν → Prop}
    {waves : List (List ν)} (hnd : waves.flatten.Nodup) (hnodes : ∀ n, n ∈ waves.flatten → n ∈ nodes)
    (hinj : ∀ n ∈ nodes, ∀ m ∈ nodes, nodeName n = nodeName m → n = m)
    (hneeds : ∀ before wave after, waves = before ++ wave :: after → ∀ n ∈ wave,
      ∀ m, Relation.TransGen needs n m → m ∈ before.flatten)
    {I : InnerSem S ε Ω} {hooks : Walk → ν → Prog S ε Unit} {jobs : Option ℤ} {w : World Ω}
    {main : MainProg (runSig S) (Walk × ν) ε Unit}
    (hmain : main.wp (mainLogic walk waves) (fun _ _ => True) (fun _ _ => True) (.reached []))
    {c : Proc (runSig S) (Walk × ν) ε (World Ω) Unit}
    (hrun : (walkMachine nodeName I hooks jobs).Run w main c) :
    Gated walk nodes nodeName needs waves w c := by
  have hinit : Inv walk nodeName waves w w ([] : List (Label (runSig S) (Walk × ν) ε))
      (.reached []) none fun _ => .idle := by
    refine ⟨fun n => rfl, fun i hi => absurd rfl hi, ?_, ?_, ⟨?_, fun _ _ => rfl⟩, ?_⟩
    · intro pre i o r post heq
      simp at heq
    · intro pre n post heq
      simp at heq
    · intro n hn
      simp at hn
    · intro _ name
      simp
  obtain ⟨place, ts, hholds⟩ := (discipline walk hnd w I hooks jobs).run hinit hmain hrun
  have hinv : Inv walk nodeName waves w c.world c.log place (c.pool.map Pool.items) ts := hholds.inv
  -- A node that has started is in a wave.
  have hmem : ∀ n, .start ∈ events (walk, n) c.log → n ∈ waves.flatten := fun n hn =>
    (hinv.known _ ((hinv.fits n).ne_idle hn)).2
  -- When the main thread is over, no worker runs.
  have hquiet : (c.main = .ret () ∨ ∃ e, c.main = .raise e) → ∀ i pos, ts i ≠ .active pos := by
    intro hend
    have hmap := hholds.map
    cases hp : c.pool with
    | none =>
      rw [hp] at hmap
      exact hmap
    | some P =>
      rw [hp] at hmap
      obtain ⟨⟨k, hk⟩, -⟩ := hmap
      rcases hend with h | ⟨e, h⟩ <;> (rw [hk] at h; cases h)
  refine ⟨fun pre n => hinv.inside pre (walk, n), ?_, ?_, ?_, ?_⟩
  · intro pre n post hlog m hnm
    have hstart : .start ∈ events (walk, n) c.log := by
      rw [hlog, events, List.filterMap_append, List.filterMap_cons]
      simp [view]
    obtain ⟨wave, hwave, hn⟩ := List.mem_flatten.mp (hmem n hstart)
    obtain ⟨before, after, hw⟩ := List.append_of_mem hwave
    exact (hinv.ordered pre n post hlog m
      ⟨before, wave, after, hw, hneeds before wave after hw n hn m hnm, hn⟩).1
  · intro m n hlater hstart e
    obtain ⟨pre, post, hlog⟩ := mem_log_of_start hstart
    have hfin := (hinv.ordered pre n post hlog m hlater).2
    refine (hinv.fits m).fin_error ?_ e
    rw [hlog, events, List.filterMap_append]
    exact List.mem_append_left _ hfin
  · intro e he n hstart
    have hfits := hinv.fits n
    cases hts : ts (walk, n) with
    | idle => exact absurd hts (hfits.ne_idle hstart)
    | active pos => exact absurd hts (hquiet (.inr ⟨e, he⟩) _ pos)
    | done r =>
      rw [hts] at hfits
      exact ⟨r, hfits.fin_mem⟩
  · intro hend hno n hn
    have hret := (hinv.fits n).returned_iff (hquiet hend (walk, n)) (hno n)
    rw [hinv.stamps hno, hret]
    refine or_congr Iff.rfl ⟨?_, fun h => ⟨n, rfl, h⟩⟩
    rintro ⟨m, hmn, hmark⟩
    have hm : m ∈ nodes := by
      refine hnodes m (hinv.known (walk, m) ?_).2
      intro hidle
      have hfits := hinv.fits m
      rw [hidle] at hfits
      rw [show events (walk, m) c.log = [] from hfits] at hmark
      cases hmark
    rwa [hinj m hm n hn hmn] at hmark

end Walk

section Gating

variable {S : Sig} {ε Ω ν : Type} [DecidableEq ν] {nodeName : ν → String}

/-- **Both walks are gated**: for every accepted graph, every number of jobs, all hooks
and every run, the build walk by content dependencies and the content waves, the run walk by all
dependencies and the full waves. -/
theorem walks_gated (g : BuildGraph ν nodeName) (jobs : Option ℤ) (I : InnerSem S ε Ω)
    (hooks : Walk → ν → Prog S ε Unit) (prepareKeys teardownBuildInfra : Prog S ε Unit)
    (w : World Ω) :
    (∀ c, (walkMachine nodeName I hooks jobs).Run w
        (materializeGraph prepareKeys teardownBuildInfra g) c →
      Walk.Gated .materialize g.nodes nodeName g.ContentNeeds g.contentWaves w c) ∧
    (∀ c, (walkMachine nodeName I hooks jobs).Run w (realizeGraph g) c →
      Walk.Gated .realize g.nodes nodeName g.Needs g.waves w c) := by
  have hinj : ∀ n ∈ g.nodes, ∀ m ∈ g.nodes, nodeName n = nodeName m → n = m :=
    fun n hn m hm h => g.eq_of_nodeName_eq hn hm h
  constructor
  · intro c hrun
    refine Walk.gated_run g.nodup_contentWaves (fun n hn => g.mem_contentWaves_iff.mp hn) hinj
      (fun before wave after hw n hn m hnm => g.contentWave_of_transGen hw hn hnm) ?_ hrun
    simp only [materializeGraph, Prog.bind_eq_bind, Prog.wp_bind, Prog.wp_tryFinally]
    refine Walk.wp_lift_setPhase (Walk.wp_lift_onInner _ (fun _ => ?_) fun _ => trivial)
      fun _ => trivial
    -- The teardown of the build infrastructure may follow any place.
    have hteardown : ∀ place, (MainProg.lift (onInner teardownBuildInfra)).wp
        (Walk.mainLogic .materialize g.contentWaves) (fun _ _ => True) (fun _ _ => True) place :=
      fun place => Walk.wp_lift_onInner _ (fun _ => trivial) fun _ => trivial
    exact Prog.wp_mono (fun _ place _ => hteardown place) (fun _ place _ => hteardown place)
      Walk.wp_walkWaves
  · intro c hrun
    refine Walk.gated_run g.nodup_waves (fun n hn => g.mem_waves_iff.mp hn) hinj
      (fun before wave after hw n hn m hnm => g.wave_of_transGen hw hn hnm) ?_ hrun
    simp only [realizeGraph, Prog.bind_eq_bind, Prog.wp_bind]
    exact Walk.wp_lift_setPhase Walk.wp_walkWaves fun _ => trivial

end Gating

theorem walkWaves_cons {S : Sig} {ε ν : Type} {walk : Walk} {wave : List ν} {waves : List (List ν)} :
    (walkWaves walk (wave :: waves) : MainProg (runSig S) (Walk × ν) ε Unit) =
      .call (.inr (waveItems walk wave)) fun r =>
        (Prog.ofExcept r).bind fun _ => walkWaves walk waves := rfl

/-! ### A run with a dependency, two workers and a hook that raises -/

namespace Walk.Raising

def sig : Sig := ⟨Unit, fun _ => Unit⟩

def inner : InnerSem sig String Unit where
  sem _ w _ w' := w' = w
  late _ := false
  nodes_eq h := by rw [h]

/-- Two machines need a third one, and one of them is needed by a fourth. -/
def graph : BuildGraph String id where
  name := "g"
  nodes := ["base", "index", "pages", "top"]
  edges := [⟨"index", "base", .ordering, by decide, by decide⟩,
    ⟨"pages", "base", .ordering, by decide, by decide⟩, ⟨"top", "index", .ordering, by decide, by decide⟩]
  nodup_names := by decide
  edges_known := by decide
  waves_complete := by decide
  contentWaves_complete := by decide

theorem waves_graph : graph.waves = [["base"], ["index", "pages"], ["top"]] := by decide

def hooks (_ : Walk) (n : String) : Prog sig String Unit :=
  .call () fun _ => if n = "index" then .raise "boom" else .ret ()

def machine : Machine (runSig sig) (Walk × String) String (World Unit) :=
  walkMachine id inner hooks (some 2)

def booted : World Unit :=
  ⟨some (State.initial "20250101-000000-abcdef" "p" "LibvirtDriver" "qemu:///system" "t0"), ()⟩

def base : Walk × String := (.realize, "base")
def index : Walk × String := (.realize, "index")
def pages : Walk × String := (.realize, "pages")

/-- What is observed up to the end of the first wave. -/
def firstLog : List (Label (runSig sig) (Walk × String) String) :=
  [.main (.setPhase .run) (.ok ()), .fork [base], .start base, .op base (.inner ()) (.ok ()),
    .op base (.returned .realize "base") (.ok ()), .op base (.mark .realize "base") (.ok ()),
    .fin base (.ok ()), .tick, .join (.ok ())]

/-- The first wave has one node, which the main thread goes through itself. -/
theorem first_wave : ∃ w, machine.Run booted (realizeGraph graph)
    ⟨w, walkWaves .realize [["index", "pages"], ["top"]], none, firstLog⟩ ∧ w.ledger.isSome := by
  let s₁ := { State.initial "20250101-000000-abcdef" "p" "LibvirtDriver" "qemu:///system" "t0" with
    phase := Phase.run.name }
  have hmain : realizeGraph graph = (MainProg.lift (runOp (.setPhase .run))).bind fun _ =>
      (walkWaves .realize [["base"], ["index", "pages"], ["top"]] :
        MainProg (runSig sig) (Walk × String) String Unit) := by
    rw [realizeGraph, waves_graph]
    rfl
  have hbase : base ∈ [base] := List.mem_cons_self
  have h₀ : machine.Run booted (realizeGraph graph) _ := .boot
  rw [hmain] at h₀ ⊢
  have h₁ := h₀.step (.main rfl rfl (r := .ok ()) (.inl ⟨trivial, _, "t1", s₁, rfl, rfl, rfl⟩))
  have h₂ := h₁.step (.fork rfl walkWaves_cons)
  have h₃ := h₂.step (.pool rfl (.inlineStart (show _ = Caller.inline [base] from rfl) rfl trivial))
  have h₄ := h₃.step (.pool rfl (.op (i := base) (r := .ok ()) hbase rfl rfl))
  have h₅ := h₄.step (.pool rfl (.op (i := base) (r := .ok ()) hbase rfl ⟨rfl, rfl⟩))
  have h₆ := h₅.step (.pool rfl (.op (i := base) (r := .ok ()) hbase rfl
    (.inl ⟨trivial, s₁, "t2", _, rfl, rfl, rfl⟩)))
  have h₇ := h₆.step (.pool rfl (.ret (i := base) hbase rfl))
  have h₈ := h₇.step (.pool rfl (.inlineNext (show _ = Caller.inline [base] from rfl) rfl))
  have h₉ := h₈.step (.join rfl walkWaves_cons (.inline rfl))
  exact ⟨_, h₉, rfl⟩

/-- What is observed of the second wave. -/
def secondLog : List (Label (runSig sig) (Walk × String) String) :=
  [.fork [index, pages], .tick, .tick, .tick, .start pages, .start index, .op pages (.inner ()) (.ok ()),
    .op index (.inner ()) (.ok ()), .fin index (.error "boom"), .tick, .tick, .tick,
    .op pages (.returned .realize "pages") (.ok ()), .op pages (.mark .realize "pages") (.ok ()),
    .fin pages (.ok ()), .join (.error "boom")]

/-- The second wave has two nodes, which two workers go through.  The hook of the first raises while
the other one is still running, which goes on to its end. -/
theorem second_wave {w : World Unit} {main : MainProg (runSig sig) (Walk × String) String Unit}
    (hw : w.ledger.isSome) (hrun : machine.Run booted main
      ⟨w, walkWaves .realize [["index", "pages"], ["top"]], none, firstLog⟩) :
    ∃ w', machine.Run booted main ⟨w', .raise "boom", none, firstLog ++ secondLog⟩ := by
  obtain ⟨s, hs⟩ := Option.isSome_iff_exists.mp hw
  have hindex : index ∈ [index, pages] := List.mem_cons_self
  have hpages : pages ∈ [index, pages] := List.mem_cons_of_mem _ List.mem_cons_self
  have hunfinished : ∀ P : Pool (runSig sig) (Walk × String) String, P.items = [index, pages] →
      P.task index = .finished (.error "boom") → (∃ p, P.task pages = .running p) →
      P.NotDone [pages] := by
    rintro P hitems hfinished ⟨p, hrunning⟩ i
    rw [hitems, List.mem_singleton]
    constructor
    · rintro rfl
      exact ⟨hpages, fun r hr => by rw [hrunning] at hr; cases hr⟩
    · rintro ⟨hi, hno⟩
      rcases List.mem_cons.mp hi with rfl | hi
      · exact absurd hfinished (hno _)
      · exact List.mem_singleton.mp hi
  have hover : ∀ P : Pool (runSig sig) (Walk × String) String, P.items = [index, pages] →
      (∃ r, P.task index = .finished r) → (∃ r, P.task pages = .finished r) →
      ∀ i ∈ P.items, P.task i ≠ .pending ∧ ∀ p, P.task i ≠ .running p := by
    rintro P hitems ⟨r, hr⟩ ⟨r', hr'⟩ i hi
    rw [hitems] at hi
    rcases List.mem_cons.mp hi with rfl | hi
    · simp [hr]
    · rw [List.mem_singleton.mp hi]
      simp [hr']
  have h₁ := hrun.step (.fork rfl walkWaves_cons)
  have h₂ := h₁.step (.pool rfl (.submit (show _ = Caller.submitting [index, pages] from rfl) rfl))
  have h₃ := h₂.step (.pool rfl (.submit (show _ = Caller.submitting [pages] from rfl) rfl))
  have h₄ := h₃.step (.pool rfl (.submitted rfl))
  have h₅ := h₄.step (.pool rfl (.start (i := pages) hpages rfl (by decide) trivial))
  have h₆ := h₅.step (.pool rfl (.start (i := index) hindex rfl (by decide) trivial))
  have h₇ := h₆.step (.pool rfl (.op (i := pages) (r := .ok ()) hpages rfl rfl))
  have h₈ := h₇.step (.pool rfl (.op (i := index) (r := .ok ()) hindex rfl rfl))
  have h₉ := h₈.step (.pool rfl (.raise (i := index) (e := "boom") hindex rfl))
  -- The main thread wakes, finds the other worker running, and waits for it.
  have h₁₀ := h₉.step (.pool rfl (.wake (i := index) (e := "boom") rfl
    ⟨rfl, [], [pages], rfl, fun _ hj => by cases hj⟩ (hunfinished _ rfl rfl ⟨_, rfl⟩)))
  have h₁₁ := h₁₀.step (.pool rfl (.skip (show _ = Caller.cancelling [pages] "boom" from rfl)
    fun h => by cases h))
  have h₁₂ := h₁₁.step (.pool rfl (.cancelled (show _ = Caller.cancelling [] "boom" from rfl)))
  have h₁₃ := h₁₂.step (.pool rfl (.op (i := pages) (r := .ok ()) hpages rfl ⟨rfl, rfl⟩))
  have h₁₄ := h₁₃.step (.pool rfl (.op (i := pages) (r := .ok ()) hpages rfl
    (.inl ⟨trivial, s, "t3", _, hs, rfl, rfl⟩)))
  have h₁₅ := h₁₄.step (.pool rfl (.ret (i := pages) hpages rfl))
  have h₁₆ := h₁₅.step (.join rfl walkWaves_cons
    (.error (e := "boom") rfl (hover _ rfl ⟨_, rfl⟩ ⟨_, rfl⟩)))
  exact ⟨_, h₁₆⟩

end Walk.Raising

open Walk.Raising in
/-- The graph of `Walk.Raising` is walked with two workers: what needs the node whose hook raised is
not started, and the other two nodes are stamped. -/
theorem walks_gated_raising :
    ∃ p : Proc (runSig sig) (Walk × String) String (World Unit) Unit,
      p.main = .raise "boom" ∧ .start ∉ Walk.events (.realize, "top") p.log ∧
        p.world.Stamped .realize "base" ∧ ¬ p.world.Stamped .realize "index" ∧
        p.world.Stamped .realize "pages" := by
  obtain ⟨w₁, hfirst, hw₁⟩ := first_wave
  obtain ⟨w₂, hsecond⟩ := second_wave hw₁ hfirst
  have hgated := (walks_gated graph (some 2) inner hooks (.ret ()) (.ret ()) booted).2 _ hsecond
  have hstamped := hgated.stamped (.inr ⟨"boom", rfl⟩) fun n e hmem => by
    simp [Walk.events, Walk.view, firstLog, secondLog, List.mem_filterMap] at hmem
  have hfresh : ∀ n, ¬ World.Stamped .realize booted n := by
    rintro n ⟨s, hs, rec, hrec, -⟩
    cases hs
    cases hrec
  refine ⟨_, rfl, ?_, (hstamped "base" (by decide)).mpr (.inr ?_), fun hindex => ?_,
    (hstamped "pages" (by decide)).mpr (.inr ?_)⟩
  · intro hstart
    refine hgated.halted "index" "top" ⟨[["base"], ["index", "pages"]], ["top"], [], waves_graph,
      by decide, by decide⟩ hstart "boom" ?_
    simp [Walk.events, Walk.view, firstLog, secondLog, base, index, pages]
  · simp [Walk.events, Walk.view, firstLog, secondLog, base, index, pages]
  · rcases (hstamped "index" (by decide)).mp hindex with hold | hreturned
    · exact hfresh "index" hold
    · simp [Walk.events, Walk.view, firstLog, secondLog, base, index, pages] at hreturned
  · simp [Walk.events, Walk.view, firstLog, secondLog, base, index, pages]

end TestRange
