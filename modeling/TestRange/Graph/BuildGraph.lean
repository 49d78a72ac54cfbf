/-
The frozen, validated dependency graph of a plan.

Construction rejects duplicate names, self-dependencies, edges to unknown nodes and
cycles, and computes two schedules: the waves under all edges, which sequence
bring-up, and the waves under the cacheable edges only, which sequence builds.

* `BuildGraph.construct` — the constructor with its checks, in the source's order;
* `BuildGraph.wave_of_transGen`, `BuildGraph.contentWave_of_transGen` — a node's
  transitive dependencies lie in earlier waves;
* `BuildGraph.mem_waves_iff`, `BuildGraph.nodup_waves` — every node is in exactly
  one wave.

A node is anything with a name.  The path a cycle error reports is not modelled.
-/
import TestRange.Lib.Levels
import Mathlib.Data.String.Basic

namespace TestRange

/-- How an edge contributes to the dependent's cache key. -/
inductive Cacheability
  | ordering
  | bake
  | replay
  deriving DecidableEq, Repr

/-- A directed dependency between node names. -/
structure Edge where
  dependent : String
  dependency : String
  cacheability : Cacheability
  dependent_ne : dependent ≠ ""
  dependency_ne : dependency ≠ ""
  deriving DecidableEq

/-- Whether the edge folds its dependency into the dependent's key. -/
def Edge.affectsCacheKey (e : Edge) : Bool := e.cacheability ≠ .ordering

/-- Why a graph is rejected. -/
inductive GraphError
  | emptyName
  | duplicateNode (name : String)
  | selfDependency (name : String)
  /-- The unknown endpoint of an edge. -/
  | danglingDependency (e : Edge) (endpoint : String)
  | cycle

section Relations

variable {ν : Type} (nodeName : ν → String) (nodes : List ν) (edges : List Edge)

/-- The nodes `n` directly depends on. -/
def depsOf (n : ν) : List ν :=
  nodes.filter fun m => edges.any fun e => e.dependent = nodeName n ∧ e.dependency = nodeName m

/-- The nodes that directly depend on `n`. -/
def dependentsOf (n : ν) : List ν :=
  nodes.filter fun m => edges.any fun e => e.dependency = nodeName n ∧ e.dependent = nodeName m

/-- The edges of the content sub-graph. -/
def contentEdges : List Edge := edges.filter (·.affectsCacheKey)

/-- Ordering within a wave: by name. -/
def nameLe (a b : ν) : Prop := nodeName a ≤ nodeName b

instance : DecidableRel (nameLe nodeName) := fun a b =>
  inferInstanceAs (Decidable (nodeName a ≤ nodeName b))

/-- The waves of the nodes under some of the edges, before the check for cycles. -/
def wavesOf [DecidableEq ν] : List (List ν) :=
  levels (nameLe nodeName) (depsOf nodeName nodes edges) (dependentsOf nodeName nodes edges) nodes

/-- The first name that occurred before. -/
def firstDuplicate : List ν → List String → Option String
  | [], _ => none
  | n :: rest, seen =>
    if nodeName n ∈ seen then some (nodeName n) else firstDuplicate rest (nodeName n :: seen)

/-- What is wrong with an edge, if anything. -/
def edgeProblem (e : Edge) : Option GraphError :=
  if e.dependent = e.dependency then some (.selfDependency e.dependent)
  else if e.dependent ∉ nodes.map nodeName then some (.danglingDependency e e.dependent)
  else if e.dependency ∉ nodes.map nodeName then some (.danglingDependency e e.dependency)
  else none

end Relations

/-- A graph that construction has accepted. -/
structure BuildGraph (ν : Type) [DecidableEq ν] (nodeName : ν → String) where
  name : String
  nodes : List ν
  edges : List Edge
  /-- Names are identities. -/
  nodup_names : (nodes.map nodeName).Nodup
  /-- Edges connect known, different nodes. -/
  edges_known : ∀ e ∈ edges, edgeProblem nodeName nodes e = none
  /-- No cycle: every node is in some wave. -/
  waves_complete : (wavesOf nodeName nodes edges).flatten.length = nodes.length
  contentWaves_complete : (wavesOf nodeName nodes (contentEdges edges)).flatten.length = nodes.length

theorem nodup_of_firstDuplicate {ν : Type} {nodeName : ν → String} {nodes : List ν}
    {seen : List String} (h : firstDuplicate nodeName nodes seen = none) :
    (nodes.map nodeName).Nodup ∧ ∀ n ∈ nodes, nodeName n ∉ seen := by
  induction nodes generalizing seen with
  | nil => simp
  | cons n rest ih =>
    rw [firstDuplicate] at h
    split_ifs at h with hseen
    obtain ⟨hnd, hnew⟩ := ih h
    refine ⟨?_, fun m hm => ?_⟩
    · rw [List.map_cons, List.nodup_cons]
      refine ⟨fun hmem => ?_, hnd⟩
      obtain ⟨m, hm, hmn⟩ := List.mem_map.mp hmem
      exact hnew m hm (by rw [hmn]; exact List.mem_cons_self)
    · rcases List.mem_cons.mp hm with rfl | hm
      · exact hseen
      · exact fun hs => hnew m hm (List.mem_cons_of_mem _ hs)

namespace BuildGraph

variable {ν : Type} [DecidableEq ν] {nodeName : ν → String}

/-- `BuildGraph(name, nodes, edges)`. -/
def construct (nodeName : ν → String) (name : String) (nodes : List ν) (edges : List Edge) :
    Except GraphError (BuildGraph ν nodeName) :=
  if name = "" then .error .emptyName
  else match hdup : firstDuplicate nodeName nodes [] with
  | some n => .error (.duplicateNode n)
  | none =>
    match hedge : edges.findSome? (edgeProblem nodeName nodes) with
    | some err => .error err
    | none =>
      if hw : (wavesOf nodeName nodes edges).flatten.length = nodes.length then
        if hc : (wavesOf nodeName nodes (contentEdges edges)).flatten.length = nodes.length then
          .ok { name, nodes, edges
                nodup_names := (nodup_of_firstDuplicate hdup).1
                edges_known := fun e he => List.findSome?_eq_none_iff.mp hedge e he
                waves_complete := hw
                contentWaves_complete := hc }
        else .error .cycle
      else .error .cycle

variable (g : BuildGraph ν nodeName)

/-- The waves under all edges. -/
def waves : List (List ν) := wavesOf nodeName g.nodes g.edges

/-- The waves under the cacheable edges. -/
def contentWaves : List (List ν) := wavesOf nodeName g.nodes (contentEdges g.edges)

/-- `n` needs `m`. -/
def Needs (n m : ν) : Prop := m ∈ depsOf nodeName g.nodes g.edges n

/-- `n` needs the content of `m`. -/
def ContentNeeds (n m : ν) : Prop := m ∈ depsOf nodeName g.nodes (contentEdges g.edges) n

theorem nodup_nodes : g.nodes.Nodup := List.Nodup.of_map nodeName g.nodup_names

/-- A node is known by its name. -/
theorem eq_of_nodeName_eq {n m : ν} (hn : n ∈ g.nodes) (hm : m ∈ g.nodes)
    (h : nodeName n = nodeName m) : n = m :=
  List.inj_on_of_nodup_map g.nodup_names hn hm h

theorem wavesOf_levelled (edges : List Edge) :
    Levelled (depsOf nodeName g.nodes edges) [] (wavesOf nodeName g.nodes edges) :=
  levelled_levels g.nodup_nodes

theorem wavesOf_subset (edges : List Edge) :
    ∀ n ∈ (wavesOf nodeName g.nodes edges).flatten, n ∈ g.nodes :=
  mem_of_mem_levels fun _ _ _ hx => (List.mem_filter.mp hx).1

/-- A complete schedule lists every node. -/
theorem mem_wavesOf_iff {edges : List Edge}
    (hc : (wavesOf nodeName g.nodes edges).flatten.length = g.nodes.length) {n : ν} :
    n ∈ (wavesOf nodeName g.nodes edges).flatten ↔ n ∈ g.nodes := by
  have hnd := (g.wavesOf_levelled edges).nodup_flatten.1
  have hperm := (List.subperm_of_subset hnd (g.wavesOf_subset edges)).perm_of_length_le
    (le_of_eq hc.symm)
  exact hperm.mem_iff

theorem mem_waves_iff {n : ν} : n ∈ g.waves.flatten ↔ n ∈ g.nodes :=
  g.mem_wavesOf_iff g.waves_complete

theorem nodup_waves : g.waves.flatten.Nodup := (g.wavesOf_levelled g.edges).nodup_flatten.1

theorem mem_contentWaves_iff {n : ν} : n ∈ g.contentWaves.flatten ↔ n ∈ g.nodes :=
  g.mem_wavesOf_iff g.contentWaves_complete

theorem nodup_contentWaves : g.contentWaves.flatten.Nodup :=
  (g.wavesOf_levelled _).nodup_flatten.1

/-- **Transitive dependencies lie in earlier waves.** -/
theorem wave_of_transGen {pre post : List (List ν)} {wave : List ν}
    (hw : g.waves = pre ++ wave :: post) {n m : ν} (hn : n ∈ wave)
    (hnm : Relation.TransGen g.Needs n m) : m ∈ pre.flatten :=
  (g.wavesOf_levelled g.edges).mem_of_transGen hw hn hnm

/-- **A node that needs others comes after all nodes that need none.** -/
theorem wave_of_needs {pre post : List (List ν)} {wave : List ν}
    (hw : g.waves = pre ++ wave :: post) {n k m : ν} (hn : n ∈ wave) (hnk : g.Needs n k)
    (hm : m ∈ g.nodes) (hnone : ∀ k, ¬ g.Needs m k) : m ∈ pre.flatten :=
  mem_before_of_deps hw hn (List.ne_nil_of_mem hnk) hm
    (List.eq_nil_iff_forall_not_mem.mpr hnone)

/-- **Transitive content dependencies lie in earlier content waves.** -/
theorem contentWave_of_transGen {pre post : List (List ν)} {wave : List ν}
    (hw : g.contentWaves = pre ++ wave :: post) {n m : ν} (hn : n ∈ wave)
    (hnm : Relation.TransGen g.ContentNeeds n m) : m ∈ pre.flatten :=
  (g.wavesOf_levelled _).mem_of_transGen hw hn hnm

/-- More fuel for the schedule would change nothing. -/
theorem wavesOf_fuel (edges : List Edge) :
    levelsFrom (nameLe nodeName) (depsOf nodeName g.nodes edges)
        (dependentsOf nodeName g.nodes edges) (g.nodes.length + 2) []
        ((g.nodes.filter fun n => depsOf nodeName g.nodes edges n = []).insertionSort
          (nameLe nodeName)) =
      wavesOf nodeName g.nodes edges := by
  have hperm := List.perm_insertionSort (nameLe nodeName)
    (g.nodes.filter fun n => depsOf nodeName g.nodes edges n = [])
  refine levelsFrom_succ (fun (c : ν) (_ : c ∈ g.nodes) x hx => (List.mem_filter.mp hx).1) ?_ ?_ ?_
  · rw [List.nil_append]
    exact hperm.nodup_iff.mpr (g.nodup_nodes.filter _)
  · exact fun x hx => (List.mem_filter.mp (hperm.mem_iff.mp hx)).1
  · rw [List.length_nil]
    omega

end BuildGraph

end TestRange
