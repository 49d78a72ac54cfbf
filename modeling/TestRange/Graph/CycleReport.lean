/-
The cycle that a rejected graph is reported with.

The waves leave some nodes out when the dependencies have a cycle; the search then goes down from
the first node left out, in the order of names.

* `findCycle` — the search of the source;
* `exists_left` — each node that is left out needs another that is;
* `exists_cycle` — the search ends with a cycle of them;
* `findCycle_reports` — what is reported: a cycle of dependencies among the nodes left out.
-/
import TestRange.Graph.BuildGraph
import TestRange.Lib.CycleSearch

namespace TestRange

open CycleSearch (Ended)

section Report

variable {ν : Type} (nodeName : ν → String) (nodes : List ν) (edges : List Edge)

/-- A cycle among the nodes that are not settled. -/
def findCycle [DecidableEq ν] (settled : List ν) (fuel : ℕ) : Ended ν :=
  CycleSearch.findCycle (nameLe nodeName) (depsOf nodeName nodes edges) settled fuel nodes

/-- Some edge says that one node needs the other. -/
def DependsOn (n m : ν) : Prop := ∃ e ∈ edges, e.dependent = nodeName n ∧ e.dependency = nodeName m

variable {nodeName nodes edges} {n m : ν}

theorem mem_depsOf : m ∈ depsOf nodeName nodes edges n ↔ m ∈ nodes ∧ DependsOn nodeName edges n m := by
  simp [depsOf, DependsOn]

theorem mem_dependentsOf_of_mem_depsOf (hn : n ∈ nodes) (hm : m ∈ depsOf nodeName nodes edges n) :
    n ∈ dependentsOf nodeName nodes edges m := by
  obtain ⟨e, he, hdependent, hdependency⟩ := (mem_depsOf.mp hm).2
  refine List.mem_filter.mpr ⟨hn, List.any_eq_true.mpr ⟨e, he, ?_⟩⟩
  simp [hdependent, hdependency]

/-- No edge is from a node to itself. -/
theorem not_dependsOn_self (hedges : ∀ e ∈ edges, edgeProblem nodeName nodes e = none) :
    ¬ DependsOn nodeName edges n n := by
  rintro ⟨e, he, hdependent, hdependency⟩
  have hnone := hedges e he
  rw [edgeProblem, if_pos (hdependent.trans hdependency.symm)] at hnone
  cases hnone

variable [DecidableEq ν]

/-- A node that is in no wave needs another that is in none. -/
theorem exists_left (hnodup : nodes.Nodup) (hn : n ∈ nodes)
    (hleft : n ∉ (wavesOf nodeName nodes edges).flatten) :
    ∃ m ∈ depsOf nodeName nodes edges n, m ∉ (wavesOf nodeName nodes edges).flatten := by
  by_contra hall
  push Not at hall
  refine hleft (closed_levels hnodup ?_ ?_ hn hall)
  · exact fun _ _ x hx => (List.mem_filter.mp hx).1
  · exact fun x hx d hd => mem_dependentsOf_of_mem_depsOf hx hd

/-- Waves with fewer nodes than the graph leave one out. -/
theorem exists_not_mem_waves (hnodup : nodes.Nodup)
    (hlen : (wavesOf nodeName nodes edges).flatten.length ≠ nodes.length) :
    ∃ n ∈ nodes, n ∉ (wavesOf nodeName nodes edges).flatten := by
  by_contra hall
  push Not at hall
  have hwaves : (wavesOf nodeName nodes edges).flatten.Nodup :=
    (levelled_levels hnodup).nodup_flatten.1
  have hsub : ∀ n ∈ (wavesOf nodeName nodes edges).flatten, n ∈ nodes :=
    mem_of_mem_levels fun _ _ _ hx => (List.mem_filter.mp hx).1
  have hge := (List.subperm_of_subset hnodup hall).length_le
  have hle := (List.subperm_of_subset hwaves hsub).length_le
  omega

/-- Where the waves leave nodes out, the search ends with a cycle of nodes that are left out. -/
theorem exists_cycle (hnodup : nodes.Nodup)
    (hlen : (wavesOf nodeName nodes edges).flatten.length ≠ nodes.length) :
    ∃ first after, (∀ fuel, nodes.length < fuel →
        findCycle nodeName nodes edges (wavesOf nodeName nodes edges).flatten fuel =
          .cycle (first :: after ++ [first])) ∧
      CycleSearch.IsCycle (depsOf nodeName nodes edges) (wavesOf nodeName nodes edges).flatten first after ∧
      ∀ n ∈ first :: after, n ∈ nodes := by
  have hsub : ∀ n ∈ nodes, ∀ m ∈ depsOf nodeName nodes edges n, m ∈ nodes :=
    fun n _ m hm => (mem_depsOf.mp hm).1
  obtain ⟨x, hx, hleft⟩ := exists_not_mem_waves hnodup hlen
  have hneeds : ∀ n ∈ nodes, n ∉ (wavesOf nodeName nodes edges).flatten →
      ∃ m ∈ depsOf nodeName nodes edges n, m ∉ (wavesOf nodeName nodes edges).flatten :=
    fun n hn hnot => exists_left hnodup hn hnot
  obtain ⟨first, after, hfound, hcycle, hknown⟩ := CycleSearch.findCycle_of_left (nameLe nodeName) hsub
    hneeds hx hleft (Nat.lt_succ_self nodes.length)
  refine ⟨first, after, fun fuel hfuel => ?_, hcycle, hknown⟩
  have hended : findCycle nodeName nodes edges (wavesOf nodeName nodes edges).flatten
      (nodes.length + 1) ≠ .outOfFuel := by
    intro hout
    exact absurd (hout.symm.trans hfound) (by simp)
  exact (CycleSearch.searchFrom_mono (nameLe nodeName) (Nat.succ_le_of_lt hfuel) hended).trans hfound

/-- **The report of a cycle is true, and there is always one.**  Where the waves leave nodes out, the
search ends with a list of at least three names: the first is the last as well, the others are
different names of nodes that are left out, and each node depends on the next. -/
theorem findCycle_reports (hnames : (nodes.map nodeName).Nodup)
    (hedges : ∀ e ∈ edges, edgeProblem nodeName nodes e = none)
    (hlen : (wavesOf nodeName nodes edges).flatten.length ≠ nodes.length) :
    ∃ first after, (∀ fuel, nodes.length < fuel →
        findCycle nodeName nodes edges (wavesOf nodeName nodes edges).flatten fuel =
          .cycle (first :: after ++ [first])) ∧
      after ≠ [] ∧ ((first :: after).map nodeName).Nodup ∧
      (∀ n ∈ first :: after, n ∈ nodes ∧ n ∉ (wavesOf nodeName nodes edges).flatten) ∧
      List.IsChain (DependsOn nodeName edges) (first :: after ++ [first]) := by
  obtain ⟨first, after, hfound, hcycle, hknown⟩ := exists_cycle (List.Nodup.of_map nodeName hnames) hlen
  have hchain : List.IsChain (DependsOn nodeName edges) (first :: after ++ [first]) :=
    hcycle.chain.imp fun n m hm => (mem_depsOf.mp hm).2
  refine ⟨first, after, hfound, ?_, ?_, fun n hn => ⟨hknown n hn, hcycle.unsettled n hn⟩, hchain⟩
  · rintro rfl
    exact not_dependsOn_self hedges (List.isChain_cons_cons.mp hchain).1
  · refine List.Nodup.map_on ?_ hcycle.nodup
    intro n hn m hm hname
    exact List.inj_on_of_nodup_map hnames (hknown n hn) (hknown m hm) hname

end Report

/-! ### Two nodes that need each other -/

def ringNodes : List String := ["a", "b", "c"]

/-- `c` is settled; `a` and `b` need each other. -/
def ringEdges : List Edge :=
  [⟨"a", "b", .ordering, by decide, by decide⟩, ⟨"b", "a", .ordering, by decide, by decide⟩,
    ⟨"a", "c", .ordering, by decide, by decide⟩]

example : findCycle id ringNodes ringEdges ["c"] 4 = .cycle ["a", "b", "a"] := rfl

theorem ring_reported : ∃ first after,
    findCycle id ringNodes ringEdges (wavesOf id ringNodes ringEdges).flatten 4 =
      .cycle (first :: after ++ [first]) ∧ after ≠ [] := by
  obtain ⟨first, after, hfound, hlong, -⟩ :=
    @findCycle_reports String id ringNodes ringEdges _ (by decide) (by decide) (by decide)
  exact ⟨first, after, hfound 4 (by decide), hlong⟩

end TestRange
