/-
What constructing a graph decides.

* `BuildGraph.Valid` — names are distinct, edges connect different known nodes, and no node
  depends on itself in any number of steps;
* `BuildGraph.IsCycle` — what the error of a cycle reports;
* `BuildGraph.Schedule` — the waves are a partition, sorted by name, and the index of a wave is
  the length of the longest chain of dependencies below its nodes;
* `BuildGraph.construct_decides` — construction accepts the valid graphs, names what is wrong
  with the others, and computes such waves for all edges and for the cacheable ones.
-/
import Mathlib.Data.List.Chain
import Mathlib.Data.List.TakeWhile
import Mathlib.Order.Bounds.Basic
import TestRange.Graph.CycleReport

namespace TestRange

namespace BuildGraph

/-! ### The dependency relation -/

/-- The names a name directly depends on. -/
def needed (edges : List Edge) (s : String) : List String :=
  (edges.filter fun e => e.dependent = s).map (·.dependency)

/-- No name depends on itself, in any number of steps. -/
def Acyclic (edges : List Edge) : Prop :=
  ∀ s, ¬Relation.TransGen (fun a b => b ∈ needed edges a) s s

theorem mem_needed {edges : List Edge} {a b : String} :
    b ∈ needed edges a ↔ ∃ e ∈ edges, e.dependent = a ∧ e.dependency = b := by
  simp [needed, and_assoc]

section Relations

variable {ν : Type} {nodeName : ν → String} {nodes : List ν} {edges : List Edge}

theorem mem_depsOf {n m : ν} :
    m ∈ depsOf nodeName nodes edges n ↔ m ∈ nodes ∧ nodeName m ∈ needed edges (nodeName n) := by
  simp [depsOf, mem_needed]

theorem mem_dependentsOf {n m : ν} :
    m ∈ dependentsOf nodeName nodes edges n ↔ m ∈ nodes ∧ nodeName n ∈ needed edges (nodeName m) := by
  simp [dependentsOf, mem_needed, and_comm]

/-- The dependencies of nodes are those of their names. -/
theorem transGen_names {n m : ν} (h : Relation.TransGen (fun a b => b ∈ depsOf nodeName nodes edges a) n m) :
    Relation.TransGen (fun a b => b ∈ needed edges a) (nodeName n) (nodeName m) := by
  induction h with
  | single hab => exact .single (mem_depsOf.mp hab).2
  | tail _ hbc ih => exact ih.tail (mem_depsOf.mp hbc).2

/-- Where the endpoints are nodes, the dependencies of names are those of nodes. -/
theorem transGen_nodes (hknown : ∀ e ∈ edges, e.dependency ∈ nodes.map nodeName) {n : ν} {b : String}
    (h : Relation.TransGen (fun a b => b ∈ needed edges a) (nodeName n) b) :
    ∃ m ∈ nodes, nodeName m = b ∧
      Relation.TransGen (fun a b => b ∈ depsOf nodeName nodes edges a) n m := by
  have hnode : ∀ a b, b ∈ needed edges a → ∃ m ∈ nodes, nodeName m = b := by
    intro a b hab
    obtain ⟨e, he, -, rfl⟩ := mem_needed.mp hab
    exact List.mem_map.mp (hknown e he)
  induction h with
  | @single b hb =>
    obtain ⟨m, hm, rfl⟩ := hnode _ _ hb
    exact ⟨m, hm, rfl, .single (mem_depsOf.mpr ⟨hm, hb⟩)⟩
  | @tail b c _ hbc ih =>
    obtain ⟨m, -, rfl, hnm⟩ := ih
    obtain ⟨k, hk, rfl⟩ := hnode _ _ hbc
    exact ⟨k, hk, rfl, hnm.tail (mem_depsOf.mpr ⟨hk, hbc⟩)⟩

/-- Chains of nodes are chains of names. -/
theorem chain_names {k : ℕ} {n : ν} (h : Chain (depsOf nodeName nodes edges) k n) :
    Chain (needed edges) k (nodeName n) := by
  induction h with
  | zero n => exact .zero _
  | succ hd _ ih => exact .succ (mem_depsOf.mp hd).2 ih

theorem chain_nodes (hknown : ∀ e ∈ edges, e.dependency ∈ nodes.map nodeName) {k : ℕ} {n : ν}
    (h : Chain (needed edges) k (nodeName n)) : Chain (depsOf nodeName nodes edges) k n := by
  induction k generalizing n with
  | zero => exact .zero n
  | succ k ih =>
    cases h with
    | succ hd hrest =>
      obtain ⟨e, he, -, rfl⟩ := mem_needed.mp hd
      obtain ⟨m, hm, hname⟩ := List.mem_map.mp (hknown e he)
      rw [← hname] at hd hrest
      exact .succ (mem_depsOf.mpr ⟨hm, hd⟩) (ih hrest)

/-- Fewer edges make no longer chains. -/
theorem Chain.mono {edges' : List Edge} (hsub : ∀ e ∈ edges', e ∈ edges) {k : ℕ} {s : String}
    (h : Chain (needed edges') k s) : Chain (needed edges) k s := by
  induction h with
  | zero s => exact .zero s
  | succ hd _ ih =>
    obtain ⟨e, he, hends⟩ := mem_needed.mp hd
    exact .succ (mem_needed.mpr ⟨e, hsub e he, hends⟩) ih

theorem Acyclic.mono {edges' : List Edge} (hsub : ∀ e ∈ edges', e ∈ edges) (h : Acyclic edges) :
    Acyclic edges' := by
  intro s hs
  have hmono : (fun a b => b ∈ needed edges' a) ≤ fun a b => b ∈ needed edges a := by
    intro a b hab
    obtain ⟨e, he, hends⟩ := mem_needed.mp hab
    exact mem_needed.mpr ⟨e, hsub e he, hends⟩
  exact h s (Relation.TransGen.mono hmono s s hs)

end Relations

/-! ### What construction decides -/

section Construct

variable {ν : Type} [DecidableEq ν] (nodeName : ν → String) (nodes : List ν) (edges : List Edge)

/-- What construction asks for. -/
structure Valid : Prop where
  distinct : (nodes.map nodeName).Nodup
  known : ∀ e ∈ edges, e.dependent ∈ nodes.map nodeName ∧ e.dependency ∈ nodes.map nodeName
  noSelf : ∀ e ∈ edges, e.dependent ≠ e.dependency
  acyclic : Acyclic edges

/-- A way along the dependencies back to where it began. -/
structure IsCycle (cycle : List ν) : Prop where
  chain : cycle.IsChain fun n m => m ∈ depsOf nodeName nodes edges n
  long : 2 ≤ cycle.length
  closed : cycle.head? = cycle.getLast?

/-- What an error says is so. -/
def Matches : GraphError → Prop
  | .emptyName => False
  | .duplicateNode n => 2 ≤ (nodes.map nodeName).count n
  | .selfDependency n => ∃ e ∈ edges, e.dependent = n ∧ e.dependency = n
  | .danglingDependency e x => e ∈ edges ∧ (x = e.dependent ∨ x = e.dependency) ∧ x ∉ nodes.map nodeName
  | .cycle => ∃ cycle, (∀ fuel, nodes.length < fuel → findCycle nodeName nodes edges
      (wavesOf nodeName nodes edges).flatten fuel = .cycle cycle) ∧ IsCycle nodeName nodes edges cycle

/-- A partition into waves that are sorted by name, the index of each of which is the length of
the longest chain of dependencies below its nodes. -/
structure Schedule (waves : List (List ν)) : Prop where
  perm : waves.flatten.Perm nodes
  nonempty : ∀ wave ∈ waves, wave ≠ []
  sorted : ∀ wave ∈ waves, (wave.map nodeName).Pairwise (· ≤ ·)
  index : ∀ before wave after, waves = before ++ wave :: after → ∀ n ∈ wave,
    IsGreatest {k | Chain (needed edges) k (nodeName n)} before.length

variable {nodeName nodes edges}

omit [DecidableEq ν] in
theorem count_of_firstDuplicate {rest : List ν} {seen : List String} {n : String}
    (h : firstDuplicate nodeName rest seen = some n) : 2 ≤ (rest.map nodeName ++ seen).count n := by
  induction rest generalizing seen with
  | nil => cases h
  | cons m rest ih =>
    rw [firstDuplicate] at h
    split_ifs at h with hseen
    · cases h
      have hpos := List.count_pos_iff.mpr hseen
      rw [List.map_cons, List.cons_append, List.count_cons_self, List.count_append]
      omega
    · have hcount := ih h
      rw [List.count_append, List.count_cons] at hcount
      rw [List.map_cons, List.cons_append, List.count_cons, List.count_append]
      omega

omit [DecidableEq ν] in
theorem firstDuplicate_eq_none {rest : List ν} {seen : List String} (hnodup : (rest.map nodeName).Nodup)
    (hnew : ∀ n ∈ rest, nodeName n ∉ seen) : firstDuplicate nodeName rest seen = none := by
  induction rest generalizing seen with
  | nil => rfl
  | cons m rest ih =>
    rw [List.map_cons, List.nodup_cons] at hnodup
    rw [firstDuplicate, if_neg (hnew m List.mem_cons_self)]
    refine ih hnodup.2 fun n hn hmem => ?_
    rcases List.mem_cons.mp hmem with heq | hseen
    · exact hnodup.1 (heq ▸ List.mem_map_of_mem hn)
    · exact hnew n (List.mem_cons_of_mem _ hn) hseen

omit [DecidableEq ν] in
/-- The checks on an edge. -/
theorem edgeProblem_eq_none {e : Edge} : edgeProblem nodeName nodes e = none ↔
    (e.dependent ∈ nodes.map nodeName ∧ e.dependency ∈ nodes.map nodeName) ∧ e.dependent ≠ e.dependency := by
  unfold edgeProblem
  by_cases hself : e.dependent = e.dependency
  · simp [hself]
  · by_cases hfrom : e.dependent ∈ nodes.map nodeName
    · by_cases hto : e.dependency ∈ nodes.map nodeName
      · simp [hself, hfrom, hto]
      · simp [hself, hfrom, hto]
    · simp [hself, hfrom]

/-- The waves are complete if and only if there is no cycle. -/
theorem waves_complete_iff (hnodup : (nodes.map nodeName).Nodup)
    (hknown : ∀ e ∈ edges, e.dependent ∈ nodes.map nodeName ∧ e.dependency ∈ nodes.map nodeName) :
    (wavesOf nodeName nodes edges).flatten.length = nodes.length ↔ Acyclic edges := by
  have hnodes : nodes.Nodup := List.Nodup.of_map nodeName hnodup
  have hlevelled : Levelled (depsOf nodeName nodes edges) [] (wavesOf nodeName nodes edges) :=
    levelled_levels hnodes
  have hsub : ∀ n ∈ (wavesOf nodeName nodes edges).flatten, n ∈ nodes :=
    mem_of_mem_levels fun _ _ _ hx => (List.mem_filter.mp hx).1
  have hsubperm := List.subperm_of_subset hlevelled.nodup_flatten.1 hsub
  constructor
  · intro hcomplete s hs
    -- A node on a cycle would lie in a wave before its own.
    obtain ⟨a, ha, -⟩ := Relation.TransGen.head'_iff.mp hs
    obtain ⟨e, he, hdependent, -⟩ := mem_needed.mp ha
    obtain ⟨n, hn, hname⟩ := List.mem_map.mp (hdependent ▸ (hknown e he).1)
    rw [← hname] at hs
    obtain ⟨m, hm, hmn, hcycle⟩ := transGen_nodes (fun e he => (hknown e he).2) hs
    obtain rfl : m = n := List.inj_on_of_nodup_map hnodup hm hn hmn
    have hmem := (hsubperm.perm_of_length_le (le_of_eq hcomplete.symm)).mem_iff.mpr hn
    obtain ⟨wave, hwave, hmwave⟩ := List.mem_flatten.mp hmem
    obtain ⟨before, after, hwaves⟩ := List.append_of_mem hwave
    have hbefore := hlevelled.mem_of_transGen hwaves hmwave hcycle
    have hflat := hlevelled.nodup_flatten.1
    rw [hwaves, List.flatten_append, List.nodup_append] at hflat
    exact hflat.2.2 m hbefore m (by simp [hmwave]) rfl
  · intro hacyclic
    refine le_antisymm hsubperm.length_le (List.subperm_of_subset hnodes fun n hn => ?_).length_le
    refine mem_levels_of_acyclic hnodes (fun _ _ _ hx => (List.mem_filter.mp hx).1)
      (fun _ _ _ hd => (mem_depsOf.mp hd).1) (fun x hx d hd => ?_) (fun x _ hx => ?_) hn
    · exact mem_dependentsOf.mpr ⟨hx, (mem_depsOf.mp hd).2⟩
    · exact hacyclic _ (transGen_names hx)

/-- Where the waves are not complete, a cycle is found. -/
theorem matches_cycle (hnodup : (nodes.map nodeName).Nodup)
    (hincomplete : (wavesOf nodeName nodes edges).flatten.length ≠ nodes.length) :
    Matches nodeName nodes edges .cycle := by
  obtain ⟨first, after, hfound, hcycle, -⟩ := exists_cycle (List.Nodup.of_map nodeName hnodup) hincomplete
  refine ⟨_, hfound, hcycle.chain, by simp, ?_⟩
  rw [List.getLast?_concat]
  rfl

instance : IsTrans ν (nameLe nodeName) := ⟨fun _ _ _ hab hbc => le_trans hab hbc⟩

instance : Std.Total (nameLe nodeName) := ⟨fun a b => le_total (nodeName a) (nodeName b)⟩

/-- Complete waves are a schedule. -/
theorem schedule_wavesOf (hnodup : (nodes.map nodeName).Nodup)
    (hknown : ∀ e ∈ edges, e.dependency ∈ nodes.map nodeName)
    (hcomplete : (wavesOf nodeName nodes edges).flatten.length = nodes.length) :
    Schedule nodeName nodes edges (wavesOf nodeName nodes edges) := by
  have hnodes : nodes.Nodup := List.Nodup.of_map nodeName hnodup
  have hlevelled : Levelled (depsOf nodeName nodes edges) [] (wavesOf nodeName nodes edges) :=
    levelled_levels hnodes
  have hsub : ∀ n ∈ (wavesOf nodeName nodes edges).flatten, n ∈ nodes :=
    mem_of_mem_levels fun _ _ _ hx => (List.mem_filter.mp hx).1
  refine ⟨(List.subperm_of_subset hlevelled.nodup_flatten.1 hsub).perm_of_length_le (le_of_eq hcomplete.symm),
    fun wave hwave => (sorted_of_mem_levels wave hwave).2, fun wave hwave => ?_, fun before wave after hwaves n hn => ?_⟩
  · exact List.pairwise_map.mpr (sorted_of_mem_levels wave hwave).1
  · refine ⟨chain_names (chain_of_mem_levels (fun _ _ _ hx => (List.mem_filter.mp hx).1)
      (fun c hc x hx => mem_depsOf.mpr ⟨hc, (mem_dependentsOf.mp hx).2⟩) hwaves hn), fun k hk => ?_⟩
    exact hlevelled.chain_le hwaves hn (chain_nodes hknown hk)

/-- An edge that is rejected is rejected for what is wrong with it. -/
theorem matches_edgeProblem {e : Edge} (he : e ∈ edges) {err : GraphError}
    (h : edgeProblem nodeName nodes e = some err) : Matches nodeName nodes edges err := by
  unfold edgeProblem at h
  split at h
  · rename_i hself
    cases h
    exact ⟨e, he, rfl, hself.symm⟩
  · split at h
    · cases h
      exact ⟨he, .inl rfl, ‹_›⟩
    · split at h
      · cases h
        exact ⟨he, .inr rfl, ‹_›⟩
      · cases h

omit [DecidableEq ν] in
/-- Nothing is longer in the sub-graph of the cacheable edges. -/
theorem Schedule.index_le {edges' : List Edge} (hsub : ∀ e ∈ edges', e ∈ edges)
    {waves waves' before before' after after' : List (List ν)} {wave wave' : List ν} {n : ν}
    (h : Schedule nodeName nodes edges waves) (h' : Schedule nodeName nodes edges' waves')
    (hwaves : waves = before ++ wave :: after) (hwaves' : waves' = before' ++ wave' :: after')
    (hn : n ∈ wave) (hn' : n ∈ wave') : before'.length ≤ before.length :=
  (h.index before wave after hwaves n hn).2 (Chain.mono hsub (h'.index before' wave' after' hwaves' n hn').1)

/-- What is accepted is kept. -/
theorem of_construct_ok {name : String} {g : BuildGraph ν nodeName}
    (h : construct nodeName name nodes edges = .ok g) : g.nodes = nodes ∧ g.edges = edges := by
  unfold construct at h
  split at h
  · cases h
  · split at h
    · cases h
    · split at h
      · cases h
      · split at h
        · split at h
          · cases h
            exact ⟨rfl, rfl⟩
          · cases h
        · cases h

/-- Graphs that are accepted are valid. -/
theorem valid (g : BuildGraph ν nodeName) : Valid nodeName g.nodes g.edges := by
  have hknown := fun e he => (edgeProblem_eq_none.mp (g.edges_known e he)).1
  exact ⟨g.nodup_names, hknown, fun e he => (edgeProblem_eq_none.mp (g.edges_known e he)).2,
    (waves_complete_iff g.nodup_names hknown).mp g.waves_complete⟩

/-- The cacheable edges make no cycle of their own. -/
theorem content_complete (hnodup : (nodes.map nodeName).Nodup)
    (hknown : ∀ e ∈ edges, e.dependent ∈ nodes.map nodeName ∧ e.dependency ∈ nodes.map nodeName)
    (hacyclic : Acyclic edges) :
    (wavesOf nodeName nodes (contentEdges edges)).flatten.length = nodes.length := by
  have hcontent : ∀ e ∈ contentEdges edges, e ∈ edges := fun e he => (List.mem_filter.mp he).1
  exact (waves_complete_iff hnodup fun e he => hknown e (hcontent e he)).mpr (hacyclic.mono hcontent)

/-- Valid graphs are accepted. -/
theorem construct_of_valid {name : String} (hname : name ≠ "") (h : Valid nodeName nodes edges) :
    ∃ g, construct nodeName name nodes edges = .ok g := by
  have hdup : firstDuplicate nodeName nodes [] = none :=
    firstDuplicate_eq_none h.distinct fun _ _ => List.not_mem_nil
  have hedges : edges.findSome? (edgeProblem nodeName nodes) = none :=
    List.findSome?_eq_none_iff.mpr fun e he => edgeProblem_eq_none.mpr ⟨h.known e he, h.noSelf e he⟩
  have hwaves := (waves_complete_iff h.distinct h.known).mpr h.acyclic
  have hcontent := content_complete h.distinct h.known h.acyclic
  unfold construct
  rw [if_neg hname]
  split
  · rename_i n hn
    rw [hdup] at hn
    cases hn
  · split
    · rename_i err herr
      rw [hedges] at herr
      cases herr
    · rw [dif_pos hwaves, dif_pos hcontent]
      exact ⟨_, rfl⟩

/-- What is rejected is rejected for what is wrong with it. -/
theorem matches_of_construct_error {name : String} (hname : name ≠ "") {err : GraphError}
    (h : construct nodeName name nodes edges = .error err) : Matches nodeName nodes edges err := by
  unfold construct at h
  rw [if_neg hname] at h
  split at h
  · rename_i n hn
    cases h
    have hcount := count_of_firstDuplicate hn
    rwa [List.append_nil] at hcount
  · rename_i hdup
    have hnodup := (nodup_of_firstDuplicate hdup).1
    split at h
    · rename_i problem hproblem
      cases h
      obtain ⟨e, he, hproblem⟩ := List.exists_of_findSome?_eq_some hproblem
      exact matches_edgeProblem he hproblem
    · rename_i hedges
      have hknown := fun e he => (edgeProblem_eq_none.mp (List.findSome?_eq_none_iff.mp hedges e he)).1
      split at h
      · rename_i hcomplete
        rw [dif_pos (content_complete hnodup hknown ((waves_complete_iff hnodup hknown).mp hcomplete))] at h
        cases h
      · rename_i hincomplete
        cases h
        exact matches_cycle hnodup hincomplete

/-- **Construction decides acyclicity and levels exactly.** -/
theorem construct_decides {name : String} (hname : name ≠ "") (nodes : List ν) (edges : List Edge) :
    ((∃ g, construct nodeName name nodes edges = .ok g) ↔ Valid nodeName nodes edges) ∧
    (∀ err, construct nodeName name nodes edges = .error err → Matches nodeName nodes edges err) ∧
    ∀ g, construct nodeName name nodes edges = .ok g →
      Schedule nodeName nodes edges g.waves ∧
      Schedule nodeName nodes (edges.filter (·.affectsCacheKey)) g.contentWaves ∧
      ∀ before wave after before' wave' after' n, g.waves = before ++ wave :: after →
        g.contentWaves = before' ++ wave' :: after' → n ∈ wave → n ∈ wave' →
          before'.length ≤ before.length := by
  have hcontent : ∀ e ∈ contentEdges edges, e ∈ edges := fun e he => (List.mem_filter.mp he).1
  refine ⟨⟨?_, construct_of_valid hname⟩, fun err => matches_of_construct_error hname, fun g hg => ?_⟩
  · rintro ⟨g, hg⟩
    obtain ⟨rfl, rfl⟩ := of_construct_ok hg
    exact g.valid
  · obtain ⟨rfl, rfl⟩ := of_construct_ok hg
    have hknown : ∀ e ∈ g.edges, e.dependency ∈ g.nodes.map nodeName := fun e he => (g.valid.known e he).2
    have hwaves := schedule_wavesOf g.nodup_names hknown g.waves_complete
    have hcontentWaves := schedule_wavesOf g.nodup_names (fun e he => hknown e (hcontent e he))
      g.contentWaves_complete
    refine ⟨hwaves, hcontentWaves, ?_⟩
    intro before wave after before' wave' after' n hbefore hbefore' hn hn'
    exact hwaves.index_le hcontent hcontentWaves hbefore hbefore' hn hn'

/-- A pool, a network, and a machine that needs both. -/
theorem construct_decides_machine :
    Valid id ["pool:p", "network:n", "vm:web"] [⟨"vm:web", "pool:p", .ordering, by decide, by decide⟩,
      ⟨"vm:web", "network:n", .bake, by decide, by decide⟩] :=
  (construct_decides (show "plan" ≠ "" by decide) _ _).1.mp ⟨_, rfl⟩

end Construct

end BuildGraph

end TestRange
