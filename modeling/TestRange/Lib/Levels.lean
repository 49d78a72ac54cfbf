/-
Kahn's algorithm by levels.

`levels` sorts the elements of a finite list so that each level holds the elements
whose dependencies all lie in earlier levels.

* `Levelled` — what a list of levels must satisfy on top of what is already done;
* `levelled_levels` — the algorithm produces such levels;
* `Levelled.mem_of_dep`, `Levelled.mem_of_transGen` — a dependency, also a
  transitive one, lies in an earlier level;
* `mem_before_of_deps` — what has dependencies lies behind all that has none;
* `levelsFrom_succ` — enough fuel: once it covers the elements not yet done, more
  fuel changes nothing;
* `mem_levels_of_acyclic` — without a cycle no element is left out;
* `Levelled.chain_le`, `chain_of_mem_levels` — the index of a level is the length of the
  longest chain below its elements.
-/
import Mathlib.Data.Fintype.Card
import Mathlib.Data.Fintype.EquivFin
import Mathlib.Data.Fintype.Sets
import Mathlib.Data.List.Dedup
import Mathlib.Data.List.Nodup
import Mathlib.Data.List.Sort
import Mathlib.Logic.Relation

variable {α : Type} [DecidableEq α]

section Algorithm

variable (le : α → α → Prop) [DecidableRel le] (deps dependents : α → List α)

/-- The elements made ready by `current`, all of `done` being done. -/
def nextLevel (done current : List α) : List α :=
  (((current.flatMap dependents).dedup.filter fun d =>
    d ∉ done ∧ ∀ x ∈ deps d, x ∈ done)).insertionSort le

/-- Level after level, until none is ready. -/
def levelsFrom : ℕ → List α → List α → List (List α)
  | 0, _, _ => []
  | fuel + 1, done, current =>
    if current = [] then []
    else current :: levelsFrom fuel (done ++ current) (nextLevel le deps dependents (done ++ current) current)

/-- The levels of `nodes`, from those without dependencies on. -/
def levels (nodes : List α) : List (List α) :=
  levelsFrom le deps dependents (nodes.length + 1) []
    ((nodes.filter fun n => deps n = []).insertionSort le)

end Algorithm

/-- Levels on top of the elements of `done`: each is new, and its dependencies are
done before it. -/
inductive Levelled (deps : α → List α) : List α → List (List α) → Prop
  | nil {done : List α} : Levelled deps done []
  | cons {done level : List α} {rest : List (List α)} (hnodup : level.Nodup)
      (hnew : ∀ x ∈ level, x ∉ done) (hdeps : ∀ x ∈ level, ∀ d ∈ deps x, d ∈ done)
      (hrest : Levelled deps (done ++ level) rest) : Levelled deps done (level :: rest)

namespace Levelled

variable {deps : α → List α} {done : List α} {ls : List (List α)}

omit [DecidableEq α] in
/-- No element occurs twice. -/
theorem nodup_flatten (h : Levelled deps done ls) :
    ls.flatten.Nodup ∧ ∀ x ∈ ls.flatten, x ∉ done := by
  induction h with
  | nil => simp
  | @cons done level rest hnodup hnew hdeps hrest ih =>
    constructor
    · rw [List.flatten_cons, List.nodup_append]
      refine ⟨hnodup, ih.1, fun x hx y hy hxy => ?_⟩
      exact ih.2 y hy (List.mem_append_right done (hxy ▸ hx))
    · intro x hx
      rw [List.flatten_cons, List.mem_append] at hx
      rcases hx with hx | hx
      · exact hnew x hx
      · exact fun hd => ih.2 x hx (List.mem_append_left level hd)

omit [DecidableEq α] in
/-- A dependency lies in an earlier level, or was done before. -/
theorem mem_of_dep (h : Levelled deps done ls) {pre post : List (List α)} {level : List α}
    (hls : ls = pre ++ level :: post) {x d : α} (hx : x ∈ level) (hd : d ∈ deps x) :
    d ∈ done ∨ d ∈ pre.flatten := by
  induction h generalizing pre with
  | nil => simp at hls
  | @cons done lev rest hnodup hnew hdeps hrest ih =>
    cases pre with
    | nil =>
      obtain ⟨rfl, rfl⟩ := List.cons.inj hls
      exact .inl (hdeps x hx d hd)
    | cons p pre =>
      obtain ⟨rfl, hrest'⟩ := List.cons.inj hls
      rcases ih hrest' with hmem | hmem
      · rcases List.mem_append.mp hmem with hmem | hmem
        · exact .inl hmem
        · exact .inr (List.mem_append_left _ hmem)
      · exact .inr (List.mem_append_right _ hmem)

omit [DecidableEq α] in
/-- With nothing done before, a transitive dependency lies in an earlier level. -/
theorem mem_of_transGen (h : Levelled deps [] ls) {pre post : List (List α)} {level : List α}
    (hls : ls = pre ++ level :: post) {x d : α} (hx : x ∈ level)
    (hd : Relation.TransGen (fun a b => b ∈ deps a) x d) : d ∈ pre.flatten := by
  have hone : ∀ (pre post : List (List α)) (level : List α) (x d : α),
      ls = pre ++ level :: post → x ∈ level → d ∈ deps x → d ∈ pre.flatten := by
    intro pre post level x d hls hx hd
    exact (h.mem_of_dep hls hx hd).resolve_left (List.not_mem_nil)
  induction hd with
  | single hd => exact hone _ _ _ _ _ hls hx hd
  | @tail b c _ hbc ih =>
    -- `b` lies in some level of `pre`, and `c` in one before that.
    obtain ⟨lev, hlev, hb⟩ := List.mem_flatten.mp ih
    obtain ⟨pre₁, pre₂, rfl⟩ := List.append_of_mem hlev
    have hc : c ∈ pre₁.flatten := by
      refine hone pre₁ (pre₂ ++ level :: post) lev b c ?_ hb hbc
      rw [hls]
      simp
    rw [List.flatten_append]
    exact List.mem_append_left _ hc

end Levelled

section Correctness

variable {le : α → α → Prop} [DecidableRel le] {deps dependents : α → List α}

theorem mem_nextLevel {done current : List α} {x : α} :
    x ∈ nextLevel le deps dependents done current ↔
      (∃ c ∈ current, x ∈ dependents c) ∧ x ∉ done ∧ ∀ d ∈ deps x, d ∈ done := by
  rw [nextLevel, (List.perm_insertionSort le _).mem_iff, List.mem_filter, List.mem_dedup,
    List.mem_flatMap]
  simp

theorem nodup_nextLevel (done current : List α) :
    (nextLevel le deps dependents done current).Nodup := by
  rw [nextLevel, (List.perm_insertionSort le _).nodup_iff]
  exact (List.nodup_dedup _).filter _

theorem levelled_levelsFrom {fuel : ℕ} {done current : List α} (hnodup : current.Nodup)
    (hnew : ∀ x ∈ current, x ∉ done) (hdeps : ∀ x ∈ current, ∀ d ∈ deps x, d ∈ done) :
    Levelled deps done (levelsFrom le deps dependents fuel done current) := by
  induction fuel generalizing done current with
  | zero => exact .nil
  | succ fuel ih =>
    rw [levelsFrom]
    split_ifs with hc
    · exact .nil
    · refine .cons hnodup hnew hdeps (ih (nodup_nextLevel _ _) ?_ ?_)
      · exact fun x hx => (mem_nextLevel.mp hx).2.1
      · exact fun x hx => (mem_nextLevel.mp hx).2.2

/-- **The algorithm produces levels.** -/
theorem levelled_levels {nodes : List α} (hnodup : nodes.Nodup) :
    Levelled deps [] (levels le deps dependents nodes) := by
  have hperm := List.perm_insertionSort le (nodes.filter fun n => deps n = [])
  refine levelled_levelsFrom ?_ ?_ ?_
  · exact hperm.nodup_iff.mpr (hnodup.filter _)
  · exact fun x _ => List.not_mem_nil
  · intro x hx d hd
    have hx' := (List.mem_filter.mp (hperm.mem_iff.mp hx)).2
    have hnil : deps x = [] := by simpa using hx'
    rw [hnil] at hd
    exact hd

/-- The levels hold elements of `nodes` only, when `dependents` does. -/
theorem mem_of_mem_levelsFrom {nodes : List α} (hdep : ∀ c ∈ nodes, ∀ x ∈ dependents c, x ∈ nodes)
    {fuel : ℕ} {done current : List α} (hcur : ∀ x ∈ current, x ∈ nodes) :
    ∀ x ∈ (levelsFrom le deps dependents fuel done current).flatten, x ∈ nodes := by
  induction fuel generalizing done current with
  | zero => simp [levelsFrom]
  | succ fuel ih =>
    rw [levelsFrom]
    split_ifs with hc
    · simp
    · intro x hx
      rw [List.flatten_cons, List.mem_append] at hx
      rcases hx with hx | hx
      · exact hcur x hx
      · refine ih (fun y hy => ?_) x hx
        obtain ⟨⟨c, hcc, hy⟩, -⟩ := mem_nextLevel.mp hy
        exact hdep c (hcur c hcc) y hy

theorem mem_of_mem_levels {nodes : List α} (hdep : ∀ c ∈ nodes, ∀ x ∈ dependents c, x ∈ nodes) :
    ∀ x ∈ (levels le deps dependents nodes).flatten, x ∈ nodes :=
  mem_of_mem_levelsFrom hdep fun _ hx =>
    (List.mem_filter.mp ((List.perm_insertionSort le _).mem_iff.mp hx)).1

/-- The first level holds the elements without dependencies. -/
theorem levels_eq_cons {nodes : List α} {x : α} (hx : x ∈ nodes) (hdeps : deps x = []) :
    ∃ first rest, levels le deps dependents nodes = first :: rest ∧
      ∀ y, y ∈ first ↔ y ∈ nodes ∧ deps y = [] := by
  have hmem : ∀ y, y ∈ (nodes.filter fun n => deps n = []).insertionSort le ↔
      y ∈ nodes ∧ deps y = [] := by
    intro y
    rw [(List.perm_insertionSort le _).mem_iff]
    simp
  have hne : (nodes.filter fun n => deps n = []).insertionSort le ≠ [] :=
    List.ne_nil_of_mem ((hmem x).mpr ⟨hx, hdeps⟩)
  exact ⟨_, _, if_neg hne, hmem⟩

/-- An element with dependencies lies behind all elements without. -/
theorem mem_before_of_deps {nodes : List α} {pre post : List (List α)} {level : List α}
    (hls : levels le deps dependents nodes = pre ++ level :: post) {x y : α} (hy : y ∈ level)
    (hydeps : deps y ≠ []) (hx : x ∈ nodes) (hxdeps : deps x = []) : x ∈ pre.flatten := by
  obtain ⟨first, rest, hcons, hmem⟩ : ∃ first rest, levels le deps dependents nodes = first :: rest ∧
      ∀ y, y ∈ first ↔ y ∈ nodes ∧ deps y = [] := levels_eq_cons hx hxdeps
  rw [hcons] at hls
  cases pre with
  | nil =>
    obtain ⟨rfl, -⟩ := List.cons.inj hls
    exact absurd ((hmem y).mp hy).2 hydeps
  | cons p pre =>
    obtain ⟨rfl, -⟩ := List.cons.inj hls
    exact List.mem_append_left _ ((hmem x).mpr ⟨hx, hxdeps⟩)

/-- Fuel for all elements that are not yet done is enough. -/
theorem levelsFrom_succ {nodes : List α} (hdep : ∀ c ∈ nodes, ∀ x ∈ dependents c, x ∈ nodes)
    {fuel : ℕ} {done current : List α} (hnd : (done ++ current).Nodup)
    (hsub : ∀ x ∈ done ++ current, x ∈ nodes) (hfuel : nodes.length < fuel + done.length) :
    levelsFrom le deps dependents (fuel + 1) done current =
      levelsFrom le deps dependents fuel done current := by
  induction fuel generalizing done current with
  | zero =>
    have hle : (done ++ current).length ≤ nodes.length :=
      (List.subperm_of_subset hnd hsub).length_le
    rw [List.length_append] at hle
    omega
  | succ fuel ih =>
    show (if current = [] then [] else current :: levelsFrom le deps dependents (fuel + 1) _ _) =
      if current = [] then [] else current :: levelsFrom le deps dependents fuel _ _
    split_ifs with hc
    · rfl
    · have hpos : 0 < current.length := List.length_pos_iff.mpr hc
      rw [ih]
      · rw [List.nodup_append]
        refine ⟨hnd, nodup_nextLevel _ _, fun x hx y hy hxy => ?_⟩
        exact (mem_nextLevel.mp hy).2.1 (hxy ▸ hx)
      · intro x hx
        rcases List.mem_append.mp hx with hx | hx
        · exact hsub x hx
        · obtain ⟨⟨c, hcc, hx⟩, -⟩ := mem_nextLevel.mp hx
          exact hdep c (hsub c (List.mem_append_right done hcc)) x hx
      · rw [List.length_append]
        omega

/-- Once what is ready is listed, every element whose dependencies are listed is. -/
theorem closed_levelsFrom {nodes : List α} (hdep : ∀ c ∈ nodes, ∀ x ∈ dependents c, x ∈ nodes)
    (hback : ∀ x ∈ nodes, ∀ d ∈ deps x, x ∈ dependents d) (fuel : ℕ) (done current : List α)
    (hnd : (done ++ current).Nodup) (hsub : ∀ x ∈ done ++ current, x ∈ nodes)
    (hfuel : nodes.length < fuel + done.length)
    (hready : ∀ x ∈ nodes, (∀ d ∈ deps x, d ∈ done) → x ∈ done ++ current) :
    ∀ x ∈ nodes, (∀ d ∈ deps x, d ∈ done ++ (levelsFrom le deps dependents fuel done current).flatten) →
      x ∈ done ++ (levelsFrom le deps dependents fuel done current).flatten := by
  induction fuel generalizing done current with
  | zero =>
    have hle : (done ++ current).length ≤ nodes.length :=
      (List.subperm_of_subset hnd hsub).length_le
    rw [List.length_append] at hle
    omega
  | succ fuel ih =>
    rw [levelsFrom]
    split_ifs with hc
    · -- Nothing is ready that is not done.
      subst hc
      simpa using hready
    · have hpos : 0 < current.length := List.length_pos_iff.mpr hc
      rw [List.flatten_cons, ← List.append_assoc]
      refine ih _ _ ?_ ?_ ?_ ?_
      · rw [List.nodup_append]
        refine ⟨hnd, nodup_nextLevel _ _, fun x hx y hy hxy => ?_⟩
        exact (mem_nextLevel.mp hy).2.1 (hxy ▸ hx)
      · intro x hx
        rcases List.mem_append.mp hx with hx | hx
        · exact hsub x hx
        · obtain ⟨⟨c, hcc, hx⟩, -⟩ := mem_nextLevel.mp hx
          exact hdep c (hsub c (List.mem_append_right done hcc)) x hx
      · rw [List.length_append]
        omega
      · -- What has become ready needs something of the last level.
        intro x hx hdeps
        by_cases hold : x ∈ done ++ current
        · exact List.mem_append_left _ hold
        · refine List.mem_append_right _ (mem_nextLevel.mpr ⟨?_, hold, hdeps⟩)
          by_contra hnone
          refine hold (hready x hx fun d hd => ?_)
          rcases List.mem_append.mp (hdeps d hd) with hdone | hcur
          · exact hdone
          · exact absurd ⟨d, hcur, hback x hx d hd⟩ hnone

/-- Every element whose dependencies are listed is listed. -/
theorem closed_levels {nodes : List α} (hnodup : nodes.Nodup)
    (hdep : ∀ c ∈ nodes, ∀ x ∈ dependents c, x ∈ nodes)
    (hback : ∀ x ∈ nodes, ∀ d ∈ deps x, x ∈ dependents d) {x : α} (hx : x ∈ nodes)
    (hdeps : ∀ d ∈ deps x, d ∈ (levels le deps dependents nodes).flatten) :
    x ∈ (levels le deps dependents nodes).flatten := by
  have hperm := List.perm_insertionSort le (nodes.filter fun n => deps n = [])
  have hclosed : x ∈ [] ++ (levels le deps dependents nodes).flatten := by
    refine closed_levelsFrom hdep hback (nodes.length + 1) [] _ ?_ ?_ ?_ ?_ x hx hdeps
    · rw [List.nil_append]
      exact hperm.nodup_iff.mpr (hnodup.filter _)
    · exact fun y hy => (List.mem_filter.mp (hperm.mem_iff.mp hy)).1
    · rw [List.length_nil]
      omega
    · intro y hy hnone
      have hnil : deps y = [] := List.eq_nil_iff_forall_not_mem.mpr fun d hd => List.not_mem_nil (hnone d hd)
      rw [List.nil_append]
      exact hperm.mem_iff.mpr (List.mem_filter.mpr ⟨hy, by simpa using hnil⟩)
  exact hclosed

/-- **Without a cycle every element is listed.** -/
theorem mem_levels_of_acyclic {nodes : List α} (hnodup : nodes.Nodup)
    (hdep : ∀ c ∈ nodes, ∀ x ∈ dependents c, x ∈ nodes) (hsub : ∀ x ∈ nodes, ∀ d ∈ deps x, d ∈ nodes)
    (hback : ∀ x ∈ nodes, ∀ d ∈ deps x, x ∈ dependents d)
    (hacyclic : ∀ x ∈ nodes, ¬Relation.TransGen (fun a b => b ∈ deps a) x x) {x : α} (hx : x ∈ nodes) :
    x ∈ (levels le deps dependents nodes).flatten := by
  -- Induction along the dependencies, which are well-founded on finitely many elements.
  let r : {x // x ∈ nodes} → {x // x ∈ nodes} → Prop :=
    fun b a => Relation.TransGen (fun a b => b ∈ deps a) a.1 b.1
  have htrans : IsTrans {x // x ∈ nodes} r := ⟨fun _ _ _ hab hbc => hbc.trans hab⟩
  have hirrefl : Std.Irrefl r := ⟨fun a ha => hacyclic a.1 a.2 ha⟩
  have hfinite : Finite {x // x ∈ nodes} := inferInstance
  have hwf : WellFounded r := Finite.wellFounded_of_trans_of_irrefl r
  suffices h : ∀ a : {x // x ∈ nodes}, a.1 ∈ (levels le deps dependents nodes).flatten from h ⟨x, hx⟩
  intro a
  induction a using hwf.induction with
  | _ a ih =>
    refine closed_levels hnodup hdep hback a.2 fun d hd => ?_
    exact ih ⟨d, hsub a.1 a.2 d hd⟩ (.single hd)

end Correctness

/-! ### The index of a level -/

/-- A chain of `n` dependencies below an element. -/
inductive Chain (deps : α → List α) : ℕ → α → Prop
  | zero (x : α) : Chain deps 0 x
  | succ {n : ℕ} {x d : α} (hd : d ∈ deps x) (h : Chain deps n d) : Chain deps (n + 1) x

section Index

variable {le : α → α → Prop} [DecidableRel le] {deps dependents : α → List α}

omit [DecidableEq α] in
/-- A chain below an element goes down a level with each dependency. -/
theorem Levelled.chain_le {ls pre post : List (List α)} {level : List α} (h : Levelled deps [] ls)
    (hls : ls = pre ++ level :: post) {x : α} (hx : x ∈ level) {n : ℕ} (hn : Chain deps n x) :
    n ≤ pre.length := by
  induction hn generalizing pre post level with
  | zero x => exact Nat.zero_le _
  | @succ n x d hd _ ih =>
    have hmem := (h.mem_of_dep hls hx hd).resolve_left List.not_mem_nil
    obtain ⟨lev, hlev, hdlev⟩ := List.mem_flatten.mp hmem
    obtain ⟨pre₁, pre₂, rfl⟩ := List.append_of_mem hlev
    have hle : n ≤ pre₁.length := ih (show ls = pre₁ ++ lev :: (pre₂ ++ level :: post) by rw [hls]; simp) hdlev
    rw [List.length_append, List.length_cons]
    omega

theorem chain_of_mem_levelsFrom {nodes : List α} (hdep : ∀ c ∈ nodes, ∀ x ∈ dependents c, x ∈ nodes)
    (hback : ∀ c ∈ nodes, ∀ x ∈ dependents c, c ∈ deps x) {fuel m : ℕ} {done current : List α}
    (hsub : ∀ x ∈ current, x ∈ nodes) (hcur : ∀ x ∈ current, Chain deps m x) {pre post : List (List α)} {level : List α}
    (hls : levelsFrom le deps dependents fuel done current = pre ++ level :: post) {x : α} (hx : x ∈ level) :
    Chain deps (m + pre.length) x := by
  induction fuel generalizing done current m pre with
  | zero => simp [levelsFrom] at hls
  | succ fuel ih =>
    rw [levelsFrom] at hls
    split_ifs at hls with hc
    · simp at hls
    · cases pre with
      | nil =>
        obtain ⟨rfl, -⟩ := List.cons.inj hls
        exact hcur x hx
      | cons p pre =>
        obtain ⟨-, hrest⟩ := List.cons.inj hls
        have hnext : ∀ y ∈ nextLevel le deps dependents (done ++ current) current, Chain deps (m + 1) y := by
          intro y hy
          obtain ⟨⟨c, hcc, hyc⟩, -⟩ := mem_nextLevel.mp hy
          exact .succ (hback c (hsub c hcc) y hyc) (hcur c hcc)
        have hnodes : ∀ y ∈ nextLevel le deps dependents (done ++ current) current, y ∈ nodes := by
          intro y hy
          obtain ⟨⟨c, hcc, hyc⟩, -⟩ := mem_nextLevel.mp hy
          exact hdep c (hsub c hcc) y hyc
        have hchain := ih hnodes hnext hrest
        rwa [List.length_cons, show m + (pre.length + 1) = m + 1 + pre.length by omega]

/-- There is a chain as long as the index of the level. -/
theorem chain_of_mem_levels {nodes : List α} (hdep : ∀ c ∈ nodes, ∀ x ∈ dependents c, x ∈ nodes)
    (hback : ∀ c ∈ nodes, ∀ x ∈ dependents c, c ∈ deps x) {pre post : List (List α)} {level : List α} (hls : levels le deps dependents nodes = pre ++ level :: post)
    {x : α} (hx : x ∈ level) : Chain deps pre.length x := by
  have hperm := List.perm_insertionSort le (nodes.filter fun n => deps n = [])
  have hchain := chain_of_mem_levelsFrom hdep hback
    (fun y hy => (List.mem_filter.mp (hperm.mem_iff.mp hy)).1) (fun y _ => Chain.zero y) hls hx
  rwa [Nat.zero_add] at hchain

/-- Every level is sorted, and holds something. -/
theorem sorted_of_mem_levelsFrom [IsTrans α le] [Std.Total le] {fuel : ℕ} {done current : List α}
    (hcur : current.Pairwise le) :
    ∀ level ∈ levelsFrom le deps dependents fuel done current, level.Pairwise le ∧ level ≠ [] := by
  induction fuel generalizing done current with
  | zero => simp [levelsFrom]
  | succ fuel ih =>
    rw [levelsFrom]
    split_ifs with hc
    · simp
    · intro level hlevel
      rcases List.mem_cons.mp hlevel with rfl | hlevel
      · exact ⟨hcur, hc⟩
      · exact ih (List.pairwise_insertionSort le _) level hlevel

theorem sorted_of_mem_levels [IsTrans α le] [Std.Total le] {nodes : List α} :
    ∀ level ∈ levels le deps dependents nodes, level.Pairwise le ∧ level ≠ [] :=
  sorted_of_mem_levelsFrom (List.pairwise_insertionSort le _)

end Index
