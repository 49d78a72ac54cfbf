/-
The search for a cycle, with a stack of iterators.

The search goes down from one element to the next along their dependencies, as far as it gets,
and back up when all dependencies of an element are used up.  What is settled is left out, and so
is what the search has come back from; a dependency that is on the way down closes a cycle.

* `Search`, `Search.step`, `Search.run` — the search from one root;
* `findCycle` — the search from one root after the other;
* `IsCycle` — what is found;
* `findCycle_of_left` — where every element that is not settled needs another such, the search
  never comes back up, and ends with a cycle;
* `searchFrom_mono` — more fuel changes nothing.
-/
import Mathlib.Data.List.Chain
import Mathlib.Data.List.Nodup
import Mathlib.Data.List.Perm.Subperm
import Mathlib.Data.List.Sort

namespace CycleSearch

variable {α : Type} [DecidableEq α]

/-! ### The search -/

/-- What the rest of an iterator brings. -/
inductive Scan (α : Type)
  | exhausted
  /-- A dependency on the path. -/
  | closes (dep : α)
  /-- A dependency that is new, and the rest of the iterator. -/
  | descends (dep : α) (rest : List α)

/-- Take dependencies from an iterator until one is neither settled nor black. -/
def scan (settled black onPath : List α) : List α → Scan α
  | [] => .exhausted
  | dep :: rest =>
    if dep ∈ settled ∨ dep ∈ black then scan settled black onPath rest
    else if dep ∈ onPath then .closes dep
    else .descends dep rest

/-- The search below a root: the elements on the way down with the rests of their iterators, the
last one first; the same elements from the root on, and as a set; and what the search has come
back from. -/
structure Search (α : Type) where
  frames : List (α × List α)
  path : List α
  onPath : List α
  black : List α

/-- How a search ends. -/
inductive Ended (α : Type)
  | cycle (path : List α)
  /-- All roots are done, and there was no cycle. -/
  | assertionError
  | outOfFuel

variable (le : α → α → Prop) [DecidableRel le] (deps : α → List α) (settled : List α)

/-- The search at a root. -/
def Search.start (root : α) (black : List α) : Search α :=
  ⟨[(root, (deps root).insertionSort le)], [root], [root], black⟩

/-- One turn of the loop, for the last frame: go on with the search or report a cycle. -/
def Search.step (s : Search α) (node : α) (rest : List α) (below : List (α × List α)) :
    Search α ⊕ List α :=
  match scan settled s.black s.onPath rest with
  | .exhausted => .inl ⟨below, s.path.dropLast, s.onPath.filter (· ≠ node), node :: s.black⟩
  | .closes dep => .inr (s.path.drop (s.path.idxOf dep) ++ [dep])
  | .descends dep rest =>
    .inl ⟨(dep, (deps dep).insertionSort le) :: (node, rest) :: below, s.path ++ [dep],
      dep :: s.onPath, s.black⟩

/-- `while frames`: what has become black, or a cycle. -/
def Search.run : ℕ → Search α → Option (List α ⊕ List α)
  | 0, _ => none
  | fuel + 1, s =>
    match s.frames with
    | [] => some (.inl s.black)
    | (node, rest) :: below =>
      match s.step le deps settled node rest below with
      | .inl s' => Search.run fuel s'
      | .inr cycle => some (.inr cycle)

/-- Search from one root after the other. -/
def searchFrom (fuel : ℕ) : List α → List α → Ended α
  | [], _ => .assertionError
  | root :: roots, black =>
    if root ∈ settled ∨ root ∈ black then searchFrom fuel roots black
    else
      match Search.run le deps settled fuel (Search.start le deps root black) with
      | none => .outOfFuel
      | some (.inr cycle) => .cycle cycle
      | some (.inl black) => searchFrom fuel roots black

def findCycle (fuel : ℕ) (nodes : List α) : Ended α := searchFrom le deps settled fuel nodes []

/-! ### What is found -/

omit [DecidableEq α] in
/-- A closed list of dependencies among elements that are not settled. -/
structure IsCycle (first : α) (rest : List α) : Prop where
  nodup : (first :: rest).Nodup
  unsettled : ∀ x ∈ first :: rest, x ∉ settled
  chain : List.IsChain (fun a b => b ∈ deps a) (first :: rest ++ [first])

section Correctness

variable {deps settled} {nodes : List α}

/-- An iterator with a dependency that is neither settled nor black. -/
theorem scan_of_mem {black rest : List α} (onPath : List α) {d : α} (hd : d ∈ rest)
    (hnew : d ∉ settled ∧ d ∉ black) : ∃ dep ∈ rest, (dep ∉ settled ∧ dep ∉ black) ∧
      ((dep ∈ onPath ∧ scan settled black onPath rest = .closes dep) ∨
        (dep ∉ onPath ∧ ∃ rest', scan settled black onPath rest = .descends dep rest')) := by
  induction rest with
  | nil => cases hd
  | cons x rest ih =>
    rw [scan]
    by_cases hskip : x ∈ settled ∨ x ∈ black
    · rw [if_pos hskip]
      have hrest : d ∈ rest := by
        rcases List.mem_cons.mp hd with rfl | hd
        · exact absurd hskip (not_or.mpr hnew)
        · exact hd
      obtain ⟨dep, hdep, hfound⟩ := ih hrest
      exact ⟨dep, List.mem_cons_of_mem _ hdep, hfound⟩
    · rw [if_neg hskip]
      refine ⟨x, List.mem_cons_self, not_or.mp hskip, ?_⟩
      by_cases hon : x ∈ onPath
      · exact .inl ⟨hon, if_pos hon⟩
      · exact .inr ⟨hon, rest, if_neg hon⟩

variable (deps settled nodes) in
/-- The search on its way down: nothing is black, and the path is one of dependencies among
elements that are not settled. -/
structure Descends (s : Search α) (node : α) (rest : List α) (below : List (α × List α)) : Prop where
  frames : s.frames = (node, rest) :: below
  black : s.black = []
  path : ∃ before, s.path = before ++ [node]
  onPath : ∀ x, x ∈ s.onPath ↔ x ∈ s.path
  nodup : s.path.Nodup
  known : ∀ x ∈ s.path, x ∈ nodes ∧ x ∉ settled
  chain : List.IsChain (fun a b => b ∈ deps a) s.path
  /-- The iterator of the last element has not been started. -/
  fresh : ∀ d, d ∈ rest ↔ d ∈ deps node

variable {s : Search α} {node : α} {rest : List α} {below : List (α × List α)}

omit [DecidableEq α] in
variable (deps) in
theorem descends_start {root : α} (hroot : root ∈ nodes) (hunsettled : root ∉ settled) :
    Descends deps settled nodes (Search.start le deps root []) root
      ((deps root).insertionSort le) [] where
  frames := rfl
  black := rfl
  path := ⟨[], rfl⟩
  onPath := fun _ => Iff.rfl
  nodup := List.nodup_singleton root
  known := by
    intro x hx
    obtain rfl := List.mem_singleton.mp hx
    exact ⟨hroot, hunsettled⟩
  chain := List.isChain_singleton root
  fresh := fun d => List.mem_insertionSort le

/-- The path from a dependency of its last element on is a cycle. -/
theorem Descends.closes (h : Descends deps settled nodes s node rest below) {dep : α}
    (hdep : dep ∈ deps node) (hon : dep ∈ s.path) :
    ∃ after, s.path.drop (s.path.idxOf dep) ++ [dep] = dep :: after ++ [dep] ∧
      IsCycle deps settled dep after := by
  obtain ⟨before, after, hsplit, hnot⟩ := List.eq_append_cons_of_mem hon
  have hdrop : s.path.drop (s.path.idxOf dep) = dep :: after := by
    rw [hsplit, List.idxOf_append_of_notMem hnot, List.idxOf_cons_self, Nat.add_zero,
      List.drop_left']
    rfl
  have hsuffix : dep :: after <:+ s.path := ⟨before, hsplit.symm⟩
  refine ⟨after, by rw [hdrop], h.nodup.sublist hsuffix.sublist, ?_, ?_⟩
  · exact fun x hx => (h.known x (hsuffix.subset hx)).2
  · refine List.isChain_append.mpr ⟨h.chain.suffix hsuffix, List.isChain_singleton dep, ?_⟩
    intro x hx y hy
    obtain ⟨start, hpath⟩ := h.path
    have hlast : (dep :: after).getLast? = some node := by
      have hwhole : s.path.getLast? = some node := by rw [hpath, List.getLast?_concat]
      rw [← hwhole, hsplit, List.getLast?_append_of_ne_nil _ (List.cons_ne_nil _ _)]
    obtain rfl : node = x := Option.some.inj (hlast.symm.trans hx)
    obtain rfl : dep = y := Option.some.inj hy
    exact hdep

omit [DecidableEq α] in
/-- A new dependency of the last element prolongs the path. -/
theorem Descends.descends (h : Descends deps settled nodes s node rest below) {dep : α}
    (hdep : dep ∈ deps node) (hknown : dep ∈ nodes ∧ dep ∉ settled) (hnew : dep ∉ s.path)
    (rest' : List α) : Descends deps settled nodes
      ⟨(dep, (deps dep).insertionSort le) :: (node, rest') :: below, s.path ++ [dep],
        dep :: s.onPath, s.black⟩ dep ((deps dep).insertionSort le) ((node, rest') :: below) where
  frames := rfl
  black := h.black
  path := ⟨s.path, rfl⟩
  onPath := by
    intro x
    rw [List.mem_cons, h.onPath x, List.mem_append, List.mem_singleton]
    exact or_comm
  nodup := List.nodup_append.mpr ⟨h.nodup, List.nodup_singleton dep, fun x hx y hy hxy => by
    rw [List.mem_singleton.mp hy] at hxy
    exact hnew (hxy ▸ hx)⟩
  known := by
    intro x hx
    rcases List.mem_append.mp hx with hx | hx
    · exact h.known x hx
    · rwa [List.mem_singleton.mp hx]
  chain := by
    obtain ⟨before, hpath⟩ := h.path
    refine List.isChain_append.mpr ⟨h.chain, List.isChain_singleton dep, ?_⟩
    intro x hx y hy
    rw [hpath, List.getLast?_concat] at hx
    obtain rfl : node = x := Option.some.inj hx
    obtain rfl : dep = y := Option.some.inj hy
    exact hdep
  fresh := fun d => List.mem_insertionSort le

/-- **One turn of the loop**, on the way down: a cycle, or one element further. -/
theorem Descends.step (h : Descends deps settled nodes s node rest below)
    (hsub : ∀ x ∈ nodes, ∀ d ∈ deps x, d ∈ nodes)
    (hleft : ∀ x ∈ nodes, x ∉ settled → ∃ d ∈ deps x, d ∉ settled) :
    (∃ first after, s.step le deps settled node rest below = .inr (first :: after ++ [first]) ∧
        IsCycle deps settled first after ∧ ∀ x ∈ first :: after, x ∈ nodes) ∨
      ∃ s' node' rest' below', s.step le deps settled node rest below = .inl s' ∧
        Descends deps settled nodes s' node' rest' below' ∧ s'.path.length = s.path.length + 1 := by
  obtain ⟨start, hpath⟩ := h.path
  have hnode : node ∈ nodes ∧ node ∉ settled := h.known node (by rw [hpath]; simp)
  obtain ⟨d, hd, hunsettled⟩ := hleft node hnode.1 hnode.2
  have hnotBlack : ∀ x, x ∉ s.black := by simp [h.black]
  obtain ⟨dep, hdep, ⟨hdepUnsettled, -⟩, ⟨hon, hscan⟩ | ⟨hnew, rest', hscan⟩⟩ :=
    scan_of_mem s.onPath ((h.fresh d).mpr hd) ⟨hunsettled, hnotBlack d⟩
  · left
    have hneeds : dep ∈ deps node := (h.fresh dep).mp hdep
    obtain ⟨after, hcycle, hclosed⟩ := h.closes hneeds ((h.onPath dep).mp hon)
    refine ⟨dep, after, ?_, hclosed, fun x hx => ?_⟩
    · unfold Search.step
      rw [hscan, ← hcycle]
    · have hmem : x ∈ s.path.drop (s.path.idxOf dep) ++ [dep] := by
        rw [hcycle]
        exact List.mem_append_left _ hx
      rcases List.mem_append.mp hmem with hx | hx
      · exact (h.known x (List.mem_of_mem_drop hx)).1
      · rw [List.mem_singleton.mp hx]
        exact hsub node hnode.1 dep hneeds
  · right
    have hneeds : dep ∈ deps node := (h.fresh dep).mp hdep
    have hnext := h.descends le hneeds ⟨hsub node hnode.1 dep hneeds, hdepUnsettled⟩
      (fun hin => hnew ((h.onPath dep).mpr hin)) rest'
    refine ⟨_, _, _, _, ?_, hnext, by simp⟩
    unfold Search.step
    rw [hscan]

/-- **The whole loop**: the path cannot grow longer than there are elements. -/
theorem Descends.run (hsub : ∀ x ∈ nodes, ∀ d ∈ deps x, d ∈ nodes)
    (hleft : ∀ x ∈ nodes, x ∉ settled → ∃ d ∈ deps x, d ∉ settled) (fuel : ℕ)
    (h : Descends deps settled nodes s node rest below) (hfuel : nodes.length < fuel + s.path.length) :
    ∃ first after, s.run le deps settled fuel = some (.inr (first :: after ++ [first])) ∧
      IsCycle deps settled first after ∧ ∀ x ∈ first :: after, x ∈ nodes := by
  induction fuel generalizing s node rest below with
  | zero =>
    have hle : s.path.length ≤ nodes.length :=
      (List.subperm_of_subset h.nodup fun x hx => (h.known x hx).1).length_le
    omega
  | succ fuel ih =>
    rw [Search.run, h.frames]
    dsimp only
    rcases h.step le hsub hleft with
      ⟨first, after, hstep, hcycle⟩ | ⟨s', node', rest', below', hstep, hnext, hlen⟩
    · rw [hstep]
      exact ⟨first, after, rfl, hcycle⟩
    · rw [hstep]
      exact ih hnext (by omega)

/-- **What the search finds.**  Some element is not settled, and each of these needs another: the
search ends with a cycle, for however much fuel above the number of elements. -/
theorem findCycle_of_left (hsub : ∀ x ∈ nodes, ∀ d ∈ deps x, d ∈ nodes)
    (hleft : ∀ x ∈ nodes, x ∉ settled → ∃ d ∈ deps x, d ∉ settled) {x : α} (hx : x ∈ nodes)
    (hunsettled : x ∉ settled) {fuel : ℕ} (hfuel : nodes.length < fuel) :
    ∃ first after, findCycle le deps settled fuel nodes = .cycle (first :: after ++ [first]) ∧
      IsCycle deps settled first after ∧ ∀ y ∈ first :: after, y ∈ nodes := by
  suffices hroots : ∀ roots : List α, (∀ y ∈ roots, y ∈ nodes) → x ∈ roots →
      ∃ first after, searchFrom le deps settled fuel roots [] = .cycle (first :: after ++ [first]) ∧
        IsCycle deps settled first after ∧ ∀ y ∈ first :: after, y ∈ nodes from
    hroots nodes (fun _ hy => hy) hx
  intro roots hroots hmem
  induction roots with
  | nil => cases hmem
  | cons root roots ih =>
    rw [searchFrom]
    by_cases hskip : root ∈ settled ∨ root ∈ []
    · rw [if_pos hskip]
      refine ih (fun y hy => hroots y (List.mem_cons_of_mem _ hy)) ?_
      rcases List.mem_cons.mp hmem with rfl | hmem
      · exact absurd hskip (not_or.mpr ⟨hunsettled, List.not_mem_nil⟩)
      · exact hmem
    · rw [if_neg hskip]
      have hstart := descends_start le deps (hroots root List.mem_cons_self) (not_or.mp hskip).1
      obtain ⟨first, after, hrun, hcycle⟩ := hstart.run le hsub hleft fuel (by omega)
      rw [hrun]
      exact ⟨first, after, rfl, hcycle⟩

/-! ### Enough fuel -/

/-- A loop that has ended ends the same way with more fuel. -/
theorem run_mono {fuel fuel' : ℕ} (hle : fuel ≤ fuel') {r : List α ⊕ List α}
    (h : s.run le deps settled fuel = some r) : s.run le deps settled fuel' = some r := by
  induction fuel generalizing s fuel' with
  | zero => cases h
  | succ fuel ih =>
    obtain ⟨fuel', rfl⟩ : ∃ n, fuel' = n + 1 := ⟨fuel' - 1, by omega⟩
    rw [Search.run] at h ⊢
    cases hframes : s.frames with
    | nil => rwa [hframes] at h
    | cons frame below =>
      rw [hframes] at h
      dsimp only at h ⊢
      cases hstep : s.step le deps settled frame.1 frame.2 below with
      | inl s' =>
        rw [hstep] at h
        exact ih (by omega) h
      | inr cycle => rwa [hstep] at h

/-- So does a search that has not run out of fuel. -/
theorem searchFrom_mono {fuel fuel' : ℕ} (hle : fuel ≤ fuel') {roots black : List α}
    (h : searchFrom le deps settled fuel roots black ≠ .outOfFuel) :
    searchFrom le deps settled fuel' roots black = searchFrom le deps settled fuel roots black := by
  induction roots generalizing black with
  | nil => rfl
  | cons root roots ih =>
    rw [searchFrom] at h ⊢
    rw [searchFrom]
    split_ifs at h ⊢ with hskip
    · exact ih h
    · cases hrun : (Search.start le deps root black).run le deps settled fuel with
      | none =>
        rw [hrun] at h
        exact absurd rfl h
      | some r =>
        rw [hrun] at h
        rw [run_mono le hle hrun]
        cases r with
        | inl black' => exact ih h
        | inr cycle => rfl

end Correctness

end CycleSearch
