/-
Tables filled in dependency order.

Each name comes with a rule that computes its value from those of its dependencies.  The
names are taken in an order in which dependencies come first.

* `Derive.run` — fill a table; a value that is missing when it is needed is an error;
* `Derive.run_spec` — in such an order nothing is missing, and every entry is the value of
  its rule at the entries of its dependencies;
* `Derive.Ready.induct` — induction along such an order.
-/
import Mathlib.Data.List.Nodup
import Mathlib.Tactic.Common

namespace Derive

variable {α κ : Type} [DecidableEq α] (deps : α → List α)

/-- A name with its rule. -/
abbrev Item (α κ : Type) := α × (List (α × κ) → κ)

/-- The values of the dependencies of `x`, if the table has them all. -/
def fetch (table : List (α × κ)) (x : α) : Option (List (α × κ)) :=
  (deps x).mapM fun d => (table.lookup d).map fun k => (d, k)

/-- Add the value of one name. -/
def entry (table : List (α × κ)) (item : Item α κ) : Option (List (α × κ)) :=
  (fetch deps table item.1).map fun values => (item.1, item.2 values) :: table

def run (items : List (Item α κ)) : Option (List (α × κ)) := items.foldlM (entry deps) []

/-- The names are new, and their dependencies come first. -/
inductive Ready : List α → List α → Prop
  | nil {done : List α} : Ready done []
  | cons {done : List α} {x : α} {rest : List α} (hdeps : ∀ d ∈ deps x, d ∈ done)
      (hnew : x ∉ done) (hrest : Ready (x :: done) rest) : Ready done (x :: rest)

variable {deps}

omit [DecidableEq α] in
/-- What holds of a name if it holds of its dependencies, holds of all. -/
theorem Ready.induct {P : α → Prop} {done names : List α} (h : Ready deps done names)
    (hdone : ∀ x ∈ done, P x) (hstep : ∀ x ∈ names, (∀ d ∈ deps x, P d) → P x) :
    ∀ x ∈ names, P x := by
  induction h with
  | nil => simp
  | @cons done x rest hdeps hnew hrest ih =>
    have hx : P x := hstep x List.mem_cons_self fun d hd => hdone d (hdeps d hd)
    have hdone' : ∀ y ∈ x :: done, P y := by
      intro y hy
      rcases List.mem_cons.mp hy with rfl | hy
      · exact hx
      · exact hdone y hy
    intro y hy
    rcases List.mem_cons.mp hy with rfl | hy
    · exact hx
    · exact ih hdone' (fun z hz => hstep z (List.mem_cons_of_mem _ hz)) y hy

omit [DecidableEq α] in
/-- A level of names that need only what is done, in any order, with the rest after it. -/
theorem Ready.level {done xs rest : List α} (hdeps : ∀ x ∈ xs, ∀ d ∈ deps x, d ∈ done)
    (hnodup : xs.Nodup) (hnew : ∀ x ∈ xs, x ∉ done)
    (hrest : ∀ done', (∀ a, a ∈ done' ↔ a ∈ xs ∨ a ∈ done) → Ready deps done' rest) :
    Ready deps done (xs ++ rest) := by
  induction xs generalizing done with
  | nil => exact hrest done (by simp)
  | cons x xs ih =>
    rw [List.nodup_cons] at hnodup
    refine .cons (hdeps x List.mem_cons_self) (hnew x List.mem_cons_self) (ih ?_ hnodup.2 ?_ ?_)
    · intro y hy d hd
      exact List.mem_cons_of_mem _ (hdeps y (List.mem_cons_of_mem _ hy) d hd)
    · intro y hy hmem
      rcases List.mem_cons.mp hmem with rfl | hmem
      · exact hnodup.1 hy
      · exact hnew y (List.mem_cons_of_mem _ hy) hmem
    · intro done' hdone'
      refine hrest done' fun a => ?_
      rw [hdone', List.mem_cons, List.mem_cons]
      tauto

/-! ### Fetching -/

theorem mapM_congr {β γ : Type} {f g : β → Option γ} {l : List β} (h : ∀ x ∈ l, f x = g x) :
    l.mapM f = l.mapM g := by
  induction l with
  | nil => rfl
  | cons x l ih =>
    rw [List.mapM_cons, List.mapM_cons, h x List.mem_cons_self,
      ih fun y hy => h y (List.mem_cons_of_mem _ hy)]

/-- What is fetched depends on the entries of the dependencies alone. -/
theorem fetch_congr {deps' : α → List α} {table table' : List (α × κ)} {x : α}
    (hdeps : deps x = deps' x) (h : ∀ d ∈ deps x, table.lookup d = table'.lookup d) :
    fetch deps table x = fetch deps' table' x := by
  unfold fetch
  rw [← hdeps]
  exact mapM_congr fun d hd => by rw [h d hd]

theorem fetch_isSome {table : List (α × κ)} {x : α}
    (h : ∀ d ∈ deps x, table.lookup d ≠ none) : ∃ values, fetch deps table x = some values := by
  unfold fetch
  revert h
  induction deps x with
  | nil => exact fun _ => ⟨[], rfl⟩
  | cons d ds ih =>
    intro h
    obtain ⟨k, hk⟩ := Option.ne_none_iff_exists'.mp (h d List.mem_cons_self)
    obtain ⟨values, hvalues⟩ := ih fun e he => h e (List.mem_cons_of_mem _ he)
    exact ⟨(d, k) :: values, by rw [List.mapM_cons, hk, hvalues]; rfl⟩

/-- What was fetched: the dependencies in order, each with its entry. -/
theorem of_fetch {table : List (α × κ)} {x : α} {values : List (α × κ)}
    (h : fetch deps table x = some values) :
    values.map Prod.fst = deps x ∧ ∀ p ∈ values, table.lookup p.1 = some p.2 := by
  unfold fetch at h
  revert h
  induction deps x generalizing values with
  | nil =>
    rintro ⟨⟩
    simp
  | cons d ds ih =>
    intro h
    rw [List.mapM_cons] at h
    obtain ⟨p, hp, h⟩ := Option.bind_eq_some_iff.mp h
    obtain ⟨rest, hrest, h⟩ := Option.bind_eq_some_iff.mp h
    obtain ⟨k, hk, rfl⟩ := Option.map_eq_some_iff.mp hp
    cases h
    obtain ⟨hnames, hvalues⟩ := ih hrest
    refine ⟨by rw [List.map_cons, hnames], ?_⟩
    intro q hq
    rcases List.mem_cons.mp hq with rfl | hq
    · exact hk
    · exact hvalues q hq

/-! ### The table -/

/-- A table of some of the items: it has the names that are done, and each item that is
has the value of its rule. -/
structure Derived (deps : α → List α) (table : List (α × κ)) (done : List α)
    (items : List (Item α κ)) : Prop where
  lookup_ne_none : ∀ x, table.lookup x ≠ none ↔ x ∈ done
  lookup_eq : ∀ item ∈ items, item.1 ∈ done → ∃ values, fetch deps table item.1 = some values ∧
    table.lookup item.1 = some (item.2 values)

/-- One entry: the names done before keep their entries. -/
theorem entry_spec {items : List (Item α κ)} {table : List (α × κ)} {done : List α}
    {item : Item α κ} (hnodup : (items.map Prod.fst).Nodup) (hitem : item ∈ items)
    (hclosed : ∀ x ∈ done, ∀ d ∈ deps x, d ∈ done) (hdeps : ∀ d ∈ deps item.1, d ∈ done)
    (hnew : item.1 ∉ done) (h : Derived deps table done items) :
    ∃ table', entry deps table item = some table' ∧ Derived deps table' (item.1 :: done) items := by
  obtain ⟨values, hvalues⟩ := fetch_isSome (fun d hd => (h.lookup_ne_none d).mpr (hdeps d hd))
  have hold : ∀ d ∈ done, ((item.1, item.2 values) :: table).lookup d = table.lookup d := by
    intro d hd
    have hne : d ≠ item.1 := by
      rintro rfl
      exact hnew hd
    rw [List.lookup_cons, beq_false_of_ne hne]
  have hkeep : ∀ x, (∀ d ∈ deps x, d ∈ done) →
      fetch deps ((item.1, item.2 values) :: table) x = fetch deps table x :=
    fun x hx => fetch_congr rfl fun d hd => hold d (hx d hd)
  refine ⟨(item.1, item.2 values) :: table, by rw [entry, hvalues]; rfl, ?_, ?_⟩
  · intro x
    rw [List.lookup_cons, List.mem_cons]
    by_cases hx : x = item.1
    · simp [hx]
    · rw [beq_false_of_ne hx]
      simp [hx, h.lookup_ne_none]
  · intro other hother hdone
    rcases List.mem_cons.mp hdone with heq | hdone
    · have hsame : other = item := List.inj_on_of_nodup_map hnodup hother hitem heq
      subst hsame
      refine ⟨values, by rw [hkeep _ hdeps, hvalues], ?_⟩
      rw [List.lookup_cons_self]
    · obtain ⟨vals, hfetch, hlookup⟩ := h.lookup_eq other hother hdone
      exact ⟨vals, by rw [hkeep _ (hclosed _ hdone), hfetch], by rw [hold _ hdone, hlookup]⟩

theorem foldlM_spec {items rest : List (Item α κ)} {table : List (α × κ)} {done : List α}
    (hnodup : (items.map Prod.fst).Nodup) (hsub : ∀ item ∈ rest, item ∈ items)
    (hclosed : ∀ x ∈ done, ∀ d ∈ deps x, d ∈ done)
    (hready : Ready deps done (rest.map Prod.fst)) (h : Derived deps table done items) :
    ∃ table' done', rest.foldlM (entry deps) table = some table' ∧
      Derived deps table' done' items ∧ ∀ x, x ∈ done' ↔ x ∈ done ∨ x ∈ rest.map Prod.fst := by
  induction rest generalizing table done with
  | nil => exact ⟨table, done, rfl, h, by simp⟩
  | cons item rest ih =>
    rw [List.map_cons] at hready
    cases hready with
    | cons hdeps hnew hrest =>
      obtain ⟨table₁, hentry, h₁⟩ := entry_spec hnodup (hsub item List.mem_cons_self) hclosed hdeps
        hnew h
      have hclosed₁ : ∀ x ∈ item.1 :: done, ∀ d ∈ deps x, d ∈ item.1 :: done := by
        intro x hx d hd
        rcases List.mem_cons.mp hx with rfl | hx
        · exact List.mem_cons_of_mem _ (hdeps d hd)
        · exact List.mem_cons_of_mem _ (hclosed x hx d hd)
      obtain ⟨table', done', hfold, hderived, hdone⟩ :=
        ih (fun i hi => hsub i (List.mem_cons_of_mem _ hi)) hclosed₁ hrest h₁
      refine ⟨table', done', by rw [List.foldlM_cons, hentry]; exact hfold, hderived, ?_⟩
      intro x
      rw [hdone, List.mem_cons, List.map_cons, List.mem_cons]
      tauto

/-- **In an order of dependencies nothing is missing**, and each entry is the value of its
rule at the entries of its dependencies. -/
theorem run_spec {items : List (Item α κ)} (hnodup : (items.map Prod.fst).Nodup)
    (hready : Ready deps [] (items.map Prod.fst)) :
    ∃ table, run deps items = some table ∧
      (∀ x, table.lookup x ≠ none ↔ x ∈ items.map Prod.fst) ∧
      ∀ item ∈ items, ∃ values, fetch deps table item.1 = some values ∧
        table.lookup item.1 = some (item.2 values) := by
  have hempty : Derived deps ([] : List (α × κ)) [] items := ⟨by simp, by simp⟩
  obtain ⟨table, done, hrun, hderived, hdone⟩ :=
    foldlM_spec hnodup (fun i hi => hi) (by simp) hready hempty
  have hmem : ∀ x, x ∈ done ↔ x ∈ items.map Prod.fst := fun x => by simp [hdone]
  refine ⟨table, hrun, fun x => by rw [hderived.lookup_ne_none, hmem], ?_⟩
  intro item hitem
  exact hderived.lookup_eq item hitem ((hmem _).mpr (List.mem_map_of_mem hitem))

end Derive
