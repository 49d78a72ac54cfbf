/-
A main thread that maps list after list of a schedule on a pool.

Each list gates the next one: it is entered only when everything before it has returned,
and a list that raised is the last one.

* `Schedule.Place`, `Schedule.Progress` — how far the main thread is, and what that says
  of the items;
* `Schedule.Progress.fork`, `Schedule.Progress.update`, `Schedule.Progress.join` — how it
  moves;
* `Schedule.Progress.idle_of_later` — what is scheduled later has not started.
-/
import Mathlib.Data.List.Nodup
import TestRange.Lib.Pool

namespace Schedule

variable {ι L ε : Type}

/-- How far the main thread is: past some lists, or past one that raised. -/
inductive Place (ι : Type)
  | reached (past : List (List ι))
  | stopped

/-- What the place of the main thread says about the items. -/
def Progress (sched : List (List ι)) (ts : ι → Ghost L ε) : Place ι → Option (List ι) → Prop
  | .reached past, none => (∃ rest, sched = past ++ rest) ∧
      (∀ i ∈ past.flatten, ts i = .done (.ok ())) ∧ ∀ i ∉ past.flatten, ts i = .idle
  | .reached past, some items => (∃ rest, sched = past ++ items :: rest) ∧
      (∀ i ∈ past.flatten, ts i = .done (.ok ())) ∧
      ∀ i ∉ past.flatten, i ∉ items → ts i = .idle
  | .stopped, cur => cur = none

/-- `j` is scheduled in a later list than `i`. -/
def Later (sched : List (List ι)) (i j : ι) : Prop :=
  ∃ before list after, sched = before ++ list :: after ∧ i ∈ before.flatten ∧ j ∈ list

/-- The lists before the one of an item are told by the item. -/
theorem past_eq_of_mem {sched past before rest after : List (List ι)} {list list' : List ι} {i : ι}
    (hnd : sched.flatten.Nodup) (h : sched = past ++ list :: rest)
    (h' : sched = before ++ list' :: after) (hi : i ∈ list) (hi' : i ∈ list') :
    before = past := by
  subst h
  rw [List.flatten_append, List.flatten_cons] at hnd
  obtain ⟨-, htail, hdisj⟩ := List.nodup_append'.mp hnd
  have hdisj' := (List.nodup_append'.mp htail).2.2
  rcases List.append_eq_append_iff.mp h' with ⟨mid, rfl, hmid⟩ | ⟨mid, rfl, hmid⟩
  · rcases mid with _ | ⟨v, mid⟩
    · simp
    · -- `list` would be before `list'`, so `i` would be in two lists.
      have hrest : rest = mid ++ list' :: after := by simpa using (List.cons.inj hmid).2
      have : i ∈ rest.flatten := List.mem_flatten.mpr ⟨list', by simp [hrest], hi'⟩
      exact absurd this (hdisj' hi)
  · rcases mid with _ | ⟨v, mid⟩
    · simp
    · have hv : list' = v := (List.cons.inj hmid).1
      have hmem : i ∈ (before ++ v :: mid).flatten :=
        List.mem_flatten.mpr ⟨v, by simp, hv ▸ hi'⟩
      exact absurd (List.mem_append_left _ hi) (hdisj hmem)

theorem not_mem_past {sched past rest : List (List ι)} {list : List ι} {i : ι}
    (hnd : sched.flatten.Nodup) (h : sched = past ++ list :: rest) (hi : i ∈ list) :
    i ∉ past.flatten := by
  subst h
  rw [List.flatten_append] at hnd
  intro hp
  exact (List.nodup_append'.mp hnd).2.2 hp (by simp [hi])

namespace Progress

variable {sched : List (List ι)} {ts : ι → Ghost L ε} {past rest : List (List ι)}
  {place : Place ι} {items : List ι} {i j : ι}

/-- The next list is entered: nothing of it has started. -/
theorem fork (hnd : sched.flatten.Nodup) (h : Progress sched ts (.reached past) none)
    (hs : sched = past ++ items :: rest) :
    (∀ i ∈ items, ts i = .idle) ∧ Progress sched ts (.reached past) (some items) := by
  obtain ⟨-, hpast, hrest⟩ := h
  refine ⟨fun i hi => ?_, ⟨rest, hs⟩, hpast, fun i hi _ => hrest i hi⟩
  exact hrest i (not_mem_past hnd hs hi)

/-- An item of the list moves. -/
theorem update [DecidableEq ι] (hnd : sched.flatten.Nodup)
    (h : Progress sched ts place (some items)) (hi : i ∈ items) (g : Ghost L ε) :
    Progress sched (Function.update ts i g) place (some items) := by
  cases place with
  | stopped => exact nomatch h
  | reached past =>
    obtain ⟨⟨rest, hs⟩, hpast, hrest⟩ := h
    have hnew := not_mem_past hnd hs hi
    refine ⟨⟨rest, hs⟩, fun j hj => ?_, fun j hj hji => ?_⟩
    · have hne : j ≠ i := fun heq => hnew (heq ▸ hj)
      rw [Function.update_of_ne hne]
      exact hpast j hj
    · have hne : j ≠ i := fun heq => hji (heq ▸ hi)
      rw [Function.update_of_ne hne]
      exact hrest j hj hji

/-- The list is left. -/
theorem join (h : Progress sched ts (.reached past) (some items))
    (hall : ∀ i ∈ items, ts i = .done (.ok ())) :
    Progress sched ts (.reached (past ++ [items])) none := by
  obtain ⟨⟨rest, hs⟩, hpast, hrest⟩ := h
  refine ⟨⟨rest, by simp [hs]⟩, fun i hi => ?_, fun i hi => ?_⟩
  · rw [List.flatten_concat, List.mem_append] at hi
    rcases hi with hi | hi
    · exact hpast i hi
    · exact hall i hi
  · rw [List.flatten_concat, List.mem_append, not_or] at hi
    exact hrest i hi.1 hi.2

theorem mem_sched (h : Progress sched ts place (some items)) (hi : i ∈ items) :
    i ∈ sched.flatten := by
  cases place with
  | stopped => exact nomatch h
  | reached past =>
    obtain ⟨⟨rest, hs⟩, -⟩ := h
    rw [hs]
    exact List.mem_flatten.mpr ⟨items, by simp, hi⟩

/-- What is scheduled later than an item of the current list has not started. -/
theorem idle_of_later (hnd : sched.flatten.Nodup) (h : Progress sched ts place (some items))
    (hi : i ∈ items) (hij : Later sched i j) : ts j = .idle := by
  cases place with
  | stopped => exact nomatch h
  | reached past =>
    obtain ⟨⟨rest, hs⟩, -, hrest⟩ := h
    obtain ⟨before, list, after, hs', hib, hj⟩ := hij
    have hlist := not_mem_past hnd hs' hj
    -- `j` is in no list up to the current one, for then `i` would be in a later one.
    have hpast : j ∉ past.flatten ∧ j ∉ items := by
      obtain ⟨list', hlist', hi'⟩ := List.mem_flatten.mp hib
      obtain ⟨pre, mid, hbefore⟩ := List.append_of_mem hlist'
      have hsplit : sched = pre ++ list' :: (mid ++ list :: after) := by
        rw [hs', hbefore]
        simp
      have hpre := past_eq_of_mem hnd hs hsplit hi hi'
      subst hpre
      have hitems : items = list' := by
        have heq := hs.symm.trans hsplit
        exact (List.cons.inj (List.append_cancel_left heq)).1
      subst hitems
      rw [hbefore] at hlist
      simp only [List.flatten_append, List.flatten_cons, List.mem_append, not_or] at hlist
      exact ⟨hlist.1, hlist.2.1⟩
    exact hrest j hpast.1 hpast.2

end Progress

end Schedule
