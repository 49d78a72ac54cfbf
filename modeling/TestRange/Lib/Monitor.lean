/-
Threads that share a state under one lock.

A thread is at a point of its code; a move takes it to the next point, may change the
shared state and may start another thread.  Some points are inside the lock: a thread
enters them only while no other one is inside.

* `Monitor`, `Monitor.Step` — such a program and its steps;
* `Monitor.exclusive` — two threads are never inside at the same time;
* `Monitor.outline` — facts about the point of every thread, each kept by the moves of the
  thread itself and by those of the others.
-/
import Mathlib.Logic.Function.Basic
import TestRange.Lib.Trace

/-- A program for threads: the points inside the lock, the point of a thread that does not
exist yet, and the moves.  The last argument of a move is where the thread it starts begins. -/
structure Monitor (σ π α : Type) where
  critical : π → Bool
  unborn : π
  move : σ → π → α → σ → π → Option π → Prop
  /-- A thread starts outside the lock. -/
  child_free : ∀ {sh p a sh' p' q}, move sh p a sh' p' (some q) → critical q = false

namespace Monitor

variable {σ π α ι : Type}

/-- The shared state, who is inside the lock, and where the threads are. -/
structure State (ι σ π : Type) where
  shared : σ
  lock : Option ι
  point : ι → π

/-- What a thread did, and the thread it started. -/
structure Event (ι α : Type) where
  thread : ι
  act : α
  child : Option ι

section Runs

variable (M : Monitor σ π α)

/-- What a move of `t` from `p` to `p'` does to the lock. -/
def Locks (t : ι) (p p' : π) (lock lock' : Option ι) : Prop :=
  match M.critical p, M.critical p' with
  | false, true => lock = none ∧ lock' = some t
  | true, false => lock' = none
  | _, _ => lock' = lock

variable [DecidableEq ι]

inductive Step : State ι σ π → Event ι α → State ι σ π → Prop
  | move {s : State ι σ π} {t : ι} {a : α} {sh : σ} {p : π} {lock : Option ι}
      (hmove : M.move s.shared (s.point t) a sh p none)
      (hlock : M.Locks t (s.point t) p s.lock lock) :
      Step s ⟨t, a, none⟩ ⟨sh, lock, Function.update s.point t p⟩
  | fork {s : State ι σ π} {t u : ι} {a : α} {sh : σ} {p q : π} {lock : Option ι}
      (hmove : M.move s.shared (s.point t) a sh p (some q))
      (hlock : M.Locks t (s.point t) p s.lock lock) (hu : s.point u = M.unborn) (hne : u ≠ t) :
      Step s ⟨t, a, some u⟩ ⟨sh, lock, Function.update (Function.update s.point t p) u q⟩

/-- Nobody is inside the lock. -/
def Free (s : State ι σ π) : Prop := ∀ t, M.critical (s.point t) = false

end Runs

variable {M : Monitor σ π α} [DecidableEq ι] {s₀ s : State ι σ π} {tr : List (Event ι α)}

/-- A step, without the difference between one that starts a thread and one that does not. -/
structure Moved (M : Monitor σ π α) (s : State ι σ π) (e : Event ι α) (s' : State ι σ π) : Prop where
  move : ∃ q, M.move s.shared (s.point e.thread) e.act s'.shared (s'.point e.thread) q ∧
    ∀ u, e.child = some u → q = some (s'.point u) ∧ s.point u = M.unborn ∧ u ≠ e.thread
  others : ∀ u, u ≠ e.thread → e.child ≠ some u → s'.point u = s.point u
  lock : M.Locks e.thread (s.point e.thread) (s'.point e.thread) s.lock s'.lock

theorem Step.moved {s' : State ι σ π} {e : Event ι α} (h : M.Step s e s') : Moved M s e s' := by
  cases h with
  | @move t a sh p lock hmove hlock =>
    refine ⟨⟨none, by simpa using hmove, by simp⟩, ?_, by simpa using hlock⟩
    intro u hu _
    exact Function.update_of_ne hu _ _
  | @fork t u a sh p q lock hmove hlock hborn hne =>
    have ht : Function.update (Function.update s.point t p) u q t = p := by
      rw [Function.update_of_ne hne.symm, Function.update_self]
    refine ⟨⟨some q, by simpa [ht] using hmove, ?_⟩, ?_, by simpa [ht] using hlock⟩
    · intro v hv
      obtain rfl : u = v := Option.some.inj hv
      exact ⟨by simp, hborn, hne⟩
    · intro v hv hchild
      have hvu : v ≠ u := fun heq => hchild (by rw [heq])
      show Function.update (Function.update s.point t p) u q v = s.point v
      rw [Function.update_of_ne hvu, Function.update_of_ne hv]

/-- Who is inside has the lock. -/
theorem lock_of_critical (h₀ : M.Free s₀) (h : Trace.Run M.Step s₀ tr s) :
    ∀ t, M.critical (s.point t) = true → s.lock = some t := by
  refine h.invariant (P := fun s => ∀ t, M.critical (s.point t) = true → s.lock = some t) ?_ ?_
  · intro t ht
    rw [h₀ t] at ht
    cases ht
  · intro s e s' ih hstep u hu
    obtain ⟨⟨q, hmove, hchild⟩, hothers, hlock⟩ := hstep.moved
    have hcase : u = e.thread ∨ e.child = some u ∨ u ≠ e.thread ∧ e.child ≠ some u := by
      by_cases ht : u = e.thread
      · exact .inl ht
      · by_cases hc : e.child = some u
        · exact .inr (.inl hc)
        · exact .inr (.inr ⟨ht, hc⟩)
    rcases hcase with rfl | hc | ⟨ht, hc⟩
    · rw [Locks] at hlock
      cases hp : M.critical (s.point e.thread) with
      | false => simp only [hp, hu] at hlock; exact hlock.2
      | true => simp only [hp, hu] at hlock; rw [hlock]; exact ih _ hp
    · obtain ⟨rfl, -, -⟩ := hchild u hc
      rw [M.child_free hmove] at hu
      cases hu
    · rw [hothers u ht hc] at hu
      have hown := ih u hu
      -- The lock is `u`'s, so the moving thread is outside and stays there.
      rw [Locks] at hlock
      cases hp : M.critical (s.point e.thread) with
      | true => exact absurd (Option.some.inj (hown.symm.trans (ih _ hp))) ht
      | false =>
        cases hp' : M.critical (s'.point e.thread) with
        | true =>
          simp only [hp, hp', hown] at hlock
          cases hlock.1
        | false =>
          simp only [hp, hp'] at hlock
          rw [hlock, hown]

/-- **Two threads are never inside the lock at the same time.** -/
theorem exclusive (h₀ : M.Free s₀) (h : Trace.Run M.Step s₀ tr s) {t u : ι}
    (ht : M.critical (s.point t) = true) (hu : M.critical (s.point u) = true) : t = u :=
  Option.some.inj ((lock_of_critical h₀ h t ht).symm.trans (lock_of_critical h₀ h u hu))

/-- While a thread is inside, the others are outside. -/
theorem outside_of_critical (h₀ : M.Free s₀) (h : Trace.Run M.Step s₀ tr s) {t u : ι}
    (hne : u ≠ t) (hu : M.critical (s.point u) = true) : M.critical (s.point t) = false := by
  cases ht : M.critical (s.point t) with
  | false => rfl
  | true => exact absurd (exclusive h₀ h hu ht) hne

/-- **The rule of proof outlines**: facts about the point of every thread.  The moves of the
thread itself keep them, a thread that is started begins with them, and the moves of the
others keep them; while a thread is inside the lock, only moves from outside it count. -/
theorem outline {A : List (Event ι α) → σ → ι → π → Prop} (h₀ : M.Free s₀)
    (start : ∀ t, A [] s₀.shared t (s₀.point t))
    (own : ∀ {tr sh p sh' p' q} {e : Event ι α}, A tr sh e.thread p → M.move sh p e.act sh' p' q →
      A (tr ++ [e]) sh' e.thread p')
    (child : ∀ {tr sh p sh' p' q u} {e : Event ι α}, A tr sh e.thread p →
      M.move sh p e.act sh' p' (some q) → A tr sh u M.unborn → A (tr ++ [e]) sh' u q)
    (other : ∀ {tr sh p sh' p' q u r} {e : Event ι α}, A tr sh u r → A tr sh e.thread p →
      M.move sh p e.act sh' p' q → u ≠ e.thread →
      (M.critical r = true → M.critical p = false) → A (tr ++ [e]) sh' u r)
    (h : Trace.Run M.Step s₀ tr s) : ∀ t, A tr s.shared t (s.point t) := by
  refine h.keeps_reached (P := fun tr s => ∀ t, A tr s.shared t (s.point t)) start ?_
  intro tr s e s' hrun ih hstep u
  obtain ⟨⟨q, hmove, hchild⟩, hothers, -⟩ := hstep.moved
  by_cases ht : u = e.thread
  · rw [ht]
    exact own (ih _) hmove
  · by_cases hc : e.child = some u
    · obtain ⟨rfl, hborn, -⟩ := hchild u hc
      exact child (ih _) hmove (hborn ▸ ih u)
    · rw [hothers u ht hc]
      exact other (ih u) (ih _) hmove ht (outside_of_critical h₀ hrun ht)

end Monitor
