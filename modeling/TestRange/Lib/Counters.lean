/-
Positions handed out by counters, one counter for each family.

Whoever asks for a position of a family gets the number its counter shows, or a later one;
the counter then moves past it.  No position is handed out twice.

* `Handed` — the positions handed out so far are distinct, and below their counters;
* `Handed.move` — one more position;
* `loop_invariant` — a loop that can fail, and a fact about the items it has read.
-/
import Mathlib.Logic.Function.Basic
import Mathlib.Data.List.Nodup

namespace Counters

variable {κ α σ ε : Type} [DecidableEq κ]

/-- The counter of `k` moves past `n`. -/
def move (next : κ → ℕ) (k : κ) (n : ℕ) : κ → ℕ := Function.update next k (n + 1)

@[simp] theorem move_self (next : κ → ℕ) (k : κ) (n : ℕ) : move next k n k = n + 1 := by
  rw [move, Function.update_self]

theorem le_move {next : κ → ℕ} {k : κ} {n : ℕ} (hn : next k ≤ n) (k' : κ) :
    next k' ≤ move next k n k' := by
  by_cases hk : k' = k
  · rw [hk, move_self]
    exact Nat.le_succ_of_le hn
  · have hkept : move next k n k' = next k' := Function.update_of_ne hk _ _
    omega

/-- **The positions handed out so far are distinct, and each lies below its counter.** -/
structure Handed (next : κ → ℕ) (used : List (κ × ℕ)) : Prop where
  nodup : used.Nodup
  below : ∀ p ∈ used, p.2 < next p.1

omit [DecidableEq κ] in
theorem Handed.nil (next : κ → ℕ) : Handed next [] := ⟨List.nodup_nil, by simp⟩

/-- A position from the counter on is a new one. -/
theorem Handed.move {next : κ → ℕ} {used : List (κ × ℕ)} {k : κ} {n : ℕ} (h : Handed next used)
    (hn : next k ≤ n) : Handed (Counters.move next k n) (used ++ [(k, n)]) := by
  have hnew : (k, n) ∉ used := by
    intro hmem
    have hlt : n < next k := h.below _ hmem
    omega
  refine ⟨?_, ?_⟩
  · rw [List.nodup_append']
    exact ⟨h.nodup, List.nodup_singleton _, by simpa using hnew⟩
  · intro p hp
    rcases List.mem_append.mp hp with hp | hp
    · exact Nat.lt_of_lt_of_le (h.below p hp) (le_move hn p.1)
    · obtain rfl : p = (k, n) := by simpa using hp
      simp

/-- What holds of the items read, and one step of a loop keeps, holds of all of them when
the loop ends without an error. -/
theorem loop_invariant {f : σ → α → Except ε σ} (P : List α → σ → Prop)
    (hstep : ∀ done x s s', P done s → f s x = .ok s' → P (done ++ [x]) s') :
    ∀ (xs done : List α) {s s' : σ}, P done s → xs.foldlM f s = .ok s' → P (done ++ xs) s' := by
  intro xs
  induction xs with
  | nil =>
    intro done s s' hs h
    obtain rfl : s = s' := by simpa [pure, Except.pure] using h
    simpa using hs
  | cons x xs ih =>
    intro done s s' hs h
    rw [List.foldlM_cons] at h
    cases hx : f s x with
    | error e => simp [hx, bind, Except.bind] at h
    | ok t =>
      have htail : xs.foldlM f t = .ok s' := by simpa [hx, bind, Except.bind] using h
      simpa using ih (done ++ [x]) (hstep done x s t hs hx) htail

end Counters
