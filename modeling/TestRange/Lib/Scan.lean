/-
Scans that remember whether they have met a marked element, and fail as a whole.

* `Scan.scan` — such a scan, with the place of each element;
* `Scan.scan_spec` — every result, with the flag that its element has met;
* `Scan.First` — the first marked element of a list, of which there is one at most.
-/
import Mathlib.Data.List.TakeDrop
import TestRange.Lib.Untyped

namespace Scan

variable {α β ε : Type} (p : α → Bool)

/-- Run `f` on every element, with its place and whether a marked one came before. -/
def scan (f : ℕ → Bool → α → Except ε β) : ℕ → Bool → List α → Except ε (List β)
  | _, _, [] => .ok []
  | n, seen, x :: xs => do
    let y ← f n seen x
    let ys ← scan f (n + 1) (seen || p x) xs
    pure (y :: ys)

variable {p}

/-- **The result at every place is that of the element there**, where the flag says whether
a marked element stands before it. -/
theorem scan_spec {f : ℕ → Bool → α → Except ε β} {xs : List α} :
    ∀ {n : ℕ} {seen : Bool} {ys : List β}, scan p f n seen xs = .ok ys →
      ys.length = xs.length ∧ ∀ i x, xs[i]? = some x →
        ∃ y, ys[i]? = some y ∧ f (n + i) (seen || (xs.take i).any p) x = .ok y := by
  induction xs with
  | nil =>
    intro n seen ys h
    cases h
    exact ⟨rfl, by simp⟩
  | cons x xs ih =>
    intro n seen ys h
    obtain ⟨y, hy, h⟩ := Untyped.bind_eq_ok.mp h
    obtain ⟨ys', hys, h⟩ := Untyped.bind_eq_ok.mp h
    cases h
    obtain ⟨hlen, hall⟩ := ih hys
    refine ⟨by simp [hlen], ?_⟩
    intro i z hz
    cases i with
    | zero =>
      obtain rfl : x = z := by simpa using hz
      exact ⟨y, rfl, by simpa using hy⟩
    | succ i =>
      obtain ⟨w, hw, hf⟩ := hall i z (by simpa using hz)
      refine ⟨w, by simpa using hw, ?_⟩
      rw [List.take_succ_cons, List.any_cons, ← Bool.or_assoc]
      rwa [show n + (i + 1) = n + 1 + i by omega]

/-- `x` stands at the place `i`, is marked, and no marked element stands before it. -/
structure First (p : α → Bool) (xs : List α) (i : ℕ) (x : α) : Prop where
  at_place : xs[i]? = some x
  marked : p x = true
  before : (xs.take i).any p = false

theorem First.le_of_marked {xs : List α} {i j : ℕ} {x y : α} (h : First p xs i x)
    (hy : xs[j]? = some y) (hp : p y = true) : i ≤ j := by
  by_contra hlt
  have hmem : y ∈ xs.take i := by
    refine List.mem_of_getElem? (i := j) ?_
    rw [List.getElem?_take_of_lt (by omega), hy]
  have hnot := List.any_eq_false.mp h.before y hmem
  exact hnot hp

theorem First.unique {xs : List α} {i j : ℕ} {x y : α} (h : First p xs i x) (h' : First p xs j y) :
    i = j := by
  have hij := h.le_of_marked h'.at_place h'.marked
  have hji := h'.le_of_marked h.at_place h.marked
  omega

end Scan
