/-
The complete lines of a text that is still being written.

A line is complete when the separator that ends it is there.

* `Lines.complete`, `Lines.pending` — the complete lines, and what stands behind the last of them;
* `Lines.induct` — a text has no separator, or a line in front of another text;
* `Lines.complete_append` — when more arrives, the lines that were complete stay what they were.
-/
import Mathlib.Data.List.TakeWhile
import Mathlib.Tactic.Common

namespace Lines

variable {α : Type} [DecidableEq α] (sep : α)

/-- The lines whose end is there. -/
def complete (x : List α) : List (List α) := (x.splitOn sep).dropLast

/-- What stands behind the last separator. -/
def pending (x : List α) : List α := (x.splitOn sep).getLastD []

variable {sep} {x line : List α}

theorem complete_of_notMem (h : sep ∉ x) : complete sep x = [] := by
  rw [complete, List.splitOn_eq_singleton h]
  rfl

theorem pending_of_notMem (h : sep ∉ x) : pending sep x = x := by
  rw [pending, List.splitOn_eq_singleton h]
  rfl

theorem complete_line (h : sep ∉ line) (x : List α) :
    complete sep (line ++ sep :: x) = line :: complete sep x := by
  rw [complete, List.splitOn_append_cons_self_of_not_mem h,
    List.dropLast_cons_of_ne_nil (List.splitOn_ne_nil sep x)]
  rfl

theorem pending_line (h : sep ∉ line) (x : List α) :
    pending sep (line ++ sep :: x) = pending sep x := by
  obtain ⟨l, ls, hls⟩ := List.exists_cons_of_ne_nil (List.splitOn_ne_nil sep x)
  rw [pending, List.splitOn_append_cons_self_of_not_mem h, pending, hls]
  rfl

/-- The line a separator ends. -/
theorem exists_line (h : sep ∈ x) : ∃ line rest, sep ∉ line ∧ x = line ++ sep :: rest ∧
    line = x.takeWhile (· ≠ sep) := by
  obtain ⟨line, rest, rfl, hline⟩ := List.eq_append_cons_of_mem h
  refine ⟨line, rest, hline, rfl, ?_⟩
  have hne : ∀ c ∈ line, (decide (c ≠ sep)) = true := by
    intro c hc
    exact decide_eq_true fun heq => hline (heq ▸ hc)
  rw [List.takeWhile_append_of_pos hne, List.takeWhile_cons_of_neg (by simp), List.append_nil]

variable (sep) in
/-- A text has no line, or a line and then a text. -/
theorem induct {P : List α → Prop} (last : ∀ x, sep ∉ x → P x)
    (line : ∀ l x, sep ∉ l → P x → P (l ++ sep :: x)) (x : List α) : P x := by
  induction hn : x.length using Nat.strong_induction_on generalizing x with
  | h n ih =>
    by_cases h : sep ∈ x
    · obtain ⟨l, rest, hl, rfl, -⟩ := exists_line h
      have hlt : rest.length < n := by
        rw [← hn, List.length_append, List.length_cons]
        omega
      exact line l rest hl (ih rest.length hlt rest rfl)
    · exact last x h

/-- No line has a separator in it. -/
theorem notMem_of_mem_complete : ∀ l ∈ complete sep x, sep ∉ l := by
  induction x using induct sep with
  | last x h =>
    rw [complete_of_notMem h]
    simp
  | line l x hl ih =>
    rw [complete_line hl]
    intro l' hl'
    rcases List.mem_cons.mp hl' with rfl | hl'
    · exact hl
    · exact ih l' hl'

/-- What is pending ends the text. -/
theorem pending_suffix (x : List α) : pending sep x <:+ x := by
  induction x using induct sep with
  | last x h => exact ⟨[], by rw [pending_of_notMem h, List.nil_append]⟩
  | line l x hl ih =>
    rw [pending_line hl]
    exact ih.trans ((List.suffix_cons sep x).trans (List.suffix_append l (sep :: x)))

/-- **What arrives completes the pending line and adds lines behind it.** -/
theorem complete_append (x y : List α) :
    complete sep (x ++ y) = complete sep x ++ complete sep (pending sep x ++ y) := by
  induction x using induct sep with
  | last x h => rw [complete_of_notMem h, pending_of_notMem h, List.nil_append]
  | line l x hl ih =>
    rw [List.append_assoc, List.cons_append, complete_line hl, complete_line hl, pending_line hl, ih,
      List.cons_append]

theorem pending_append (x y : List α) :
    pending sep (x ++ y) = pending sep (pending sep x ++ y) := by
  induction x using induct sep with
  | last x h => rw [pending_of_notMem h]
  | line l x hl ih =>
    rw [List.append_assoc, List.cons_append, pending_line hl, pending_line hl, ih]

end Lines
