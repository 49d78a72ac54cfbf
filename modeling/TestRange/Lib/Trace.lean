/-
Labelled transition systems: runs with the list of what happened.

A system is its step relation; a run carries the labels of its steps in order, so that
what is said of a run may speak of everything that happened in it.

* `Trace.Run` — the runs from a state;
* `Trace.Run.keeps` — what the start has and every step keeps holds of every run;
* `Trace.Run.last`, `Trace.Run.split` — runs are cut at any point;
* `Trace.Run.since` — what a step establishes and no later one undoes.
-/
import Mathlib.Data.List.Induction
import Mathlib.Tactic.Common

namespace Trace

variable {σ ε : Type*}

/-- The runs of a system from a state, with what happened. -/
inductive Run (step : σ → ε → σ → Prop) (s₀ : σ) : List ε → σ → Prop
  | start : Run step s₀ [] s₀
  | step {tr : List ε} {s s' : σ} {e : ε} (h : Run step s₀ tr s) (hstep : step s e s') :
      Run step s₀ (tr ++ [e]) s'

namespace Run

variable {step : σ → ε → σ → Prop} {s₀ s s' : σ} {tr tr' : List ε}

/-- **The rule of invariants**: what the start has and every step keeps. -/
theorem keeps {P : List ε → σ → Prop} (h₀ : P [] s₀)
    (hstep : ∀ tr s e s', P tr s → step s e s' → P (tr ++ [e]) s') (h : Run step s₀ tr s) :
    P tr s := by
  induction h with
  | start => exact h₀
  | step _ hs ih => exact hstep _ _ _ _ ih hs

/-- The same, where a step may use what else is known of the runs. -/
theorem keeps_reached {P : List ε → σ → Prop} (h₀ : P [] s₀)
    (hstep : ∀ tr s e s', Run step s₀ tr s → P tr s → step s e s' → P (tr ++ [e]) s')
    (h : Run step s₀ tr s) : P tr s := by
  induction h with
  | start => exact h₀
  | step hrun hs ih => exact hstep _ _ _ _ hrun ih hs

/-- An invariant that does not look at what happened. -/
theorem invariant {P : σ → Prop} (h₀ : P s₀) (hstep : ∀ s e s', P s → step s e s' → P s')
    (h : Run step s₀ tr s) : P s :=
  h.keeps (P := fun _ s => P s) h₀ fun _ s e s' => hstep s e s'

/-- The last step of a run. -/
theorem last {e : ε} (h : Run step s₀ (tr ++ [e]) s') : ∃ s, Run step s₀ tr s ∧ step s e s' := by
  generalize hall : tr ++ [e] = all at h
  cases h with
  | start => exact absurd hall (by simp)
  | step hrun hs =>
    obtain ⟨rfl, he⟩ := List.append_inj' hall rfl
    obtain rfl := List.singleton_inj.mp he
    exact ⟨_, hrun, hs⟩

theorem split (h : Run step s₀ (tr ++ tr') s') : ∃ s, Run step s₀ tr s ∧ Run step s tr' s' := by
  induction tr' using List.reverseRecOn generalizing s' with
  | nil =>
    rw [List.append_nil] at h
    exact ⟨s', h, .start⟩
  | append_singleton tr' e ih =>
    rw [← List.append_assoc] at h
    obtain ⟨s₁, hrun, hs⟩ := h.last
    obtain ⟨s, hrun₁, hrun₂⟩ := ih hrun
    exact ⟨s, hrun₁, hrun₂.step hs⟩

/-- **What a step establishes**: it holds from then on where no later step undoes it. -/
theorem since {P : σ → Prop} {e : ε} (h : Run step s₀ (tr ++ e :: tr') s')
    (hsets : ∀ a b, Run step s₀ tr a → step a e b → P b)
    (hkeeps : ∀ e' ∈ tr', ∀ a b, P a → step a e' b → P b) : P s' := by
  rw [List.append_cons] at h
  obtain ⟨b, hrun, hrest⟩ := h.split
  obtain ⟨a, hbefore, hstep⟩ := hrun.last
  have hstart : P b := hsets a b hbefore hstep
  clear hrun hstep hbefore h
  induction hrest with
  | start => exact hstart
  | step _ hs ih =>
    have hbefore := ih fun e' he' => hkeeps e' (List.mem_append_left _ he')
    exact hkeeps _ (List.mem_append_right _ (List.mem_singleton_self _)) _ _ hbefore hs

end Run

end Trace
