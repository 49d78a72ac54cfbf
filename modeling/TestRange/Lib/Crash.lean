/-
Programs that are cut off.

The process that runs a program may die before any call, or in one: a call that answers by an
exception has done some of what it does, and so has one that is never answered.  What must hold
wherever the process dies is the crash condition; with it the preconditions of `Prog.wp` speak of
runs that are cut off as well.

* `Prog.Cut` — the worlds a program may leave behind, wherever it is cut off;
* `Prog.Logic.ofSem` — the logic of a semantics, with a crash condition;
* `Prog.runs_of_wp`, `Prog.cut_of_wp` — what is shown by `wp` holds of runs and of cut-off runs;
* `Prog.Still` — programs that change nothing;
* `Prog.Cut.frame` — a program that stays within some cells leaves the others, cut off or not.
-/
import TestRange.Lib.Footprint

namespace Prog

variable {S : Sig} {ε α W K V : Type}

/-- The worlds a program may leave behind when it is cut off. -/
inductive Cut (sem : Sem S ε W) : Prog S ε α → W → W → Prop
  | here (p : Prog S ε α) (w : W) : Cut sem p w w
  | after {o : S.Op} {k : Except ε (S.Res o) → Prog S ε α} {w w₁ w₂ : W} {r : Except ε (S.Res o)}
      (hr : sem o w r w₁) (hk : Cut sem (k r) w₁ w₂) : Cut sem (call o k) w w₂

variable {sem : Sem S ε W} {p : Prog S ε α} {w w' : W}

/-- A program may be cut off after its last call. -/
theorem Runs.cut {tr : List (Call S ε)} {out : Except ε α} (h : Runs sem p w tr out w') :
    Cut sem p w w' := by
  induction h with
  | ret a w => exact .here _ w
  | raise e w => exact .here _ w
  | call hr _ ih => exact .after hr ih

/-- The logic of a semantics: before every call the crash condition holds. -/
def Logic.ofSem (sem : Sem S ε W) (crash : W → Prop) : Logic S ε W where
  ok := fun _ w => crash w
  next := sem

variable {crash : W → Prop} {Q : α → W → Prop} {E : ε → W → Prop}

theorem runs_of_wp (h : p.wp (Logic.ofSem sem crash) Q E w) {tr : List (Call S ε)}
    {out : Except ε α} (hrun : Runs sem p w tr out w') :
    (∀ a, out = .ok a → Q a w') ∧ ∀ e, out = .error e → E e w' := by
  induction hrun with
  | ret a w =>
    refine ⟨?_, by simp⟩
    rintro _ ⟨⟩
    exact h
  | raise e w =>
    refine ⟨by simp, ?_⟩
    rintro _ ⟨⟩
    exact h
  | call hr _ ih => exact ih (h.2 _ _ hr)

/-- Wherever the program is cut off, the crash condition holds. -/
theorem cut_of_wp (h : p.wp (Logic.ofSem sem crash) Q E w) (hQ : ∀ a w, Q a w → crash w)
    (hE : ∀ e w, E e w → crash w) (hcut : Cut sem p w w') : crash w' := by
  induction hcut with
  | here p w =>
    cases p with
    | ret a => exact hQ a w h
    | raise e => exact hE e w h
    | call o k => exact h.1
  | after hr _ ih => exact ih (h.2 _ _ hr)

/-- Nothing is promised of nothing. -/
theorem wp_any : p.wp (Logic.ofSem sem fun _ => True) (fun _ _ => True) (fun _ _ => True) w :=
  wp_of_invariant (I := fun _ => True) (fun _ _ _ => trivial) (fun _ _ _ _ _ _ => trivial) p trivial

/-- The program leaves the world as it is, wherever it is cut off. -/
def Still (sem : Sem S ε W) (p : Prog S ε α) (w : W) : Prop :=
  p.wp (Logic.ofSem sem fun w' => w' = w) (fun _ w' => w' = w) (fun _ w' => w' = w) w

theorem Still.cut (h : p.Still sem w) (hcut : Cut sem p w w') : w' = w := by
  unfold Still at h
  have hend := cut_of_wp h (fun _ _ hQ => hQ) (fun _ _ hE => hE) hcut
  exact hend

/-- The cells a program stays within are the only ones it changes. -/
theorem Cut.frame {sem : Sem S ε (K → V)} {foot : S.Op → Set K} {own : Set K} {p : Prog S ε α}
    {w w' : K → V} (hframed : Framed sem foot) (hwithin : p.Within foot own)
    (h : Cut sem p w w') {x : K} (hx : x ∉ own) : w' x = w x := by
  induction h with
  | here p w => rfl
  | @after o k w w₁ w₂ r hr _ ih =>
    have hfirst : w₁ x = w x := hframed o w r w₁ hr x fun hfoot => hx (hwithin.1 hfoot)
    rw [ih (hwithin.2 r), hfirst]

/-- A call with nothing in its footprint changes nothing. -/
theorem Framed.quiet {sem : Sem S ε (K → V)} {foot : S.Op → Set K} (hframed : Framed sem foot)
    {o : S.Op} (ho : foot o = ∅) {r : Except ε (S.Res o)} {w w' : K → V} (h : sem o w r w') :
    w' = w := by
  funext k
  exact hframed o w r w' h k (by simp [ho])

/-- A program all of whose calls have nothing in their footprints changes nothing. -/
theorem Within.still {sem : Sem S ε (K → V)} {foot : S.Op → Set K} {p : Prog S ε α} {w : K → V}
    (hframed : Framed sem foot) (hwithin : p.Within foot ∅) : p.Still sem w := by
  have hall : ∀ v, v = w → p.wp (Logic.ofSem sem fun w' => w' = w) (fun _ w' => w' = w)
      (fun _ w' => w' = w) v := by
    induction p with
    | ret a => exact fun v hv => hv
    | raise e => exact fun v hv => hv
    | call o k ih =>
      rintro v rfl
      refine ⟨rfl, fun r w₁ hr => ih r (hwithin.2 r) w₁ ?_⟩
      exact hframed.quiet (Set.subset_empty_iff.mp hwithin.1) hr
  exact hall w rfl

end Prog
