/-
What interleaved programs leave alone.

The world is a table of cells.  Each operation may change the cells of its footprint and no
others; a program whose calls, whatever they are answered, have footprints within some cells
leaves the rest alone, also between the calls of other programs.

* `Prog.Framed` — operations change nothing but their footprints;
* `Prog.Within` — all calls of a program stay within some cells;
* `Threads.frame` — in any interleaving a call changes only cells of its own job.
-/
import Mathlib.Data.Set.Basic
import TestRange.Lib.Threads

namespace Prog

variable {S : Sig} {ε K V α β : Type}

/-- Operations change nothing but their footprints. -/
def Framed (sem : Sem S ε (K → V)) (foot : S.Op → Set K) : Prop :=
  ∀ o w r w', sem o w r w' → ∀ k, k ∉ foot o → w' k = w k

/-- All calls of a program, whatever they are answered, stay within `own`. -/
def Within (foot : S.Op → Set K) (own : Set K) : Prog S ε α → Prop
  | ret _ => True
  | raise _ => True
  | call o k => foot o ⊆ own ∧ ∀ r, (k r).Within foot own

variable {foot : S.Op → Set K} {own : Set K}

theorem Within.ofExcept (r : Except ε α) : (Prog.ofExcept r : Prog S ε α).Within foot own := by
  cases r with
  | ok a => trivial
  | error e => trivial

theorem Within.perform {o : S.Op} (h : foot o ⊆ own) :
    (Prog.perform o : Prog S ε (S.Res o)).Within foot own :=
  ⟨h, fun r => Within.ofExcept r⟩

theorem Within.bind {p : Prog S ε α} {f : α → Prog S ε β} (hp : p.Within foot own)
    (hf : ∀ a, (f a).Within foot own) : (p.bind f).Within foot own := by
  induction p with
  | ret a => exact hf a
  | raise e => trivial
  | call o k ih => exact ⟨hp.1, fun r => ih r (hp.2 r)⟩

/-- The same, of a sequence. -/
theorem Within.seq {p : Prog S ε α} {f : α → Prog S ε β} (hp : p.Within foot own)
    (hf : ∀ a, (f a).Within foot own) : (p >>= f).Within foot own := hp.bind hf

theorem Within.tryCatch {p : Prog S ε α} {h : ε → Prog S ε α} (hp : p.Within foot own)
    (hh : ∀ e, (h e).Within foot own) : (p.tryCatch h).Within foot own := by
  induction p with
  | ret a => trivial
  | raise e => exact hh e
  | call o k ih => exact ⟨hp.1, fun r => ih r (hp.2 r)⟩

theorem Within.tryFinally {p : Prog S ε α} {q : Prog S ε Unit} (hp : p.Within foot own)
    (hq : q.Within foot own) : (p.tryFinally q).Within foot own :=
  .bind (.tryCatch (.bind hp fun _ => trivial) fun _ => trivial)
    fun r => .bind hq fun _ => .ofExcept r

theorem Within.attempt {p : Prog S ε α} (hp : p.Within foot own) : p.attempt.Within foot own :=
  .tryCatch (.bind hp fun _ => trivial) fun _ => trivial

theorem Within.forM {xs : List α} {f : α → Prog S ε PUnit} (hf : ∀ x, (f x).Within foot own) :
    (xs.forM f).Within foot own := by
  induction xs with
  | nil => trivial
  | cons x xs ih => exact .bind (hf x) fun _ => ih

theorem Within.mono {own' : Set K} (hown : own ⊆ own') {p : Prog S ε α}
    (hp : p.Within foot own) : p.Within foot own' := by
  induction p with
  | ret a => trivial
  | raise e => trivial
  | call o k ih => exact ⟨hp.1.trans hown, fun r => ih r (hp.2 r)⟩

/-- What every call within `own` demands and keeps, a program within `own` keeps. -/
theorem Within.wp {L : Type} {G : Logic S ε L} {I : L → Prop} {p : Prog S ε α}
    (hp : p.Within foot own) (hok : ∀ o l, foot o ⊆ own → I l → G.ok o l)
    (hnext : ∀ o l r l', foot o ⊆ own → I l → G.next o l r l' → I l') {l : L} (hl : I l) :
    p.wp G (fun _ => I) (fun _ => I) l := by
  induction p generalizing l with
  | ret a => exact hl
  | raise e => exact hl
  | call o k ih =>
    exact ⟨hok o l hp.1 hl, fun r l' hn => ih r (hp.2 r) (hnext o l r l' hp.1 hl hn)⟩

end Prog

namespace Threads

variable {S : Sig} {ε ι J K V : Type} [DecidableEq ι] {M : System S ε ι J (K → V)}
  {allow : Condition S ε ι J (K → V)} {init : (K → V) → Prop} {foot : S.Op → Set K}
  {own : J → Set K}

/-- What is left of a job stays within the cells of the job. -/
theorem within_of_reachable (hprogram : ∀ j, (M.program j).Within foot (own j))
    {c : Threads S ε ι J (K → V)} (hc : Reachable M allow init c) {t : ι} {j : J}
    {p : Prog S ε Unit} (hrun : c.running t = some (j, p)) : p.Within foot (own j) := by
  induction hc generalizing t j p with
  | init hw => cases hrun
  | @step c c' _ hstep ih =>
    -- Only the thread that moves changes its program.
    have hother : ∀ {u : ι} {x : Option (J × Prog S ε Unit)},
        Function.update c.running u x t = some (j, p) →
        (∀ i q, x = some (i, q) → q.Within foot (own i)) → p.Within foot (own j) := by
      intro u x hu hx
      by_cases htu : t = u
      · subst htu
        rw [Function.update_self] at hu
        exact hx j p hu
      · rw [Function.update_of_ne htu] at hu
        exact ih hu
    cases hstep with
    | start i hfree =>
      refine hother hrun ?_
      rintro _ _ ⟨⟩
      exact hprogram i
    | @call u i o k r w hcall hallow hsem =>
      refine hother hrun ?_
      rintro _ _ ⟨⟩
      exact (ih hcall).2 r
    | ret hret => exact hother hrun (by rintro _ _ ⟨⟩)
    | raise hraise => exact hother hrun (by rintro _ _ ⟨⟩)
    | die u => exact hother hrun (by rintro _ _ ⟨⟩)

/-- **The frame of a job.**  Whatever the other threads do in between, a call changes only cells
of the job it is made for. -/
theorem frame (hframed : ∀ t, Prog.Framed (M.sem t) foot)
    (hprogram : ∀ j, (M.program j).Within foot (own j)) {c : Threads S ε ι J (K → V)}
    (hc : Reachable M allow init c) {t : ι} {j : J} {o : S.Op}
    {k : Except ε (S.Res o) → Prog S ε Unit} (hrun : c.running t = some (j, .call o k))
    {r : Except ε (S.Res o)} {w : K → V} (hsem : M.sem t o c.world r w) {x : K} (hx : x ∉ own j) :
    w x = c.world x := by
  have hwithin : foot o ⊆ own j := (within_of_reachable hprogram hc hrun).1
  exact hframed t o c.world r w hsem x fun hfoot => hx (hwithin hfoot)

end Threads
