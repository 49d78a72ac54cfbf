/-
Effectful programs with exceptions, as trees of operation calls.

A `Prog S ε α` calls operations of the signature `S` one at a time; each call is
answered by a value or by an exception, and the program goes on from the answer.
What a call does to the world is not part of the tree: it is given by a relation
`Sem`, so that one program can be run alone (`Runs`) or one call at a time, in
any interleaving with other programs.

* `Prog.runs_bind`, `Prog.runs_tryCatch` — runs of a composed program are runs of
  its parts;
* `Prog.wp` — the weakest precondition of a program over a thread-local ghost
  state, given by a `Logic`: what a call demands of the local state and which
  local states may follow it;
* `Prog.wp_bind`, `Prog.wp_tryCatch`, `Prog.wp_forM` — the rules by which such
  preconditions are proved along the text of a program;
* `Prog.wp_prod` — two logics at once;
* `Prog.exec`, `Prog.runs_exec` — the run of a program whose calls are answered by a function.
-/
import Mathlib.Tactic.Common
import Mathlib.Data.List.Basic

/-- An operation signature: the operations, and the type of the value a normal
answer to each of them carries. -/
structure Sig where
  Op : Type
  Res : Op → Type

/-- A program over the operations of `S`, raising exceptions of type `ε`. -/
inductive Prog (S : Sig) (ε α : Type) : Type
  | ret (a : α)
  | raise (e : ε)
  | call (o : S.Op) (k : Except ε (S.Res o) → Prog S ε α)

namespace Prog

variable {S : Sig} {ε α β W L : Type}

/-- Sequencing: exceptions of the first program skip the second. -/
def bind : Prog S ε α → (α → Prog S ε β) → Prog S ε β
  | ret a, f => f a
  | raise e, _ => raise e
  | call o k, f => call o fun r => (k r).bind f

/-- Run the handler on an exception of the program. -/
def tryCatch : Prog S ε α → (ε → Prog S ε α) → Prog S ε α
  | ret a, _ => ret a
  | raise e, h => h e
  | call o k, h => call o fun r => (k r).tryCatch h

/-- The program that answers as `r` does. -/
def ofExcept : Except ε α → Prog S ε α
  | .ok a => ret a
  | .error e => raise e

/-- One call, its exception re-raised. -/
def perform (o : S.Op) : Prog S ε (S.Res o) := call o ofExcept

instance : Monad (Prog S ε) where
  pure := ret
  bind := bind

instance : MonadExceptOf ε (Prog S ε) where
  throw := raise
  tryCatch := tryCatch

/-- Run a program and return how it ended. -/
def attempt (p : Prog S ε α) : Prog S ε (Except ε α) :=
  (p.bind fun a => ret (Except.ok a)).tryCatch fun e => ret (Except.error e)

/-- Run a program, whatever comes of it. -/
def ignore (p : Prog S ε α) : Prog S ε Unit := p.attempt.bind fun _ => ret ()

/-- `try: p finally: q`: the cleanup runs on both exits, and an exception of the
program is raised again after it. -/
def tryFinally (p : Prog S ε α) (q : Prog S ε Unit) : Prog S ε α :=
  p.attempt.bind fun r => q.bind fun _ => ofExcept r

@[simp] theorem pure_eq_ret (a : α) : (pure a : Prog S ε α) = ret a := rfl

@[simp] theorem bind_eq_bind (p : Prog S ε α) (f : α → Prog S ε β) : p >>= f = p.bind f := rfl

@[simp] theorem throw_eq_raise (e : ε) : (throw e : Prog S ε α) = raise e := rfl

@[simp] theorem tryCatch_eq (p : Prog S ε α) (h : ε → Prog S ε α) :
    MonadExceptOf.tryCatch p h = p.tryCatch h := rfl

@[simp] theorem bind_ret (a : α) (f : α → Prog S ε β) : (ret a).bind f = f a := rfl

@[simp] theorem bind_raise (e : ε) (f : α → Prog S ε β) : (raise e).bind f = raise e := rfl

@[simp] theorem bind_call (o : S.Op) (k : Except ε (S.Res o) → Prog S ε α)
    (f : α → Prog S ε β) : (call o k).bind f = call o fun r => (k r).bind f := rfl

theorem bind_ret_right (p : Prog S ε α) : p.bind ret = p := by
  induction p with
  | ret a => rfl
  | raise e => rfl
  | call o k ih =>
    rw [bind_call]
    exact congrArg (call o) (funext ih)

@[simp] theorem tryCatch_ret (a : α) (h : ε → Prog S ε α) : (ret a).tryCatch h = ret a := rfl

@[simp] theorem tryCatch_raise (e : ε) (h : ε → Prog S ε α) :
    (raise e : Prog S ε α).tryCatch h = h e := rfl

@[simp] theorem tryCatch_call (o : S.Op) (k : Except ε (S.Res o) → Prog S ε α)
    (h : ε → Prog S ε α) :
    (call o k).tryCatch h = call o fun r => (k r).tryCatch h := rfl

@[simp] theorem ofExcept_ok (a : α) : (ofExcept (.ok a) : Prog S ε α) = ret a := rfl

@[simp] theorem ofExcept_error (e : ε) : (ofExcept (.error e) : Prog S ε α) = raise e := rfl

/-- Do every call by a program over other operations. -/
def subst {T : Sig} (impl : (o : S.Op) → Prog T ε (S.Res o)) : Prog S ε α → Prog T ε α
  | ret a => ret a
  | raise e => raise e
  | call o k => (impl o).attempt.bind fun r => (k r).subst impl

/-! ### Running a program -/

/-- What each call may answer, and what it does to the world `W`. -/
abbrev Sem (S : Sig) (ε W : Type) : Type :=
  (o : S.Op) → W → Except ε (S.Res o) → W → Prop

/-- A call together with its answer. -/
structure Call (S : Sig) (ε : Type) where
  op : S.Op
  ans : Except ε (S.Res op)

/-- Complete runs of a program on its own: the calls made with their answers, the
outcome and the world left behind. -/
inductive Runs (sem : Sem S ε W) : Prog S ε α → W → List (Call S ε) → Except ε α → W → Prop
  | ret (a : α) (w : W) : Runs sem (ret a) w [] (.ok a) w
  | raise (e : ε) (w : W) : Runs sem (raise e) w [] (.error e) w
  | call {o : S.Op} {k : Except ε (S.Res o) → Prog S ε α} {w w₁ w₂ : W}
      {r : Except ε (S.Res o)} {tr : List (Call S ε)} {out : Except ε α}
      (hr : sem o w r w₁) (hk : Runs sem (k r) w₁ tr out w₂) :
      Runs sem (call o k) w (⟨o, r⟩ :: tr) out w₂

variable {sem : Sem S ε W}

@[simp] theorem runs_ret {a : α} {w w' : W} {tr : List (Call S ε)} {out : Except ε α} :
    Runs sem (ret a) w tr out w' ↔ tr = [] ∧ out = .ok a ∧ w' = w := by
  constructor
  · rintro ⟨⟩
    exact ⟨rfl, rfl, rfl⟩
  · rintro ⟨rfl, rfl, rfl⟩
    exact .ret a _

@[simp] theorem runs_raise {e : ε} {w w' : W} {tr : List (Call S ε)} {out : Except ε α} :
    Runs sem (raise e) w tr out w' ↔ tr = [] ∧ out = .error e ∧ w' = w := by
  constructor
  · rintro ⟨⟩
    exact ⟨rfl, rfl, rfl⟩
  · rintro ⟨rfl, rfl, rfl⟩
    exact .raise e _

theorem runs_call {o : S.Op} {k : Except ε (S.Res o) → Prog S ε α} {w w' : W}
    {tr : List (Call S ε)} {out : Except ε α} :
    Runs sem (call o k) w tr out w' ↔
      ∃ r w₁ tr', tr = ⟨o, r⟩ :: tr' ∧ sem o w r w₁ ∧ Runs sem (k r) w₁ tr' out w' := by
  constructor
  · rintro ⟨⟩
    exact ⟨_, _, _, rfl, ‹_›, ‹_›⟩
  · rintro ⟨r, w₁, tr', rfl, hr, hk⟩
    exact .call hr hk

/-- A run of `p.bind f` is a normal run of `p` followed by a run of `f`, or a run
of `p` that raises. -/
theorem runs_bind {p : Prog S ε α} {f : α → Prog S ε β} {w w' : W} {tr : List (Call S ε)}
    {out : Except ε β} :
    Runs sem (p.bind f) w tr out w' ↔
      (∃ a w₁ tr₁ tr₂, tr = tr₁ ++ tr₂ ∧ Runs sem p w tr₁ (.ok a) w₁ ∧
        Runs sem (f a) w₁ tr₂ out w') ∨
      (∃ e, out = .error e ∧ Runs sem p w tr (.error e) w') := by
  induction p generalizing w tr with
  | ret a =>
    simp only [bind_ret, runs_ret, reduceCtorEq, and_false, false_and, exists_false, or_false]
    constructor
    · intro h
      exact ⟨a, w, [], tr, rfl, ⟨rfl, rfl, rfl⟩, h⟩
    · rintro ⟨a', w₁, tr₁, tr₂, rfl, ⟨rfl, ha, rfl⟩, h⟩
      cases ha
      exact h
  | raise e =>
    simp only [bind_raise, runs_raise, reduceCtorEq, and_false, false_and, exists_false,
      false_or]
    constructor
    · rintro ⟨rfl, rfl, rfl⟩
      exact ⟨e, rfl, rfl, rfl, rfl⟩
    · rintro ⟨e', rfl, rfl, he, rfl⟩
      cases he
      exact ⟨rfl, rfl, rfl⟩
  | call o k ih =>
    simp only [bind_call, runs_call, ih]
    constructor
    · rintro ⟨r, w₁, tr', rfl, hr, ⟨a, w₂, tr₁, tr₂, rfl, h₁, h₂⟩ | ⟨e, rfl, h⟩⟩
      · exact .inl ⟨a, w₂, ⟨o, r⟩ :: tr₁, tr₂, rfl, ⟨r, w₁, tr₁, rfl, hr, h₁⟩, h₂⟩
      · exact .inr ⟨e, rfl, r, w₁, tr', rfl, hr, h⟩
    · rintro (⟨a, w₂, tr₁, tr₂, rfl, ⟨r, w₁, tr', rfl, hr, h₁⟩, h₂⟩ | ⟨e, rfl, r, w₁, tr', rfl, hr, h⟩)
      · exact ⟨r, w₁, tr' ++ tr₂, rfl, hr, .inl ⟨a, w₂, tr', tr₂, rfl, h₁, h₂⟩⟩
      · exact ⟨r, w₁, tr', rfl, hr, .inr ⟨e, rfl, h⟩⟩

/-- A run of `p.tryCatch h` is a normal run of `p`, or a run of `p` that raises
followed by a run of the handler. -/
theorem runs_tryCatch {p : Prog S ε α} {h : ε → Prog S ε α} {w w' : W}
    {tr : List (Call S ε)} {out : Except ε α} :
    Runs sem (p.tryCatch h) w tr out w' ↔
      (∃ a, out = .ok a ∧ Runs sem p w tr (.ok a) w') ∨
      (∃ e w₁ tr₁ tr₂, tr = tr₁ ++ tr₂ ∧ Runs sem p w tr₁ (.error e) w₁ ∧
        Runs sem (h e) w₁ tr₂ out w') := by
  induction p generalizing w tr with
  | ret a =>
    simp only [tryCatch_ret, runs_ret, reduceCtorEq, and_false, false_and, exists_false,
      or_false]
    constructor
    · rintro ⟨rfl, rfl, rfl⟩
      exact ⟨a, rfl, rfl, rfl, rfl⟩
    · rintro ⟨a', rfl, rfl, ha, rfl⟩
      cases ha
      exact ⟨rfl, rfl, rfl⟩
  | raise e =>
    simp only [tryCatch_raise, runs_raise, reduceCtorEq, and_false, false_and, exists_false,
      false_or]
    constructor
    · intro hh
      exact ⟨e, w, [], tr, rfl, ⟨rfl, rfl, rfl⟩, hh⟩
    · rintro ⟨e', w₁, tr₁, tr₂, rfl, ⟨rfl, he, rfl⟩, hh⟩
      cases he
      exact hh
  | call o k ih =>
    simp only [tryCatch_call, runs_call, ih]
    constructor
    · rintro ⟨r, w₁, tr', rfl, hr, ⟨a, rfl, h₁⟩ | ⟨e, w₂, tr₁, tr₂, rfl, h₁, h₂⟩⟩
      · exact .inl ⟨a, rfl, r, w₁, tr', rfl, hr, h₁⟩
      · exact .inr ⟨e, w₂, ⟨o, r⟩ :: tr₁, tr₂, rfl, ⟨r, w₁, tr₁, rfl, hr, h₁⟩, h₂⟩
    · rintro (⟨a, rfl, r, w₁, tr', rfl, hr, h₁⟩ | ⟨e, w₂, tr₁, tr₂, rfl, ⟨r, w₁, tr', rfl, hr, h₁⟩, h₂⟩)
      · exact ⟨r, w₁, tr', rfl, hr, .inl ⟨a, rfl, h₁⟩⟩
      · exact ⟨r, w₁, tr' ++ tr₂, rfl, hr, .inr ⟨e, w₂, tr', tr₂, rfl, h₁, h₂⟩⟩

theorem runs_perform {o : S.Op} {w w' : W} {tr : List (Call S ε)} {out : Except ε (S.Res o)} :
    Runs sem (perform o) w tr out w' ↔ tr = [⟨o, out⟩] ∧ sem o w out w' := by
  rw [perform, runs_call]
  constructor
  · rintro ⟨e | a, w₁, tr', rfl, hsem, hk⟩
    · obtain ⟨rfl, rfl, rfl⟩ := runs_raise.mp hk
      exact ⟨rfl, hsem⟩
    · obtain ⟨rfl, rfl, rfl⟩ := runs_ret.mp hk
      exact ⟨rfl, hsem⟩
  · rintro ⟨rfl, hsem⟩
    refine ⟨out, w', [], rfl, hsem, ?_⟩
    rcases out with e | a
    · exact .raise e w'
    · exact .ret a w'

/-- An attempt ends as the program does, and never raises. -/
theorem runs_attempt {p : Prog S ε α} {w w' : W} {tr : List (Call S ε)}
    {out : Except ε (Except ε α)} :
    Runs sem p.attempt w tr out w' ↔ ∃ r, out = .ok r ∧ Runs sem p w tr r w' := by
  rw [attempt, runs_tryCatch]
  constructor
  · rintro (⟨r, rfl, hr⟩ | ⟨e, w₁, tr₁, tr₂, rfl, hr, hh⟩)
    · rcases runs_bind.mp hr with ⟨a, w₁, tr₁, tr₂, rfl, h₁, h₂⟩ | ⟨e, he, -⟩
      · obtain ⟨rfl, hout, rfl⟩ := runs_ret.mp h₂
        cases hout
        exact ⟨_, rfl, by rwa [List.append_nil]⟩
      · cases he
    · obtain ⟨rfl, rfl, rfl⟩ := runs_ret.mp hh
      rcases runs_bind.mp hr with ⟨a, w₂, tr₂, tr₃, rfl, h₁, h₂⟩ | ⟨e', he, h⟩
      · obtain ⟨-, hout, -⟩ := runs_ret.mp h₂
        cases hout
      · cases he
        exact ⟨_, rfl, by rwa [List.append_nil]⟩
  · rintro ⟨e | a, rfl, hr⟩
    · exact .inr ⟨e, w', tr, [], by simp, runs_bind.mpr (.inr ⟨e, rfl, hr⟩), .ret _ _⟩
    · exact .inl ⟨_, rfl, runs_bind.mpr (.inl ⟨a, w', tr, [], by simp, hr, .ret _ _⟩)⟩

theorem runs_ignore {p : Prog S ε α} {w w' : W} {tr : List (Call S ε)} {out : Except ε Unit} :
    Runs sem p.ignore w tr out w' ↔ out = .ok () ∧ ∃ r, Runs sem p w tr r w' := by
  rw [ignore, runs_bind]
  constructor
  · rintro (⟨r, w₁, tr₁, tr₂, rfl, h₁, h₂⟩ | ⟨e, -, h₁⟩)
    · obtain ⟨rfl, rfl, rfl⟩ := runs_ret.mp h₂
      obtain ⟨r', -, h₁⟩ := runs_attempt.mp h₁
      exact ⟨rfl, r', by rwa [List.append_nil]⟩
    · obtain ⟨_, he, -⟩ := runs_attempt.mp h₁
      cases he
  · rintro ⟨rfl, r, hr⟩
    exact .inl ⟨r, w', tr, [], by simp, runs_attempt.mpr ⟨r, rfl, hr⟩, .ret _ _⟩

/-! ### Preconditions over a local ghost state -/

/-- A logic of calls over a thread-local ghost state `L`: `ok o l` is what a thread
in state `l` must show before it calls `o`, and `next o l r l'` says that the
answer `r` may take it to `l'`. -/
structure Logic (S : Sig) (ε L : Type) where
  ok : S.Op → L → Prop
  next : (o : S.Op) → L → Except ε (S.Res o) → L → Prop

/-- The weakest precondition of a program: every call it can reach is allowed, and
each exit leaves a local state in the postcondition of that exit. -/
def wp (G : Logic S ε L) : Prog S ε α → (α → L → Prop) → (ε → L → Prop) → L → Prop
  | ret a, Q, _, l => Q a l
  | raise e, _, E, l => E e l
  | call o k, Q, E, l => G.ok o l ∧ ∀ r l', G.next o l r l' → (k r).wp G Q E l'

variable {G : Logic S ε L} {Q : α → L → Prop} {E : ε → L → Prop}

@[simp] theorem wp_ret {a : α} : (ret a).wp G Q E = Q a := rfl

@[simp] theorem wp_raise {e : ε} : (raise e : Prog S ε α).wp G Q E = E e := rfl

theorem wp_call {o : S.Op} {k : Except ε (S.Res o) → Prog S ε α} {l : L} :
    (call o k).wp G Q E l ↔
      G.ok o l ∧ ∀ r l', G.next o l r l' → (k r).wp G Q E l' := Iff.rfl

theorem wp_bind {p : Prog S ε α} {f : α → Prog S ε β} {Q : β → L → Prop} :
    (p.bind f).wp G Q E = p.wp G (fun a => (f a).wp G Q E) E := by
  induction p with
  | ret a => rfl
  | raise e => rfl
  | call o k ih =>
    funext l
    simp only [bind_call, wp, ih]

theorem wp_tryCatch {p : Prog S ε α} {h : ε → Prog S ε α} :
    (p.tryCatch h).wp G Q E = p.wp G Q (fun e => (h e).wp G Q E) := by
  induction p with
  | ret a => rfl
  | raise e => rfl
  | call o k ih =>
    funext l
    simp only [tryCatch_call, wp, ih]

theorem wp_mono {p : Prog S ε α} {Q' : α → L → Prop} {E' : ε → L → Prop}
    (hQ : ∀ a l, Q a l → Q' a l) (hE : ∀ e l, E e l → E' e l) {l : L}
    (h : p.wp G Q E l) : p.wp G Q' E' l := by
  induction p generalizing l with
  | ret a => exact hQ a l h
  | raise e => exact hE e l h
  | call o k ih => exact ⟨h.1, fun r l' hn => ih r (h.2 r l' hn)⟩

/-- Two postconditions at once. -/
theorem wp_and {p : Prog S ε α} {Q' : α → L → Prop} {E' : ε → L → Prop} {l : L}
    (h : p.wp G Q E l) (h' : p.wp G Q' E' l) :
    p.wp G (fun a l => Q a l ∧ Q' a l) (fun e l => E e l ∧ E' e l) l := by
  induction p generalizing l with
  | ret a => exact ⟨h, h'⟩
  | raise e => exact ⟨h, h'⟩
  | call o k ih => exact ⟨h.1, fun r l' hn => ih r (h.2 r l' hn) (h'.2 r l' hn)⟩

/-- What every call demands and keeps, every program keeps. -/
theorem wp_of_invariant {I : L → Prop} (hok : ∀ o l, I l → G.ok o l)
    (hnext : ∀ o l r l', I l → G.next o l r l' → I l') (p : Prog S ε α) {l : L} (h : I l) :
    p.wp G (fun _ => I) (fun _ => I) l := by
  induction p generalizing l with
  | ret a => exact h
  | raise e => exact h
  | call o k ih => exact ⟨hok o l h, fun r l' hn => ih r (hnext o l r l' h hn)⟩

/-- One program after another. -/
theorem wp_seq {p : Prog S ε α} {f : α → Prog S ε β} {P : α → L → Prop} {Q : β → L → Prop} {l : L}
    (hp : p.wp G P E l) (hf : ∀ a l', P a l' → (f a).wp G Q E l') : (p >>= f).wp G Q E l := by
  rw [bind_eq_bind, wp_bind]
  exact wp_mono hf (fun _ _ he => he) hp

theorem wp_ofExcept {r : Except ε α} {l : L} :
    (ofExcept r : Prog S ε α).wp G Q E l ↔
      (∀ a, r = .ok a → Q a l) ∧ (∀ e, r = .error e → E e l) := by
  cases r <;> simp [ofExcept]

theorem wp_perform {o : S.Op} {Q : S.Res o → L → Prop} {l : L} :
    (perform o : Prog S ε (S.Res o)).wp G Q E l ↔
      G.ok o l ∧ (∀ a l', G.next o l (.ok a) l' → Q a l') ∧
        (∀ e l', G.next o l (.error e) l' → E e l') := by
  rw [perform, wp_call]
  refine and_congr_right fun _ => ⟨fun h => ⟨fun a l' hn => h _ l' hn, fun e l' hn => h _ l' hn⟩, ?_⟩
  rintro ⟨h₁, h₂⟩ (e | a) l' hn
  · exact h₂ e l' hn
  · exact h₁ a l' hn

/-- The rule for a call that is always answered. -/
theorem wp_answered {o : S.Op} {Q : S.Res o → L → Prop} {l : L} (hok : G.ok o l)
    (h : ∀ r l', G.next o l r l' → ∃ a, r = .ok a ∧ Q a l') :
    (perform o : Prog S ε (S.Res o)).wp G Q E l := by
  refine wp_perform.mpr ⟨hok, fun a l' hn => ?_, fun e l' hn => ?_⟩
  · obtain ⟨a', ha, hQ⟩ := h _ l' hn
    cases ha
    exact hQ
  · obtain ⟨a', ha, -⟩ := h _ l' hn
    cases ha

theorem wp_attempt {p : Prog S ε α} {Q : Except ε α → L → Prop} :
    p.attempt.wp G Q E = p.wp G (fun a => Q (.ok a)) (fun e => Q (.error e)) := by
  simp only [attempt, wp_tryCatch, wp_bind, wp_ret]

theorem wp_ignore {p : Prog S ε α} {Q : Unit → L → Prop} :
    p.ignore.wp G Q E = p.wp G (fun _ => Q ()) (fun _ => Q ()) := by
  simp only [ignore, wp_bind, wp_attempt, wp_ret]

/-- The cleanup of `tryFinally` must be shown on both exits. -/
theorem wp_tryFinally {p : Prog S ε α} {q : Prog S ε Unit} :
    (p.tryFinally q).wp G Q E =
      p.wp G (fun a => q.wp G (fun _ => Q a) E) (fun e => q.wp G (fun _ => E e) E) := by
  simp only [tryFinally, wp_bind, wp_attempt, wp_ret, ofExcept_ok, ofExcept_error, wp_raise]

/-- The loop rule: an invariant indexed by the part of the list already done. -/
theorem wp_forM {xs : List α} {f : α → Prog S ε PUnit} {Q : PUnit → L → Prop}
    (I : List α → L → Prop)
    (hstep : ∀ done x rest, xs = done ++ x :: rest → ∀ l, I done l →
      (f x).wp G (fun _ => I (done ++ [x])) E l)
    (hend : ∀ l, I xs l → Q ⟨⟩ l) {l : L} (h : I [] l) :
    (xs.forM f).wp G Q E l := by
  suffices H : ∀ rest done l, xs = done ++ rest → I done l → (rest.forM f).wp G Q E l from
    H xs [] l rfl h
  intro rest
  induction rest with
  | nil =>
    intro done l hxs hI
    rw [List.append_nil] at hxs
    exact hend l (hxs ▸ hI)
  | cons x rest ih =>
    intro done l hxs hI
    show ((f x).bind fun _ => rest.forM f).wp G Q E l
    rw [wp_bind]
    refine wp_mono (fun _ l' hl' => ?_) (fun _ _ he => he) (hstep done x rest hxs l hI)
    exact ih (done ++ [x]) l' (by simp [hxs]) hl'

/-- Two logics at once, each with a ghost state of its own. -/
def Logic.prod {L' : Type} (G : Logic S ε L) (H : Logic S ε L') : Logic S ε (L × L') where
  ok o l := G.ok o l.1 ∧ H.ok o l.2
  next o l r l' := G.next o l.1 r l'.1 ∧ H.next o l.2 r l'.2

/-- What is shown in each of two logics holds in both at once. -/
theorem wp_prod {L' : Type} {H : Logic S ε L'} {p : Prog S ε α} {Q' : α → L' → Prop}
    {E' : ε → L' → Prop} {l : L} {l' : L'} (h : p.wp G Q E l) (h' : p.wp H Q' E' l') :
    p.wp (G.prod H) (fun a x => Q a x.1 ∧ Q' a x.2) (fun e x => E e x.1 ∧ E' e x.2) (l, l') := by
  induction p generalizing l l' with
  | ret a => exact ⟨h, h'⟩
  | raise e => exact ⟨h, h'⟩
  | call o k ih =>
    refine ⟨⟨h.1, h'.1⟩, ?_⟩
    rintro r ⟨l₁, l₁'⟩ ⟨hn, hn'⟩
    exact ih r (h.2 r l₁ hn) (h'.2 r l₁' hn')

/-- Preconditions go through where the programs for the calls keep to the logic of the calls. -/
theorem wp_subst {T : Sig} {impl : (o : S.Op) → Prog T ε (S.Res o)} {H : Logic T ε L}
    (himpl : ∀ o l, G.ok o l → (impl o).wp H (fun a => G.next o l (.ok a))
      (fun e => G.next o l (.error e)) l) {p : Prog S ε α} {l : L} (h : p.wp G Q E l) :
    (p.subst impl).wp H Q E l := by
  induction p generalizing l with
  | ret a => exact h
  | raise e => exact h
  | call o k ih =>
    rw [subst, wp_bind, wp_attempt]
    exact wp_mono (fun a l' hn => ih _ (h.2 _ l' hn)) (fun e l' hn => ih _ (h.2 _ l' hn))
      (himpl o l h.1)

/-! ### Running with a handler -/

/-- What each call answers and does, where that is determined. -/
abbrev Handler (S : Sig) (ε W : Type) : Type := (o : S.Op) → W → Except ε (S.Res o) × W

/-- Run a program on its own. -/
def exec (h : Handler S ε W) : Prog S ε α → W → Except ε α × W
  | ret a, w => (.ok a, w)
  | raise e, w => (.error e, w)
  | call o k, w => (k (h o w).1).exec h (h o w).2

variable {h : Handler S ε W} {w : W}

@[simp] theorem exec_ret (a : α) : (ret a : Prog S ε α).exec h w = (.ok a, w) := rfl

@[simp] theorem exec_raise (e : ε) : (raise e : Prog S ε α).exec h w = (.error e, w) := rfl

@[simp] theorem exec_perform (o : S.Op) : (perform o).exec h w = h o w := by
  show ((ofExcept (h o w).1).exec h (h o w).2) = h o w
  cases hr : (h o w).1 <;> simp [Prod.ext_iff, hr]

/-- What a handler does is a run, where its answers are those of the semantics. -/
theorem runs_exec (hsem : ∀ o w, sem o w (h o w).1 (h o w).2) (p : Prog S ε α) (w : W) :
    ∃ tr, Runs sem p w tr (p.exec h w).1 (p.exec h w).2 := by
  induction p generalizing w with
  | ret a => exact ⟨[], .ret a w⟩
  | raise e => exact ⟨[], .raise e w⟩
  | call o k ih =>
    obtain ⟨tr, hrest⟩ := ih (h o w).1 (h o w).2
    exact ⟨⟨o, (h o w).1⟩ :: tr, .call (hsem o w) hrest⟩

/-- The rest of a sequence, after the first program. -/
def andThen (r : Except ε α × W) (f : α → W → Except ε β × W) : Except ε β × W :=
  match r with
  | (.ok a, w) => f a w
  | (.error e, w) => (.error e, w)

@[simp] theorem andThen_ok (a : α) (f : α → W → Except ε β × W) :
    andThen (.ok a, w) f = f a w := rfl

@[simp] theorem andThen_error (e : ε) (f : α → W → Except ε β × W) :
    andThen (.error e, w) f = (.error e, w) := rfl

theorem andThen_eq_ok {r : Except ε α × W} {f : α → W → Except ε β × W} {b : β} {w' : W} :
    andThen r f = (.ok b, w') ↔ ∃ a w₁, r = (.ok a, w₁) ∧ f a w₁ = (.ok b, w') := by
  rcases r with ⟨e | a, w₁⟩ <;> simp [andThen]

@[simp] theorem exec_bind (p : Prog S ε α) (f : α → Prog S ε β) :
    (p.bind f).exec h w = andThen (p.exec h w) fun a => (f a).exec h := by
  induction p generalizing w with
  | ret a => rfl
  | raise e => rfl
  | call o k ih => exact ih _

@[simp] theorem exec_tryCatch (p : Prog S ε α) (g : ε → Prog S ε α) :
    (p.tryCatch g).exec h w =
      match p.exec h w with
      | (.ok a, w') => (.ok a, w')
      | (.error e, w') => (g e).exec h w' := by
  induction p generalizing w with
  | ret a => rfl
  | raise e => rfl
  | call o k ih => exact ih _

@[simp] theorem exec_attempt (p : Prog S ε α) :
    p.attempt.exec h w = (.ok (p.exec h w).1, (p.exec h w).2) := by
  rw [attempt, exec_tryCatch, exec_bind]
  rcases p.exec h w with ⟨e | a, w'⟩ <;> rfl

@[simp] theorem exec_ignore (p : Prog S ε α) : p.ignore.exec h w = (.ok (), (p.exec h w).2) := by
  rw [ignore, exec_bind, exec_attempt]
  rfl

/-- A cleanup that does not raise leaves the outcome as it is. -/
theorem exec_tryFinally {p : Prog S ε α} {q : Prog S ε Unit}
    (hq : ∀ w, (q.exec h w).1 = .ok ()) :
    (p.tryFinally q).exec h w = ((p.exec h w).1, (q.exec h (p.exec h w).2).2) := by
  rw [tryFinally, exec_bind, exec_attempt, andThen_ok, exec_bind]
  have hcleanup := hq (p.exec h w).2
  rcases hend : q.exec h (p.exec h w).2 with ⟨r, w'⟩
  rw [hend] at hcleanup
  cases hcleanup
  rw [andThen_ok]
  cases (p.exec h w).1 <;> rfl

end Prog
