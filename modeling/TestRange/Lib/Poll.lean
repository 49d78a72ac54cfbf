/-
Loops that ask until there is an answer, or until a deadline.

Each round takes time, so that a loop with a deadline ends; the fuel of the loops here is enough
when it outlasts the deadline, and running out of it is a failure of its own.

* `Prog.poll` — ask, and look at the clock when there was no answer;
* `Prog.retry` — look at the clock, and then ask;
* `Prog.wp_poll`, `Prog.wp_await`, `Prog.wp_retry` — the loop rules: an invariant, and a clock that
  goes forward;
* `Prog.Ends.retry_some`, `Prog.Ends.retry_none` — runs of a loop, round by round;
* `Prog.reraise` — every failure becomes one, but for a loop without fuel.
-/
import TestRange.Lib.BigStep

namespace Prog

variable {S : Sig} {ε α : Type}

/-- Ask until there is an answer; without one when the clock is past the deadline, raise `late`. -/
def poll (ask : Prog S ε (Option α)) (now : Prog S ε ℕ) (sleep : Prog S ε Unit) (late spins : ε)
    (deadline : ℕ) : ℕ → Prog S ε α
  | 0 => raise spins
  | fuel + 1 => do
    match ← ask with
    | some a => pure a
    | none =>
      if deadline < (← now) then throw late
      else
        sleep
        poll ask now sleep late spins deadline fuel

/-- Ask before the deadline until there is an answer; then do `late`. -/
def retry (ask : Prog S ε (Option α)) (now : Prog S ε ℕ) (sleep : Prog S ε Unit)
    (late : Prog S ε α) (spins : ε) (deadline : ℕ) : ℕ → Prog S ε α
  | 0 => raise spins
  | fuel + 1 => do
    if (← now) < deadline then
      match ← ask with
      | some a => pure a
      | none =>
        sleep
        retry ask now sleep late spins deadline fuel
    else late

/-- Raise `e` in the place of whatever a program raises. -/
def reraise (p : Prog S ε α) (isSpin : ε → Bool) (e : ε) : Prog S ε α :=
  p.tryCatch fun x => if isSpin x then raise x else raise e

variable {L : Type} {G : Logic S ε L} {Q : α → L → Prop} {E : ε → L → Prop} {I J : L → Prop}
  {clock : L → ℕ} {ask : Prog S ε (Option α)} {now : Prog S ε ℕ} {sleep : Prog S ε Unit}
  {interval deadline : ℕ} {spins : ε}

theorem wp_reraise_of {p : Prog S ε α} {isSpin : ε → Bool} {e : ε} {l : L}
    (hp : p.wp G Q (fun x l => E (if isSpin x then x else e) l) l) :
    (p.reraise isSpin e).wp G Q E l := by
  rw [reraise, wp_tryCatch]
  refine wp_mono (fun _ _ h => h) (fun x l hx => ?_) hp
  split_ifs at hx ⊢ <;> exact hx

/-- The rule for a program whose loops have fuel enough. -/
theorem wp_reraise {p : Prog S ε α} {isSpin : ε → Bool} {e : ε} {l : L}
    (hp : p.wp G Q (fun x l => isSpin x = false ∧ E e l) l) : (p.reraise isSpin e).wp G Q E l := by
  refine wp_reraise_of (wp_mono (fun _ _ h => h) (fun x l hx => ?_) hp)
  rw [if_neg (by rw [hx.1]; decide)]
  exact hx.2

/-- What a round may do: an answer ends the loop, and the clock does not go back.  `I` holds before
the question and `J` when there was no answer. -/
structure Rounds (G : Logic S ε L) (Q : α → L → Prop) (E : ε → L → Prop) (I J : L → Prop)
    (clock : L → ℕ) (interval : ℕ) (ask : Prog S ε (Option α)) (now : Prog S ε ℕ)
    (sleep : Prog S ε Unit) : Prop where
  ask : ∀ l, I l → ask.wp G
    (fun r l' => match r with
      | some a => Q a l'
      | none => J l' ∧ clock l ≤ clock l') E l
  /-- The clock is read before the question or after it. -/
  now : ∀ K, K = I ∨ K = J → ∀ l, K l → now.wp G (fun t l' => K l' ∧ clock l ≤ t ∧ t ≤ clock l') E l
  sleep : ∀ l, J l → sleep.wp G (fun _ l' => I l' ∧ clock l + interval ≤ clock l') E l

/-- Fuel that outlasts a deadline. -/
theorem deadline_lt {start now timeout interval : ℕ} (hinterval : 0 < interval) (h : start ≤ now) :
    start + timeout < now + (timeout / interval + 1) * interval := by
  have hdiv := Nat.div_add_mod timeout interval
  have hmod := Nat.mod_lt timeout hinterval
  rw [Nat.add_mul, Nat.one_mul, Nat.mul_comm]
  omega

theorem wp_poll {late : ε} (h : Rounds G Q E I J clock interval ask now sleep)
    (hlate : ∀ l, J l → E late l) {fuel : ℕ} {l : L} (hl : I l)
    (hfuel : deadline < clock l + fuel * interval) :
    (poll ask now sleep late spins deadline (fuel + 1)).wp G Q E l := by
  induction fuel generalizing l with
  | zero =>
    rw [poll]
    refine wp_seq (h.ask l hl) fun r l₁ hr => ?_
    cases r with
    | some a => exact hr
    | none =>
      refine wp_seq (h.now J (.inr rfl) l₁ hr.1) fun t l₂ ht => ?_
      -- The deadline was past before.
      rw [if_pos (by have := hr.2; have := ht.2.1; omega)]
      exact hlate l₂ ht.1
  | succ fuel ih =>
    rw [poll]
    refine wp_seq (h.ask l hl) fun r l₁ hr => ?_
    cases r with
    | some a => exact hr
    | none =>
      refine wp_seq (h.now J (.inr rfl) l₁ hr.1) fun t l₂ ht => ?_
      split_ifs with hpast
      · exact hlate l₂ ht.1
      · refine wp_seq (h.sleep l₂ ht.1) fun _ l₃ hsleep => ih hsleep.1 ?_
        have hclock : clock l + interval ≤ clock l₃ := by
          have := hr.2
          have := ht.2
          omega
        rw [Nat.succ_mul] at hfuel
        omega

/-- The rule for a loop that waits in the same way before a question and after it, where `p` is why
there was no answer. -/
theorem wp_await {late : ε} {p : Prop}
    (hask : ∀ l, I l → ask.wp G
      (fun r l' => match r with
        | some a => Q a l'
        | none => (p ∧ I l') ∧ clock l ≤ clock l') E l)
    (hnow : ∀ l, I l → now.wp G (fun t l' => I l' ∧ clock l ≤ t ∧ t ≤ clock l') E l)
    (hsleep : ∀ l, I l → sleep.wp G (fun _ l' => I l' ∧ clock l + interval ≤ clock l') E l)
    (hlate : ∀ l, p → I l → E late l) {fuel : ℕ} {l : L} (hl : I l)
    (hfuel : deadline < clock l + fuel * interval) :
    (poll ask now sleep late spins deadline (fuel + 1)).wp G Q E l := by
  have hrounds : Rounds G Q E I (fun l => p ∧ I l) clock interval ask now sleep := by
    refine ⟨hask, fun K hK l₁ hl₁ => ?_, fun l₁ hl₁ => hsleep l₁ hl₁.2⟩
    rcases hK with hK | hK
    · subst hK
      exact hnow l₁ hl₁
    · subst hK
      exact wp_mono (fun _ _ h => ⟨⟨hl₁.1, h.1⟩, h.2⟩) (fun _ _ h => h) (hnow l₁ hl₁.2)
  exact wp_poll hrounds (fun l hl => hlate l hl.1 hl.2) hl hfuel

theorem wp_retry {late : Prog S ε α} (h : Rounds G Q E I J clock interval ask now sleep)
    (hlate : ∀ l, I l → late.wp G Q E l) {fuel : ℕ} {l : L} (hl : I l)
    (hfuel : deadline ≤ clock l + fuel * interval) :
    (retry ask now sleep late spins deadline (fuel + 1)).wp G Q E l := by
  induction fuel generalizing l with
  | zero =>
    rw [retry]
    refine wp_seq (h.now I (.inl rfl) l hl) fun t l₁ ht => ?_
    rw [if_neg (by have := ht.2.1; omega)]
    exact hlate l₁ ht.1
  | succ fuel ih =>
    rw [retry]
    refine wp_seq (h.now I (.inl rfl) l hl) fun t l₁ ht => ?_
    split_ifs with hbefore
    · refine wp_seq (h.ask l₁ ht.1) fun r l₂ hr => ?_
      cases r with
      | some a => exact hr
      | none =>
        refine wp_seq (h.sleep l₂ hr.1) fun _ l₃ hsleep => ih hsleep.1 ?_
        have hclock : clock l + interval ≤ clock l₃ := by
          have := hr.2
          have := hsleep.2
          have := ht.2
          omega
        rw [Nat.succ_mul] at hfuel
        omega
    · exact hlate l₁ ht.1

namespace Ends

variable {W : Type} {sem : Sem S ε W} {w w₁ w₂ w₃ w₄ : W} {late : Prog S ε α} {fuel t : ℕ}

theorem retry_some {a : α} (hnow : Ends sem now w (.ok t) w₁) (hbefore : t < deadline)
    (hask : Ends sem ask w₁ (.ok (some a)) w₂) :
    Ends sem (retry ask now sleep late spins deadline (fuel + 1)) w (.ok a) w₂ := by
  rw [retry]
  refine bind hnow ?_
  rw [if_pos hbefore]
  exact bind hask (ret a w₂)

theorem retry_none {out : Except ε α} (hnow : Ends sem now w (.ok t) w₁) (hbefore : t < deadline)
    (hask : Ends sem ask w₁ (.ok none) w₂) (hsleep : Ends sem sleep w₂ (.ok ()) w₃)
    (hrest : Ends sem (retry ask now sleep late spins deadline fuel) w₃ out w₄) :
    Ends sem (retry ask now sleep late spins deadline (fuel + 1)) w out w₄ := by
  rw [retry]
  refine bind hnow ?_
  rw [if_pos hbefore]
  exact bind hask (bind hsleep hrest)

end Ends

end Prog
