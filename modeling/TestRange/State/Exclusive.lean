/-
A run has one owner.

Between the probe of a cleanup and what the cleanup does, nothing keeps another process from
taking the lock; and a lock on a file that was unlinked keeps nobody from locking the next one.
Where neither happens, the lock does what it is there for.

* `Ownership.protocol` — where a process may take, keep and release the lock, and act;
  `Ownership.wp_program` — every job keeps to it;
* `Ownership.Inv`, `Ownership.inv_call` — what holds of the lock, and that every call keeps it
  under the condition `Ownership.Guarded`;
* `Ownership.ownership_exclusive` — no two processes own the run, and no cleanup acts beside
  an owner;
* `Ownership.Rivals.lock_races` — without the condition both happen.
-/
import TestRange.State.Ownership

namespace TestRange

namespace Ownership

open Cleanup (Exc CleanupResult)

/-! ### Positions -/

/-- Where a process is with its own description of the lock file. -/
inductive Hold
  | none
  | opened
  | locked
  | kept
  | unlocked
  | closed
  deriving DecidableEq

/-- A process that is not on its way to or from the lock. -/
def Hold.Settled (h : Hold) : Prop := h = .none ∨ h = .kept

/-- Where a process is: with the lock, and with a probe that found the run without an owner. -/
structure Pos where
  hold : Hold
  clear : Bool

/-- Where the lock calls of a process must stand, and where they take it. -/
def Hold.next : Hold → Op → Option Hold
  | .none, .openLock .own => some .opened
  | .opened, .flock .own => some .locked
  | .opened, .close .own => some .none
  | .locked, .keepLock => some .kept
  | .kept, .unlock .own => some .unlocked
  | .unlocked, .close .own => some .closed
  | .closed, .dropLock => some .none
  | _, _ => Option.none

/-- The calls that move a process. -/
def Op.moves : Op → Bool
  | .openLock .own => true
  | .flock .own => true
  | .close .own => true
  | .unlock .own => true
  | .keepLock => true
  | .dropLock => true
  | _ => false

/-- The call that finds a run without an owner. -/
def Op.probes : Op → Bool
  | .flock .probe => true
  | _ => false

/-- The position after a call that was answered. -/
def Pos.after (l : Pos) (o : Op) : Pos where
  hold := (l.hold.next o).getD l.hold
  clear := l.clear || o.probes

/-- The calls that do not raise. -/
def Op.firm : Op → Bool
  | .unlock _ => true
  | .close _ => true
  | .keepLock => true
  | .dropLock => true
  | _ => false

/-- A process whose job acts acts only where it is clear. -/
def protocol (acting : Bool) : Prog.Logic lockSig Exc Pos where
  ok o l := (o.moves = true → (l.hold.next o).isSome = true) ∧
    (acting = true → o.acts = true → l.clear = true)
  next
    | .hasLock, l, r, l' => l' = l ∧ (l.hold.Settled → r = .ok (decide (l.hold = .kept)))
    | o, l, .ok _, l' => l' = l.after o
    | o, l, .error _, l' => l' = l ∧ o.firm = false

section Wp

variable {acting : Bool} {α : Type} {E : Exc → Pos → Prop} {l : Pos} {run : String}

/-- The calls that leave a process where it is. -/
def Op.plain : Op → Bool
  | .hasLock => false
  | o => !o.moves && !o.probes

theorem Op.plain_iff {o : Op} (h : o.plain = true) :
    o ≠ .hasLock ∧ o.moves = false ∧ o.probes = false := by
  unfold plain at h
  split at h
  · cases h
  · simp only [Bool.and_eq_true, Bool.not_eq_true'] at h
    exact ⟨‹_›, h⟩

theorem Hold.next_of_moves {o : Op} (h : o.moves = false) (x : Hold) : x.next o = Option.none := by
  unfold next
  split <;> first | rfl | cases h

theorem Pos.after_plain {o : Op} (h : o.plain = true) (l : Pos) : l.after o = l := by
  obtain ⟨-, hmoves, hprobes⟩ := Op.plain_iff h
  rw [after, Hold.next_of_moves hmoves, hprobes, Bool.or_false]
  rfl

theorem Pos.after_move {o : Op} {x : Hold} {l : Pos} (hnext : l.hold.next o = some x)
    (hprobes : o.probes = false) : l.after o = ⟨x, l.clear⟩ := by
  rw [after, hnext, hprobes, Bool.or_false]
  rfl

/-- A call that leaves the process where it is. -/
theorem wp_plain {o : Op} (hplain : o.plain = true) {Q : lockSig.Res o → Pos → Prop}
    (hacts : acting = true → o.acts = true → l.clear = true) (hQ : ∀ a, Q a l) (hE : ∀ e, E e l) :
    (Prog.perform (S := lockSig) o).wp (protocol acting) Q E l := by
  obtain ⟨hfield, hmoves, -⟩ := Op.plain_iff hplain
  refine Prog.wp_perform.mpr ⟨⟨fun h => ?_, hacts⟩, fun a l' hn => ?_, fun e l' hn => ?_⟩
  · rw [hmoves] at h
    cases h
  · have hl : l' = l := by
      rw [← Pos.after_plain hplain l]
      unfold protocol at hn
      dsimp only at hn
      split at hn
      · exact absurd rfl hfield
      · assumption
      · contradiction
    rw [hl]
    exact hQ a
  · have hl : l' = l := by
      unfold protocol at hn
      dsimp only at hn
      split at hn
      · exact absurd rfl hfield
      · contradiction
      · exact hn.1
    rw [hl]
    exact hE e

/-- A call that moves the process. -/
theorem wp_move {o : Op} {x : Hold} (hnext : l.hold.next o = some x) (hacts : o.acts = false)
    {Q : lockSig.Res o → Pos → Prop} (hQ : ∀ a, Q a ⟨x, l.clear⟩)
    (hE : o.firm = false → ∀ e, E e l) : (Prog.perform (S := lockSig) o).wp (protocol acting) Q E l := by
  have hmoves : o.moves = true := by
    by_contra hne
    rw [Hold.next_of_moves (by simpa using hne)] at hnext
    cases hnext
  have hprobes : o.probes = false := by
    unfold Op.moves at hmoves
    split at hmoves <;> first | rfl | cases hmoves
  have hfield : o ≠ .hasLock := by
    rintro rfl
    cases hmoves
  refine Prog.wp_perform.mpr ⟨⟨fun _ => by rw [hnext]; rfl, fun _ h => ?_⟩, fun a l' hn => ?_,
    fun e l' hn => ?_⟩
  · rw [hacts] at h
    cases h
  · have hl : l' = ⟨x, l.clear⟩ := by
      rw [← Pos.after_move hnext hprobes]
      unfold protocol at hn
      dsimp only at hn
      split at hn
      · exact absurd rfl hfield
      · assumption
      · contradiction
    rw [hl]
    exact hQ a
  · unfold protocol at hn
    dsimp only at hn
    split at hn
    · exact absurd rfl hfield
    · contradiction
    · obtain ⟨rfl, hfirm⟩ := hn
      exact hE hfirm e

theorem wp_hasLock {Q : Bool → Pos → Prop} (hl : l.hold.Settled) (hQ : Q (decide (l.hold = .kept)) l) :
    hasLock.wp (protocol acting) Q E l := by
  refine Prog.wp_perform.mpr ⟨⟨fun h => ?_, fun _ h => ?_⟩, ?_, ?_⟩
  · cases h
  · cases h
  · rintro a l' ⟨rfl, hr⟩
    cases hr hl
    exact hQ
  · rintro e l' ⟨rfl, hr⟩
    cases hr hl

/-- Taking the lock: the process has it, or is where it was. -/
theorem wp_acquireLock {Q : Unit → Pos → Prop} (hl : l.hold.Settled) (hQ : Q () ⟨.kept, l.clear⟩)
    (hE : ∀ e, E e l) : (acquireLock run).wp (protocol acting) Q E l := by
  rcases l with ⟨hold, clear⟩
  rw [acquireLock, Prog.bind_eq_bind, Prog.wp_bind]
  refine wp_hasLock hl ?_
  rcases hl with hl | hl
  · cases hl
    rw [if_neg (by simp), Prog.bind_eq_bind, Prog.wp_bind]
    refine wp_move (x := .opened) rfl rfl (fun _ => ?_) fun _ => hE
    rw [Prog.bind_eq_bind, Prog.wp_bind, Prog.wp_tryCatch]
    refine wp_move (x := .locked) rfl rfl (fun _ => ?_) fun _ e => ?_
    · refine wp_move (x := .kept) rfl rfl (fun _ => hQ) (by rintro ⟨⟩)
    · -- The lock is not free: what was opened is closed.
      rw [Prog.bind_eq_bind, Prog.wp_bind]
      exact wp_move (x := .none) rfl rfl (fun _ => hE _) (by rintro ⟨⟩)
  · cases hl
    rw [if_pos (by simp)]
    exact hQ

/-- Releasing the lock: the process has nothing open. -/
theorem wp_releaseLock {Q : Unit → Pos → Prop} (hl : l.hold.Settled) (hQ : Q () ⟨.none, l.clear⟩) :
    releaseLock.wp (protocol acting) Q E l := by
  rcases l with ⟨hold, clear⟩
  rw [releaseLock, Prog.bind_eq_bind, Prog.wp_bind]
  refine wp_hasLock hl ?_
  rcases hl with hl | hl
  · cases hl
    rw [if_neg (by simp)]
    exact hQ
  · cases hl
    rw [if_pos (by simp), Prog.bind_eq_bind, Prog.wp_bind]
    refine wp_move (x := .unlocked) rfl rfl (fun _ => ?_) (by rintro ⟨⟩)
    rw [Prog.bind_eq_bind, Prog.wp_bind]
    refine wp_move (x := .closed) rfl rfl (fun _ => ?_) (by rintro ⟨⟩)
    exact wp_move (x := .none) rfl rfl (fun _ => hQ) (by rintro ⟨⟩)

/-- The lock of a probe. -/
theorem wp_flock_probe {Q : Unit → Pos → Prop} (hQ : Q () ⟨l.hold, true⟩) (hE : ∀ e, E e l) :
    (flock .probe).wp (protocol acting) Q E l := by
  refine Prog.wp_perform.mpr ⟨⟨fun h => ?_, fun _ h => ?_⟩, ?_, ?_⟩
  · cases h
  · cases h
  · rintro a l' rfl
    rw [Pos.after, Hold.next_of_moves rfl, Op.probes, Bool.or_true]
    exact hQ
  · rintro e l' ⟨rfl, -⟩
    exact hE e

/-- Probing: a run without an owner makes the process clear. -/
theorem wp_isRunning {Q : Bool → Pos → Prop} (htrue : Q true l) (hfalse : Q false ⟨l.hold, true⟩)
    (hE : ∀ e b, (l.clear = true → b = true) → E e ⟨l.hold, b⟩) : isRunning.wp (protocol acting) Q E l := by
  have hsame : ∀ e, E e l := fun e => hE e l.clear id
  have hclear : ∀ e, E e ⟨l.hold, true⟩ := fun e => hE e true fun _ => rfl
  rw [isRunning, Prog.bind_eq_bind, Prog.wp_bind]
  refine wp_plain rfl (by rintro - ⟨⟩) (fun _ => ?_) hsame
  rw [Prog.wp_tryFinally, Prog.bind_eq_bind, Prog.wp_bind, Prog.wp_attempt]
  refine wp_flock_probe ?_ fun e => ?_
  · rw [Prog.bind_eq_bind, Prog.wp_bind]
    refine wp_plain rfl (by rintro - ⟨⟩) (fun _ => ?_) fun e => ?_
    · exact wp_plain rfl (by rintro - ⟨⟩) (fun _ => hfalse) hclear
    · exact wp_plain rfl (by rintro - ⟨⟩) (fun _ => hclear e) hclear
  · exact wp_plain rfl (by rintro - ⟨⟩) (fun _ => htrue) hsame

theorem wp_requireDead {Q : Unit → Pos → Prop} (hQ : Q () ⟨l.hold, true⟩)
    (hE : ∀ e b, (l.clear = true → b = true) → E e ⟨l.hold, b⟩) :
    (requireDead run).wp (protocol acting) Q E l := by
  rw [requireDead, Prog.bind_eq_bind, Prog.wp_bind]
  exact wp_isRunning (hE _ _ id) hQ hE

/-- Unlinking what a run directory holds. -/
theorem wp_removeFiles {Q : Unit → Pos → Prop} (hacts : acting = true → l.clear = true) (hQ : Q () l)
    (hE : ∀ e, E e l) : removeFiles.wp (protocol acting) Q E l := by
  have hledger : ∀ {Q : Unit → Pos → Prop}, Q () l → unlinkLedger.wp (protocol acting) Q E l := by
    intro Q hQ
    rw [unlinkLedger, Prog.bind_eq_bind, Prog.wp_bind]
    refine wp_plain rfl (by rintro - ⟨⟩) (fun found => ?_) hE
    cases found with
    | true => exact wp_plain rfl (fun h _ => hacts h) (fun _ => hQ) hE
    | false => exact hQ
  rw [removeFiles, Prog.bind_eq_bind, Prog.wp_bind]
  refine hledger ?_
  rw [Prog.bind_eq_bind, Prog.wp_bind]
  refine wp_plain rfl (by rintro - ⟨⟩) (fun _ => ?_) hE
  rw [Prog.bind_eq_bind, Prog.wp_bind]
  refine wp_plain rfl (by rintro - ⟨⟩) (fun _ => ?_) hE
  rw [Prog.bind_eq_bind, Prog.wp_bind]
  refine wp_plain rfl (by rintro - ⟨⟩) (fun _ => ?_) hE
  rw [Prog.wp_ignore]
  exact wp_plain rfl (by rintro - ⟨⟩) (fun _ => hQ) fun _ => hQ

theorem wp_rewrite {f : State → State} {Q : Unit → Pos → Prop} (hacts : acting = true → l.clear = true)
    (hQ : Q () l) (hE : ∀ e, E e l) : (rewrite f).wp (protocol acting) Q E l := by
  rw [rewrite, Prog.bind_eq_bind, Prog.wp_bind]
  refine wp_plain rfl (by rintro - ⟨⟩) (fun s => ?_) hE
  exact wp_plain rfl (fun h _ => hacts h) (fun _ => hQ) hE

/-- The calls of a cleanup that act. -/
def cleanupActs : Cleanup.Op → Bool
  | .setPhase _ => true
  | .forget _ => true
  | .remove => true
  | .destroy _ _ _ => true
  | _ => false

/-- A cleanup acts where it is clear; only its probe makes it so. -/
def cleanupProtocol (acting : Bool) (hold : Hold) : Prog.Logic Cleanup.cleanupSig Exc Pos where
  ok o l := l.hold = hold ∧ (acting = true → cleanupActs o.2 = true → l.clear = true)
  next
    | (_, .requireDead), l, .ok _, l' => l' = ⟨l.hold, true⟩
    | (_, .requireDead), l, .error _, l' => l'.hold = l.hold ∧ (l.clear = true → l'.clear = true)
    | _, l, _, l' => l' = l

theorem wp_impl {hold : Hold} (o : Cleanup.cleanupSig.Op) (l : Pos)
    (hok : (cleanupProtocol acting hold).ok o l) : (impl run o).wp (protocol acting)
      (fun a => (cleanupProtocol acting hold).next o l (.ok a))
      (fun e => (cleanupProtocol acting hold).next o l (.error e)) l := by
  obtain ⟨-, hacts⟩ := hok
  rcases o with ⟨r, o⟩
  cases o with
  | requireDead => exact wp_requireDead rfl fun e b hb => ⟨rfl, hb⟩
  | setPhase phase => exact wp_rewrite (fun h => hacts h rfl) rfl fun _ => rfl
  | forget n => exact wp_rewrite (fun h => hacts h rfl) rfl fun _ => rfl
  | remove => exact wp_removeFiles (fun h => hacts h rfl) rfl fun _ => rfl
  | destroy kind n metadata => exact wp_plain rfl (fun h _ => hacts h rfl) (fun _ => rfl) fun _ => rfl
  | «exists» => exact wp_plain rfl (by rintro - ⟨⟩) (fun _ => rfl) fun _ => rfl
  | read => exact wp_plain rfl (by rintro - ⟨⟩) (fun _ => rfl) fun _ => rfl
  | instantiate driverClass driverUri => exact wp_plain rfl (by rintro - ⟨⟩) (fun _ => rfl) fun _ => rfl
  | connect => exact wp_plain rfl (by rintro - ⟨⟩) (fun _ => rfl) fun _ => rfl
  | disconnect => exact wp_plain rfl (by rintro - ⟨⟩) (fun _ => rfl) fun _ => rfl

/-- The positions of a cleanup that may act. -/
def MayAct (acting : Bool) (hold : Hold) (l : Pos) : Prop :=
  l.hold = hold ∧ (acting = true → l.clear = true)

/-- No call of a cleanup takes it back. -/
theorem MayAct.next {hold : Hold} {o : Cleanup.cleanupSig.Op} {l l' : Pos}
    {r : Except Exc (Cleanup.cleanupSig.Res o)} (h : MayAct acting hold l)
    (hn : (cleanupProtocol acting hold).next o l r l') : MayAct acting hold l' := by
  unfold cleanupProtocol at hn
  dsimp only at hn
  split at hn
  · subst hn
    exact ⟨h.1, fun _ => rfl⟩
  · exact ⟨hn.1.trans h.1, fun ha => hn.2 (h.2 ha)⟩
  · subst hn
    exact h

/-- What a cleanup does once it may act. -/
theorem wp_mayAct {hold : Hold} (p : Cleanup.CleanupProg α) (h : MayAct acting hold l) :
    p.wp (cleanupProtocol acting hold) (fun _ l => l.hold = hold) (fun _ l => l.hold = hold) l := by
  have hok : ∀ o l, MayAct acting hold l → (cleanupProtocol acting hold).ok o l :=
    fun o l h => ⟨h.1, fun ha _ => h.2 ha⟩
  exact Prog.wp_mono (fun _ _ h => h.1) (fun _ _ h => h.1)
    (Prog.wp_of_invariant hok (fun _ _ _ _ h hn => h.next hn) p h)

/-- A cleanup probes before it acts. -/
theorem wp_cleanupRun (dryRun : Bool) : (cleanupRun run dryRun).wp (protocol !dryRun)
    (fun _ l' => l'.hold = l.hold) (fun _ l' => l'.hold = l.hold) l := by
  refine Prog.wp_subst (G := cleanupProtocol (!dryRun) l.hold) wp_impl ?_
  rw [Cleanup.cleanupRun, Prog.bind_eq_bind, Prog.wp_bind]
  refine Prog.wp_perform.mpr ⟨⟨rfl, by rintro - ⟨⟩⟩, ?_, ?_⟩
  · rintro found l' rfl
    cases found with
    | false => exact rfl
    | true =>
      rw [if_pos rfl, Prog.bind_eq_bind, Prog.wp_bind]
      refine Prog.wp_perform.mpr ⟨⟨rfl, by rintro - ⟨⟩⟩, ?_, ?_⟩
      · rintro _ l' rfl
        exact wp_mayAct _ ⟨rfl, fun _ => rfl⟩
      · rintro e l' ⟨hhold, -⟩
        exact hhold
  · rintro e l' rfl
    rfl

theorem wp_forgottenNames {Q : List String → Pos → Prop} (hQ : ∀ names, Q names l) (hE : ∀ e, E e l) :
    forgottenNames.wp (protocol acting) Q E l := by
  rw [forgottenNames, Prog.bind_eq_bind, Prog.wp_bind]
  refine wp_plain rfl (by rintro - ⟨⟩) (fun found => ?_) hE
  cases found with
  | false => exact hQ _
  | true =>
    rw [if_pos rfl, Prog.wp_tryCatch, recordedNames, Prog.bind_eq_bind, Prog.wp_bind]
    refine wp_plain rfl (by rintro - ⟨⟩) (fun s => hQ _) fun e => ?_
    cases e with
    | locked text => exact hQ _
    | state text => exact hQ _
    | other text => exact hE _

theorem wp_forgetRun : (forgetRun run).wp (protocol acting) (fun _ l' => l'.hold = l.hold)
    (fun _ l' => l'.hold = l.hold) l := by
  rw [forgetRun, Prog.bind_eq_bind, Prog.wp_bind]
  refine wp_plain rfl (by rintro - ⟨⟩) (fun found => ?_) fun _ => rfl
  cases found with
  | false => exact rfl
  | true =>
    rw [if_pos rfl, Prog.bind_eq_bind, Prog.wp_bind]
    refine wp_requireDead ?_ fun _ _ _ => rfl
    rw [Prog.bind_eq_bind, Prog.wp_bind]
    refine wp_forgottenNames (fun names => ?_) fun _ => rfl
    rw [Prog.bind_eq_bind, Prog.wp_bind]
    exact wp_removeFiles (fun _ => rfl) rfl fun _ => rfl

/-- Where a process is when its job has returned. -/
def Returned (j : Job) (l : Pos) : Prop := l.hold.Settled ∧ (j.owns = true → l.hold = .kept)

/-- Where it is when its job has raised. -/
def Raised (l : Pos) : Prop := l.hold.Settled

/-- Every job keeps to the protocol. -/
theorem wp_program (j : Job) (hl : l.hold.Settled) : (program run j).wp (protocol j.acts)
    (fun _ => Returned j) (fun _ => Raised) l := by
  have hraised : ∀ e : Exc, Raised l := fun _ => hl
  cases j with
  | initializeRun s =>
    rw [program, initializeRun, Prog.bind_eq_bind, Prog.wp_bind]
    refine wp_plain rfl (by rintro - ⟨⟩) (fun _ => ?_) hraised
    rw [Prog.bind_eq_bind, Prog.wp_bind]
    refine wp_plain rfl (by rintro - ⟨⟩) (fun found => ?_) hraised
    cases found with
    | true => exact hl
    | false =>
      rw [if_neg (by decide), Prog.bind_eq_bind, Prog.wp_bind]
      refine wp_acquireLock hl ?_ hraised
      rw [Prog.bind_eq_bind, Prog.wp_bind]
      refine wp_plain rfl (by rintro - ⟨⟩) (fun _ => ?_) fun _ => .inr rfl
      exact wp_plain rfl (by rintro ⟨⟩) (fun _ => ⟨.inr rfl, fun _ => rfl⟩) fun _ => .inr rfl
  | reopen =>
    rw [program, Prog.wp_bind, reopen, Prog.bind_eq_bind, Prog.wp_bind]
    refine wp_plain rfl (by rintro - ⟨⟩) (fun found => ?_) hraised
    cases found with
    | false => exact hl
    | true =>
      rw [if_pos rfl, Prog.bind_eq_bind, Prog.wp_bind]
      refine wp_requireDead ?_ fun _ _ _ => hl
      rw [Prog.bind_eq_bind, Prog.wp_bind]
      refine wp_acquireLock hl ?_ fun _ => hl
      rw [Prog.bind_eq_bind, Prog.wp_bind]
      refine wp_plain rfl (by rintro - ⟨⟩) (fun _ => ?_) fun _ => .inr rfl
      exact wp_plain rfl (by rintro ⟨⟩) (fun _ => ⟨.inr rfl, fun _ => rfl⟩) fun _ => .inr rfl
  | release =>
    rw [program, release, Prog.bind_eq_bind, Prog.wp_bind]
    refine wp_releaseLock hl ?_
    exact wp_plain rfl (by rintro - ⟨⟩) (fun _ => ⟨.inl rfl, by rintro ⟨⟩⟩) fun _ => .inl rfl
  | remove =>
    rw [program, remove, Prog.bind_eq_bind, Prog.wp_bind]
    refine wp_releaseLock hl ?_
    exact wp_removeFiles (by rintro ⟨⟩) ⟨.inl rfl, by rintro ⟨⟩⟩ fun _ => .inl rfl
  | probe =>
    rw [program, Prog.wp_bind]
    exact wp_isRunning ⟨hl, by rintro ⟨⟩⟩ ⟨hl, by rintro ⟨⟩⟩ fun _ _ _ => hl
  | cleanup dryRun =>
    rw [program, Prog.wp_bind]
    refine Prog.wp_mono (fun _ l' h => ?_) (fun _ l' h => ?_) (wp_cleanupRun dryRun)
    · exact ⟨h ▸ hl, by rintro ⟨⟩⟩
    · exact show l'.hold.Settled from h ▸ hl
  | forget =>
    rw [program, Prog.wp_bind]
    refine Prog.wp_mono (fun _ l' h => ?_) (fun _ l' h => ?_) wp_forgetRun
    · exact ⟨h ▸ hl, by rintro ⟨⟩⟩
    · exact show l'.hold.Settled from h ▸ hl

end Wp

/-! ### The invariant -/

/-- What is open of a process at a position, and whether it is locked. -/
def Hold.lock : Hold → Option Bool
  | .none => Option.none
  | .opened => some false
  | .locked => some true
  | .kept => some true
  | .unlocked => some false
  | .closed => Option.none

/-- Whether `_lock_fd` is set at a position. -/
def Hold.stored : Hold → Bool
  | .kept => true
  | .unlocked => true
  | .closed => true
  | _ => false

section Invariant

variable {ι : Type} [DecidableEq ι]

/-- The lock is what it is meant to be: whoever has the lock file open has the one that is
there, one lock is held at most, owners hold it, and beside a cleanup that is clear nobody does. -/
structure Inv (w : World ι) (ls : ι → Pos) (js : ι → Option Job) : Prop where
  lock : ∀ p, (w.files (p, .own)).map (·.locked) = (ls p).hold.lock
  stored : ∀ p, w.store p = (ls p).hold.stored
  current : ∀ x f, w.files x = some f → w.lockFile = some f.inode
  alone : ∀ x y f g, w.files x = some f → w.files y = some g → f.locked = true → g.locked = true → x = y
  owns : ∀ p, w.owner p = true → (ls p).hold = .kept
  clear : ∀ p, (ls p).clear = true → w.cleared p = true
  quiet : ∀ p j, js p = some j → j.acts = true → w.cleared p = true → ∀ q, q ≠ p →
    ∀ f, w.files (q, .own) = some f → f.locked = false
  settled : ∀ p, js p = none → (ls p).hold.Settled

variable {w w' : World ι} {ls : ι → Pos} {js : ι → Option Job} {p : ι}

omit [DecidableEq ι] in
/-- Nothing that the invariant is about has changed. -/
theorem Inv.frame (h : Inv w ls js) (hfiles : w'.files = w.files) (hlock : w'.lockFile = w.lockFile)
    (hstore : w'.store = w.store) (howner : w'.owner = w.owner) (hcleared : w'.cleared = w.cleared) :
    Inv w' ls js := by
  constructor
  · rw [hfiles]
    exact h.lock
  · rw [hstore]
    exact h.stored
  · rw [hfiles, hlock]
    exact h.current
  · rw [hfiles]
    exact h.alone
  · rw [howner]
    exact h.owns
  · rw [hcleared]
    exact h.clear
  · rw [hfiles, hcleared]
    exact h.quiet
  · exact h.settled

/-- A process opens, locks, unlocks or closes a description of the lock file. -/
structure Touch (w w' : World ι) (js : ι → Option Job) (p : ι) (use : Use) (x : Option File) (l : Pos) :
    Prop where
  files : w'.files = Function.update w.files (p, use) x
  store : w'.store = w.store
  /-- the lock file is still the one that is open -/
  others : ∀ y f, w.files y = some f → w'.lockFile = some f.inode
  current : ∀ f, x = some f → w'.lockFile = some f.inode
  /-- it is locked only where nothing else is -/
  alone : ∀ f, x = some f → f.locked = true → ∀ y, y ≠ (p, use) →
    ∀ g, w.files y = some g → g.locked = false
  lock : use = .own → x.map (·.locked) = l.hold.lock
  stored : w.store p = l.hold.stored
  owner : ∀ q, w'.owner q = true → w.owner q = true ∧ (q = p → l.hold = .kept)
  clear : l.clear = true → w'.cleared p = true
  cleared : ∀ q, q ≠ p → w'.cleared q = w.cleared q
  quiet : ∀ j, js p = some j → j.acts = true → w'.cleared p = true → ∀ q, q ≠ p →
    ∀ f, w.files (q, .own) = some f → f.locked = false
  /-- it is locked to own the run only where no cleanup is clear -/
  noCleanup : use = .own → ∀ f, x = some f → f.locked = true → ∀ q, q ≠ p → ∀ j, js q = some j →
    j.acts = true → w.cleared q = false

theorem Inv.touch (h : Inv w ls js) {use : Use} {x : Option File} {l : Pos} {j : Job} (hj : js p = some j)
    (hprobe : use = .probe → l.hold = (ls p).hold) (ht : Touch w w' js p use x l) :
    Inv w' (Function.update ls p l) js := by
  have hfile : ∀ y, y ≠ (p, use) → w'.files y = w.files y := by
    intro y hy
    rw [ht.files, Function.update_of_ne hy]
  have hself : w'.files (p, use) = x := by rw [ht.files, Function.update_self]
  have hpos : ∀ q, q ≠ p → Function.update ls p l q = ls q := fun q hq => Function.update_of_ne hq _ _
  constructor
  · intro q
    by_cases hq : q = p
    · subst hq
      rw [Function.update_self]
      cases use with
      | own => rw [hself, ht.lock rfl]
      | probe => rw [hfile _ (by simp), hprobe rfl, h.lock]
    · rw [hpos q hq, hfile _ (by simp [hq]), h.lock]
  · intro q
    rw [ht.store]
    by_cases hq : q = p
    · subst hq
      rw [Function.update_self, ht.stored]
    · rw [hpos q hq, h.stored]
  · intro y f hy
    by_cases hne : y = (p, use)
    · subst hne
      exact ht.current f (hself ▸ hy)
    · exact ht.others y f (hfile y hne ▸ hy)
  · intro y z f g hy hz hf hg
    by_cases hne : y = (p, use)
    · by_cases hne' : z = (p, use)
      · rw [hne, hne']
      · rw [hne, hself] at hy
        rw [hfile z hne'] at hz
        rw [ht.alone f hy hf z hne' g hz] at hg
        cases hg
    · rw [hfile y hne] at hy
      by_cases hne' : z = (p, use)
      · rw [hne', hself] at hz
        rw [ht.alone g hz hg y hne f hy] at hf
        cases hf
      · rw [hfile z hne'] at hz
        exact h.alone y z f g hy hz hf hg
  · intro q hq
    obtain ⟨howner, hkept⟩ := ht.owner q hq
    by_cases hqp : q = p
    · rw [hqp, Function.update_self]
      exact hkept hqp
    · rw [hpos q hqp]
      exact h.owns q howner
  · intro q hq
    by_cases hqp : q = p
    · subst hqp
      rw [Function.update_self] at hq
      exact ht.clear hq
    · rw [hpos q hqp] at hq
      rw [ht.cleared q hqp]
      exact h.clear q hq
  · intro q i hi hacts hcleared a ha f hf
    by_cases hqp : q = p
    · -- The cleanup is the one of this process.
      subst hqp
      rw [hfile _ (by simp [ha])] at hf
      exact ht.quiet i hi hacts hcleared a ha f hf
    · rw [ht.cleared q hqp] at hcleared
      by_cases hap : (a, Use.own) = (p, use)
      · obtain ⟨rfl, rfl⟩ := Prod.mk.inj hap
        rw [hself] at hf
        by_contra hlocked
        have hnone := ht.noCleanup rfl f hf (by simpa using hlocked) q hqp i hi hacts
        rw [hnone] at hcleared
        cases hcleared
      · rw [hfile _ hap] at hf
        exact h.quiet q i hi hacts hcleared a ha f hf
  · intro q hq
    have hqp : q ≠ p := by
      rintro rfl
      rw [hj] at hq
      cases hq
    rw [hpos q hqp]
    exact h.settled q hq

/-- The condition: nobody takes the lock while another process has probed it and is yet to act
on that, and nobody unlinks the lock file while it is open. -/
def Guarded : Threads.Condition lockSig Exc ι Job (World ι)
  | w, js, p, .flock .own, .ok _ =>
    ∀ q, q ≠ p → ∀ j, js q = some j → j.acts = true → w.cleared q = false
  | w, _, _, .unlinkLock, .ok _ => ∀ x, w.files x = none
  | _, _, _, _, _ => True

section Calls

variable {j : Job} {x : Option File}

/-- A process on its way to or from the lock. -/
theorem Inv.own (h : Inv w ls js) (hj : js p = some j) {y : Hold}
    (hfiles : w'.files = Function.update w.files (p, .own) x) (hstore : w'.store = w.store)
    (hothers : ∀ z f, w.files z = some f → w'.lockFile = some f.inode)
    (hcurrent : ∀ f, x = some f → w'.lockFile = some f.inode)
    (halone : ∀ f, x = some f → f.locked = true → (∀ z, z ≠ (p, .own) → ∀ g, w.files z = some g →
      g.locked = false) ∧ ∀ q, q ≠ p → ∀ j, js q = some j → j.acts = true → w.cleared q = false)
    (hlock : x.map (·.locked) = y.lock) (hstored : (ls p).hold.stored = y.stored)
    (howner : ∀ q, w'.owner q = true → w.owner q = true ∧ (q = p → y = .kept))
    (hcleared : w'.cleared = w.cleared) : Inv w' (Function.update ls p ⟨y, (ls p).clear⟩) js := by
  refine h.touch hj (by rintro ⟨⟩) ⟨hfiles, hstore, hothers, hcurrent, fun f hf hl => (halone f hf hl).1,
    fun _ => hlock, (h.stored p).trans hstored, howner, ?_, ?_, ?_, fun _ f hf hl => (halone f hf hl).2⟩
  · rw [hcleared]
    exact h.clear p
  · intro q _
    rw [hcleared]
  · rw [hcleared]
    exact h.quiet p

/-- A process that probes. -/
theorem Inv.probe (h : Inv w ls js) (hj : js p = some j) {c : Bool}
    (hfiles : w'.files = Function.update w.files (p, .probe) x) (hstore : w'.store = w.store)
    (hothers : ∀ z f, w.files z = some f → w'.lockFile = some f.inode)
    (hcurrent : ∀ f, x = some f → w'.lockFile = some f.inode)
    (halone : ∀ f, x = some f → f.locked = true → ∀ z, z ≠ (p, .probe) → ∀ g, w.files z = some g →
      g.locked = false) (howner : w'.owner = w.owner)
    (hcleared : (c = (ls p).clear ∧ w'.cleared = w.cleared) ∨
      (w'.cleared = Function.update w.cleared p true ∧ ∃ f, x = some f ∧ f.locked = true)) :
    Inv w' (Function.update ls p ⟨(ls p).hold, c⟩) js := by
  refine h.touch hj (fun _ => rfl) ⟨hfiles, hstore, hothers, hcurrent, halone, by rintro ⟨⟩, h.stored p,
    ?_, ?_, ?_, ?_, by rintro ⟨⟩⟩
  · intro q hq
    rw [howner] at hq
    refine ⟨hq, ?_⟩
    rintro rfl
    exact h.owns q hq
  · intro hc
    rcases hcleared with ⟨rfl, hcleared⟩ | ⟨hcleared, -⟩
    · rw [hcleared]
      exact h.clear p hc
    · rw [hcleared, Function.update_self]
  · intro q hq
    rcases hcleared with ⟨-, hcleared⟩ | ⟨hcleared, -⟩
    · rw [hcleared]
    · rw [hcleared, Function.update_of_ne hq]
  · intro i hi hacts hp q hq g hg
    rcases hcleared with ⟨-, hcleared⟩ | ⟨-, f, hf, hlocked⟩
    · rw [hcleared] at hp
      exact h.quiet p i hi hacts hp q hq g hg
    · -- The probe got the lock, so nobody else has it.
      exact halone f hf hlocked (q, .own) (by simp) g hg

/-- Who still owns the run when a process has unlocked or closed its own description. -/
theorem disowned_own {y : Hold} (q : ι) (hq : disowned w p .own q = true) :
    w.owner q = true ∧ (q = p → y = .kept) := by
  have hqp : q ≠ p := by
    rintro rfl
    rw [disowned, if_pos rfl, Function.update_self] at hq
    cases hq
  rw [disowned, if_pos rfl, Function.update_of_ne hqp] at hq
  exact ⟨hq, fun heq => absurd heq hqp⟩

theorem inv_openLock (h : Inv w ls js) (hj : js p = some j) (use : Use)
    (hok : (protocol j.acts).ok (.openLock use) (ls p)) :
    Inv (opened w (p, use)) (Function.update ls p ((ls p).after (.openLock use))) js := by
  have hothers : ∀ z f, w.files z = some f → (opened w (p, use)).lockFile = some f.inode := by
    intro z f hz
    show some (w.lockFile.getD w.fresh) = _
    rw [h.current z f hz]
    rfl
  cases use with
  | own =>
    have hhold : (ls p).hold = .none := by
      have hsome := hok.1 rfl
      cases hx : (ls p).hold <;> rw [hx] at hsome <;> first | rfl | cases hsome
    rw [Pos.after_move (x := .opened) (by rw [hhold]; rfl) rfl]
    refine h.own hj rfl rfl hothers ?_ ?_ rfl ?_ ?_ rfl
    · rintro f ⟨⟩
      rfl
    · rintro f ⟨⟩ ⟨⟩
    · rw [hhold]
      rfl
    · intro q hq
      refine ⟨hq, ?_⟩
      rintro rfl
      have hkept := h.owns q hq
      rw [hhold] at hkept
      cases hkept
  | probe =>
    have hafter : (ls p).after (.openLock .probe) = ⟨(ls p).hold, (ls p).clear⟩ :=
      Pos.after_plain rfl _
    rw [hafter]
    refine h.probe hj rfl rfl hothers ?_ ?_ rfl (.inl ⟨rfl, rfl⟩)
    · rintro f ⟨⟩
      rfl
    · rintro f ⟨⟩ ⟨⟩

theorem inv_flock (h : Inv w ls js) (hj : js p = some j) (use : Use) {f : File}
    (hok : (protocol j.acts).ok (.flock use) (ls p)) (hf : w.files (p, use) = some f)
    (hfree : Free w (p, use) f.inode) (hguarded : Guarded w js p (.flock use) (.ok ())) :
    Inv (locked w p use f) (Function.update ls p ((ls p).after (.flock use))) js := by
  -- Whatever else is open is the same file, and is not locked.
  have hothers : ∀ z g, z ≠ (p, use) → w.files z = some g → g.locked = false := by
    intro z g hz hg
    have hinode : g.inode = f.inode := by
      have heq := (h.current z g hg).symm.trans (h.current _ f hf)
      exact Option.some.inj heq
    have hnot := hfree z hz
    rw [hg, Option.all_some, hinode] at hnot
    simpa using hnot
  cases use with
  | own =>
    have hhold : (ls p).hold = .opened := by
      have hsome := hok.1 rfl
      cases hx : (ls p).hold <;> rw [hx] at hsome <;> first | rfl | cases hsome
    rw [Pos.after_move (x := .locked) (by rw [hhold]; rfl) rfl]
    refine h.own hj rfl rfl h.current ?_ ?_ rfl ?_ ?_ rfl
    · rintro g ⟨⟩
      exact h.current _ f hf
    · rintro g ⟨⟩ -
      exact ⟨fun z hz g hg => hothers z g hz hg, hguarded⟩
    · rw [hhold]
      rfl
    · intro q hq
      refine ⟨hq, ?_⟩
      rintro rfl
      have hkept := h.owns q hq
      rw [hhold] at hkept
      cases hkept
  | probe =>
    have hafter : (ls p).after (.flock .probe) = ⟨(ls p).hold, true⟩ := by
      rw [Pos.after, Hold.next_of_moves rfl, Op.probes, Bool.or_true]
      rfl
    rw [hafter]
    refine h.probe hj rfl rfl h.current ?_ ?_ rfl (.inr ⟨rfl, _, rfl, rfl⟩)
    · rintro g ⟨⟩
      exact h.current _ f hf
    · rintro g ⟨⟩ - z hz g hg
      exact hothers z g hz hg

theorem inv_unlock (h : Inv w ls js) (hj : js p = some j) (use : Use)
    (hok : (protocol j.acts).ok (.unlock use) (ls p)) :
    Inv { w with
      files := Function.update w.files (p, use) ((w.files (p, use)).map fun f => { f with locked := false })
      owner := disowned w p use } (Function.update ls p ((ls p).after (.unlock use))) js := by
  have hcurrent : ∀ f, ((w.files (p, use)).map fun f => ({ f with locked := false } : File)) = some f →
      w.lockFile = some f.inode := by
    intro f hf
    obtain ⟨g, hg, rfl⟩ := Option.map_eq_some_iff.mp hf
    exact h.current _ g hg
  have hunlocked : ∀ f, ((w.files (p, use)).map fun f => ({ f with locked := false } : File)) = some f →
      f.locked = false := by
    intro f hf
    obtain ⟨g, -, rfl⟩ := Option.map_eq_some_iff.mp hf
    rfl
  cases use with
  | own =>
    have hhold : (ls p).hold = .kept := by
      have hsome := hok.1 rfl
      cases hx : (ls p).hold <;> rw [hx] at hsome <;> first | rfl | cases hsome
    rw [Pos.after_move (x := .unlocked) (by rw [hhold]; rfl) rfl]
    refine h.own hj rfl rfl h.current hcurrent ?_ ?_ ?_ ?_ rfl
    · intro f hf hlocked
      rw [hunlocked f hf] at hlocked
      cases hlocked
    · have hlock := h.lock p
      rw [hhold] at hlock
      obtain ⟨f, hf, -⟩ := Option.map_eq_some_iff.mp hlock
      rw [hf]
      rfl
    · rw [hhold]
      rfl
    · exact disowned_own
  | probe =>
    have hafter : (ls p).after (.unlock .probe) = ⟨(ls p).hold, (ls p).clear⟩ := Pos.after_plain rfl _
    rw [hafter]
    refine h.probe hj rfl rfl h.current hcurrent ?_ rfl (.inl ⟨rfl, rfl⟩)
    intro f hf hlocked
    rw [hunlocked f hf] at hlocked
    cases hlocked

theorem inv_close (h : Inv w ls js) (hj : js p = some j) (use : Use)
    (hok : (protocol j.acts).ok (.close use) (ls p)) :
    Inv { w with files := Function.update w.files (p, use) none, owner := disowned w p use }
      (Function.update ls p ((ls p).after (.close use))) js := by
  cases use with
  | own =>
    have hhold : (ls p).hold = .opened ∨ (ls p).hold = .unlocked := by
      have hsome := hok.1 rfl
      cases hx : (ls p).hold <;> rw [hx] at hsome <;> first | exact .inl rfl | exact .inr rfl | cases hsome
    rcases hhold with hhold | hhold
    · rw [Pos.after_move (x := .none) (by rw [hhold]; rfl) rfl]
      refine h.own hj rfl rfl h.current (by rintro f ⟨⟩) (by rintro f ⟨⟩) rfl ?_ disowned_own rfl
      rw [hhold]
      rfl
    · rw [Pos.after_move (x := .closed) (by rw [hhold]; rfl) rfl]
      refine h.own hj rfl rfl h.current (by rintro f ⟨⟩) (by rintro f ⟨⟩) rfl ?_ disowned_own rfl
      rw [hhold]
      rfl
  | probe =>
    have hafter : (ls p).after (.close .probe) = ⟨(ls p).hold, (ls p).clear⟩ := Pos.after_plain rfl _
    rw [hafter]
    exact h.probe hj rfl rfl h.current (by rintro f ⟨⟩) (by rintro f ⟨⟩) rfl (.inl ⟨rfl, rfl⟩)

/-- A process that sets `_lock_fd`, or clears it. -/
theorem Inv.setStore (h : Inv w ls js) (hj : js p = some j) {y : Hold}
    (hlock : (ls p).hold.lock = y.lock) (hne : (ls p).hold ≠ .kept) :
    Inv { w with store := Function.update w.store p y.stored } (Function.update ls p ⟨y, (ls p).clear⟩)
      js := by
  have hpos : ∀ q, q ≠ p → Function.update ls p ⟨y, (ls p).clear⟩ q = ls q :=
    fun q hq => Function.update_of_ne hq _ _
  constructor
  · intro q
    by_cases hq : q = p
    · subst hq
      rw [Function.update_self]
      exact (h.lock q).trans hlock
    · rw [hpos q hq]
      exact h.lock q
  · intro q
    by_cases hq : q = p
    · subst hq
      rw [Function.update_self]
      exact Function.update_self ..
    · rw [hpos q hq]
      exact (Function.update_of_ne hq _ _).trans (h.stored q)
  · exact h.current
  · exact h.alone
  · intro q hq
    have hqp : q ≠ p := by
      rintro rfl
      exact hne (h.owns q hq)
    rw [hpos q hqp]
    exact h.owns q hq
  · intro q hq
    by_cases hqp : q = p
    · subst hqp
      rw [Function.update_self] at hq
      exact h.clear q hq
    · rw [hpos q hqp] at hq
      exact h.clear q hq
  · exact h.quiet
  · intro q hq
    have hqp : q ≠ p := by
      rintro rfl
      rw [hj] at hq
      cases hq
    rw [hpos q hqp]
    exact h.settled q hq

/-- A call that leaves the process where it is. -/
theorem stay {o : Op} (hplain : o.plain = true) {r : Except Exc (lockSig.Res o)}
    (hfirm : ∀ e, r = .error e → o.firm = false) (h : Inv w' ls js) :
    ∃ l, (protocol j.acts).next o (ls p) r l ∧ Inv w' (Function.update ls p l) js := by
  refine ⟨ls p, ?_, ?_⟩
  · obtain ⟨hfield, -, -⟩ := Op.plain_iff hplain
    unfold protocol
    dsimp only
    split
    · exact absurd rfl hfield
    · exact (Pos.after_plain hplain _).symm
    · exact ⟨rfl, hfirm _ rfl⟩
  · rw [Function.update_eq_self]
    exact h

/-- **One call** keeps the invariant where it meets the condition. -/
theorem inv_call {o : Op} {r : Except Exc (lockSig.Res o)} (h : Inv w ls js) (hj : js p = some j)
    (hok : (protocol j.acts).ok o (ls p)) (hguarded : Guarded w js p o r) (hsem : sem p o w r w') :
    ∃ l, (protocol j.acts).next o (ls p) r l ∧ Inv w' (Function.update ls p l) js := by
  cases o with
  | hasLock =>
    obtain ⟨rfl, rfl⟩ := hsem
    refine ⟨ls p, ⟨rfl, fun hsettled => ?_⟩, by rwa [Function.update_eq_self]⟩
    rw [h.stored p]
    rcases hsettled with hx | hx <;> rw [hx] <;> rfl
  | keepLock =>
    obtain ⟨rfl, rfl⟩ := hsem
    have hhold : (ls p).hold = .locked := by
      have hsome := hok.1 rfl
      cases hx : (ls p).hold <;> rw [hx] at hsome <;> first | rfl | cases hsome
    refine ⟨_, rfl, ?_⟩
    rw [Pos.after_move (x := .kept) (by rw [hhold]; rfl) rfl]
    exact h.setStore (y := .kept) hj (by rw [hhold]; rfl) (by rw [hhold]; rintro ⟨⟩)
  | dropLock =>
    obtain ⟨rfl, rfl⟩ := hsem
    have hhold : (ls p).hold = .closed := by
      have hsome := hok.1 rfl
      cases hx : (ls p).hold <;> rw [hx] at hsome <;> first | rfl | cases hsome
    refine ⟨_, rfl, ?_⟩
    rw [Pos.after_move (x := .none) (by rw [hhold]; rfl) rfl]
    exact h.setStore (y := .none) hj (by rw [hhold]; rfl) (by rw [hhold]; rintro ⟨⟩)
  | unlock use =>
    obtain ⟨rfl, rfl⟩ := hsem
    exact ⟨_, rfl, inv_unlock h hj use hok⟩
  | close use =>
    obtain ⟨rfl, rfl⟩ := hsem
    exact ⟨_, rfl, inv_close h hj use hok⟩
  | openLock use =>
    rcases hsem with ⟨e, rfl, rfl⟩ | ⟨-, rfl, rfl⟩
    · exact ⟨ls p, ⟨rfl, rfl⟩, by rwa [Function.update_eq_self]⟩
    · exact ⟨_, rfl, inv_openLock h hj use hok⟩
  | flock use =>
    rcases hsem with ⟨e, rfl, rfl⟩ | ⟨f, hf, hfree, rfl, rfl⟩
    · exact ⟨ls p, ⟨rfl, rfl⟩, by rwa [Function.update_eq_self]⟩
    · exact ⟨_, rfl, inv_flock h hj use hok hf hfree hguarded⟩
  | unlinkLock =>
    rcases hsem with ⟨e, rfl, rfl⟩ | ⟨rfl, rfl⟩
    · exact stay rfl (fun _ _ => rfl) h
    · -- Nobody has the file open, so nobody holds another one than is there.
      refine stay rfl (fun _ _ => rfl) { h with current := fun x f hx => ?_ }
      rw [hguarded x] at hx
      cases hx
  | mkdir =>
    rcases hsem with ⟨e, rfl, rfl⟩ | ⟨rfl, rfl⟩
    · exact stay rfl (fun _ _ => rfl) h
    · exact stay rfl (fun _ _ => rfl) (h.frame rfl rfl rfl rfl rfl)
  | isDir =>
    rcases hsem with ⟨e, rfl, rfl⟩ | ⟨rfl, rfl⟩ <;> exact stay rfl (fun _ _ => rfl) h
  | stateExists =>
    rcases hsem with ⟨e, rfl, rfl⟩ | ⟨rfl, rfl⟩ <;> exact stay rfl (fun _ _ => rfl) h
  | writePid =>
    rcases hsem with ⟨e, rfl, rfl⟩ | ⟨rfl, rfl⟩
    · exact stay rfl (fun _ _ => rfl) h
    · exact stay rfl (fun _ _ => rfl) (h.frame rfl rfl rfl rfl rfl)
  | unlinkPid =>
    rcases hsem with ⟨e, rfl, rfl⟩ | ⟨rfl, rfl⟩
    · exact stay rfl (fun _ _ => rfl) h
    · exact stay rfl (fun _ _ => rfl) (h.frame rfl rfl rfl rfl rfl)
  | readState =>
    obtain ⟨-, rfl⟩ := hsem
    exact stay rfl (fun _ _ => rfl) h
  | writeState s =>
    rcases hsem with ⟨e, rfl, rfl⟩ | ⟨-, rfl⟩
    · exact stay rfl (fun _ _ => rfl) h
    · exact stay rfl (fun _ _ => rfl) (h.frame rfl rfl rfl rfl rfl)
  | unlinkState =>
    rcases hsem with ⟨e, rfl, rfl⟩ | ⟨rfl, rfl⟩
    · exact stay rfl (fun _ _ => rfl) h
    · exact stay rfl (fun _ _ => rfl) (h.frame rfl rfl rfl rfl rfl)
  | rmdir =>
    rcases hsem with ⟨e, rfl, rfl⟩ | ⟨-, -, -, rfl, rfl⟩
    · exact stay rfl (fun _ _ => rfl) h
    · exact stay rfl (fun _ _ => rfl) (h.frame rfl rfl rfl rfl rfl)
  | unlinkPartials =>
    obtain rfl := hsem
    exact stay rfl (fun _ _ => rfl) h
  | instantiate driverClass driverUri =>
    obtain rfl := hsem
    exact stay rfl (fun _ _ => rfl) h
  | connect =>
    obtain rfl := hsem
    exact stay rfl (fun _ _ => rfl) h
  | disconnect =>
    obtain rfl := hsem
    exact stay rfl (fun _ _ => rfl) h
  | destroy kind n metadata =>
    obtain rfl := hsem
    exact stay rfl (fun _ _ => rfl) h

end Calls

/-! ### Jobs that start and end -/

/-- A run directory nobody has open, with anything in it. -/
structure Initial (w : World ι) : Prop where
  files : ∀ x, w.files x = none
  store : ∀ p, w.store p = false
  owner : ∀ p, w.owner p = false

omit [DecidableEq ι] in
theorem Initial.inv (h : Initial w) : Inv w (fun _ => ⟨.none, false⟩) fun _ => none where
  lock p := by
    rw [h.files]
    rfl
  stored p := h.store p
  current x f hx := by
    rw [h.files] at hx
    cases hx
  alone x y f g hx := by
    rw [h.files] at hx
    cases hx
  owns p hp := by
    rw [h.owner] at hp
    cases hp
  clear p hp := by cases hp
  quiet p j hj := by cases hj
  settled p _ := .inl rfl

theorem Inv.start (h : Inv w ls js) (hfree : js p = none) (j : Job) :
    Inv { w with cleared := Function.update w.cleared p false }
      (Function.update ls p ⟨(ls p).hold, false⟩) (Function.update js p (some j)) := by
  have hhold : ∀ q, (Function.update ls p ⟨(ls p).hold, false⟩ q).hold = (ls q).hold := by
    intro q
    by_cases hq : q = p
    · subst hq
      rw [Function.update_self]
    · rw [Function.update_of_ne hq]
  constructor
  · intro q
    rw [hhold]
    exact h.lock q
  · intro q
    rw [hhold]
    exact h.stored q
  · exact h.current
  · exact h.alone
  · intro q hq
    rw [hhold]
    exact h.owns q hq
  · intro q hq
    by_cases hqp : q = p
    · subst hqp
      rw [Function.update_self] at hq
      cases hq
    · rw [Function.update_of_ne hqp] at hq
      exact (Function.update_of_ne hqp _ _).trans (h.clear q hq)
  · intro q i hi hacts hq
    -- The job that starts has not probed.
    have hqp : q ≠ p := by
      rintro rfl
      have hnot : Function.update w.cleared q false q = false := Function.update_self ..
      rw [show Function.update w.cleared q false q = true from hq] at hnot
      cases hnot
    rw [Function.update_of_ne hqp] at hi
    exact h.quiet q i hi hacts ((Function.update_of_ne hqp _ _).symm.trans hq)
  · intro q hq
    have hqp : q ≠ p := by
      rintro rfl
      rw [Function.update_self] at hq
      cases hq
    rw [Function.update_of_ne hqp] at hq
    rw [hhold]
    exact h.settled q hq

/-- A process whose job has ended. -/
theorem Inv.free (h : Inv w ls js) (hsettled : (ls p).hold.Settled) :
    Inv w (Function.update ls p (ls p)) (Function.update js p none) := by
  rw [Function.update_eq_self]
  refine { h with quiet := fun q i hi => ?_, settled := fun q hq => ?_ }
  · have hqp : q ≠ p := by
      rintro rfl
      rw [Function.update_self] at hi
      cases hi
    rw [Function.update_of_ne hqp] at hi
    exact h.quiet q i hi
  · by_cases hqp : q = p
    · rw [hqp]
      exact hsettled
    · rw [Function.update_of_ne hqp] at hq
      exact h.settled q hq

/-- The owner a job makes. -/
theorem Inv.own_run (h : Inv w ls js) (hkept : (ls p).hold = .kept) :
    Inv { w with owner := Function.update w.owner p true } ls js := by
  refine { h with owns := fun q hq => ?_ }
  by_cases hqp : q = p
  · rw [hqp]
    exact hkept
  · exact h.owns q ((Function.update_of_ne hqp _ _).symm.trans hq)

/-- A process that dies. -/
theorem Inv.die (h : Inv w ls js) (p : ι) :
    Inv { w with
      files := fun x => if x.1 = p then none else w.files x
      store := Function.update w.store p false
      owner := Function.update w.owner p false }
      (Function.update ls p ⟨.none, false⟩) (Function.update js p none) := by
  have hfile : ∀ x f, (if x.1 = p then none else w.files x) = some f → w.files x = some f := by
    intro x f hx
    split_ifs at hx
    exact hx
  have hpos : ∀ q, q ≠ p → Function.update ls p ⟨.none, false⟩ q = ls q :=
    fun q hq => Function.update_of_ne hq _ _
  constructor
  · intro q
    by_cases hq : q = p
    · subst hq
      rw [Function.update_self]
      simp [Hold.lock]
    · rw [hpos q hq, ← h.lock q]
      simp [hq]
  · intro q
    by_cases hq : q = p
    · subst hq
      rw [Function.update_self]
      exact Function.update_self ..
    · rw [hpos q hq]
      exact (Function.update_of_ne hq _ _).trans (h.stored q)
  · intro x f hx
    exact h.current x f (hfile x f hx)
  · intro x y f g hx hy
    exact h.alone x y f g (hfile x f hx) (hfile y g hy)
  · intro q hq
    have hqp : q ≠ p := by
      rintro rfl
      have hnot : Function.update w.owner q false q = false := Function.update_self ..
      rw [show Function.update w.owner q false q = true from hq] at hnot
      cases hnot
    rw [hpos q hqp]
    exact h.owns q ((Function.update_of_ne hqp _ _).symm.trans hq)
  · intro q hq
    have hqp : q ≠ p := by
      rintro rfl
      rw [Function.update_self] at hq
      cases hq
    rw [hpos q hqp] at hq
    exact h.clear q hq
  · intro q i hi hacts hcleared a ha f hf
    have hqp : q ≠ p := by
      rintro rfl
      rw [Function.update_self] at hi
      cases hi
    rw [Function.update_of_ne hqp] at hi
    exact h.quiet q i hi hacts hcleared a ha f (hfile _ f hf)
  · intro q hq
    by_cases hqp : q = p
    · rw [hqp, Function.update_self]
      exact .inl rfl
    · rw [Function.update_of_ne hqp] at hq
      rw [hpos q hqp]
      exact h.settled q hq

/-- The discipline of the processes. -/
def discipline (run : String) : Threads.Discipline (system (ι := ι) run) Guarded Initial Pos where
  logic j := protocol j.acts
  returned := Returned
  raised _ := Raised
  inv := Inv
  init w hw := ⟨_, hw.inv⟩
  start j h hfree := ⟨_, h.start hfree j, wp_program j (h.settled _ hfree)⟩
  call h hj hok hguarded hsem := inv_call h hj hok hguarded hsem
  ret := by
    intro w ls js p j h hj hreturned
    refine ⟨ls p, ?_⟩
    show Inv { w with owner := if j.owns then Function.update w.owner p true else w.owner } _ _
    cases howns : j.owns with
    | true => exact (h.own_run (hreturned.2 howns)).free hreturned.1
    | false => exact h.free hreturned.1
  raise := by
    intro w ls js p j e h hj hraised
    exact ⟨ls p, h.free hraised⟩
  die p h := ⟨_, h.die p⟩

/-- What ownership means: one owner at most, and none beside a cleanup that is about to act. -/
def Exclusive (c : Threads lockSig Exc ι Job (World ι)) : Prop :=
  (∀ p q, c.world.owner p = true → c.world.owner q = true → p = q) ∧
    ∀ p j o k, c.running p = some (j, .call o k) → j.acts = true → o.acts = true →
      ∀ q, q ≠ p → c.world.owner q = false

omit [DecidableEq ι] in
/-- An owner holds the lock. -/
theorem Inv.locked_of_owner (h : Inv w ls js) (hp : w.owner p = true) :
    ∃ f, w.files (p, .own) = some f ∧ f.locked = true := by
  have hlock := h.lock p
  rw [h.owns p hp] at hlock
  exact Option.map_eq_some_iff.mp hlock

/-- **Ownership is exclusive** in every run in which nobody takes the lock beside a cleanup that
has probed, and nobody unlinks the lock file while it is open. -/
theorem ownership_exclusive {run : String} {c : Threads lockSig Exc ι Job (World ι)}
    (hc : Threads.Reachable (system run) Guarded Initial c) : Exclusive c := by
  obtain ⟨ls, hinv, hfollows⟩ := (discipline run).reachable hc
  have h : Inv c.world ls c.jobs := hinv
  refine ⟨fun p q hp hq => ?_, fun p j o k hrun hjob hop q hqp => ?_⟩
  · obtain ⟨f, hf, hlocked⟩ := h.locked_of_owner hp
    obtain ⟨g, hg, hlocked'⟩ := h.locked_of_owner hq
    exact congrArg Prod.fst (h.alone _ _ f g hf hg hlocked hlocked')
  · -- The cleanup is clear, so nobody else holds the lock.
    have hclear : (ls p).clear = true := (hfollows p j _ hrun).1.2 hjob hop
    by_contra howner
    obtain ⟨f, hf, hlocked⟩ := h.locked_of_owner (p := q) (by simpa using howner)
    have hunlocked := h.quiet p j (Threads.jobs_of_running hrun) hjob (h.clear p hclear) q hqp f hf
    rw [hunlocked] at hlocked
    cases hlocked

end Invariant

/-! ### Three processes -/

namespace Rivals

instance : Fintype Use := ⟨{.own, .probe}, by intro use; cases use <;> decide⟩

instance (w : World (Fin 3)) (x : Fin 3 × Use) (inode : ℕ) : Decidable (Free w x inode) :=
  inferInstanceAs (Decidable (∀ _, _))

/-- Calls that raise only where they have to. -/
def answer (p : Fin 3) : Prog.Handler lockSig Exc (World (Fin 3))
  | .hasLock, w => (.ok (w.store p), w)
  | .keepLock, w => (.ok (), { w with store := Function.update w.store p true })
  | .dropLock, w => (.ok (), { w with store := Function.update w.store p false })
  | .unlock use, w => (.ok (), { w with
      files := Function.update w.files (p, use) ((w.files (p, use)).map fun f => { f with locked := false })
      owner := disowned w p use })
  | .close use, w => (.ok (), { w with
      files := Function.update w.files (p, use) none
      owner := disowned w p use })
  | .mkdir, w => (.ok (), { w with dir := true })
  | .isDir, w => (.ok w.dir, w)
  | .stateExists, w => (.ok w.state.isSome, w)
  | .openLock use, w => if w.dir = true then (.ok (), opened w (p, use)) else (.error (.other "ENOENT"), w)
  | .flock use, w =>
    match w.files (p, use) with
    | some f =>
      if Free w (p, use) f.inode then (.ok (), locked w p use f) else (.error (.other "EWOULDBLOCK"), w)
    | none => (.error (.other "EBADF"), w)
  | .writePid, w => (.ok (), { w with pid := some p })
  | .unlinkPid, w => (.ok (), { w with pid := none })
  | .readState, w => (w.state.getD (.error (.state "no state")), w)
  | .writeState s, w =>
    if w.dir = true then (.ok (), { w with state := some (.ok s) }) else (.error (.other "ENOENT"), w)
  | .unlinkState, w => (.ok (), { w with state := none })
  | .unlinkLock, w => (.ok (), { w with lockFile := none })
  | .rmdir, w =>
    if w.state.isNone = true ∧ w.pid = none ∧ w.lockFile = none then (.ok (), { w with dir := false })
    else (.error (.other "ENOTEMPTY"), w)
  | .unlinkPartials, w => (.ok (), w)
  | .instantiate _ _, w => (.ok (), w)
  | .connect, w => (.ok (), w)
  | .disconnect, w => (.ok (), w)
  | .destroy _ _ _, w => (.ok (), w)

theorem sem_answer (p : Fin 3) (o : Op) (w : World (Fin 3)) :
    sem p o w (answer p o w).1 (answer p o w).2 := by
  cases o with
  | hasLock => exact ⟨rfl, rfl⟩
  | keepLock => exact ⟨rfl, rfl⟩
  | dropLock => exact ⟨rfl, rfl⟩
  | unlock use => exact ⟨rfl, rfl⟩
  | close use => exact ⟨rfl, rfl⟩
  | openLock use =>
    unfold answer
    dsimp only
    split_ifs with hdir
    · exact .inr ⟨hdir, rfl, rfl⟩
    · exact .inl ⟨_, rfl, rfl⟩
  | flock use =>
    unfold answer
    dsimp only
    split
    · split_ifs with hfree
      · exact .inr ⟨_, ‹_›, hfree, rfl, rfl⟩
      · exact .inl ⟨_, rfl, rfl⟩
    · exact .inl ⟨_, rfl, rfl⟩
  | readState =>
    refine ⟨?_, rfl⟩
    cases hs : w.state with
    | none => exact .inl ⟨_, by simp [answer, hs]; rfl⟩
    | some r => exact .inr (by simp [answer, hs])
  | writeState s =>
    unfold answer
    dsimp only
    split_ifs with hdir
    · exact .inr ⟨hdir, rfl⟩
    · exact .inl ⟨_, rfl, rfl⟩
  | rmdir =>
    unfold answer
    dsimp only
    split_ifs with hempty
    · exact .inr ⟨by simpa using hempty.1, hempty.2.1, hempty.2.2, rfl, rfl⟩
    · exact .inl ⟨_, rfl, rfl⟩
  | unlinkPartials => rfl
  | instantiate driverClass driverUri => rfl
  | connect => rfl
  | disconnect => rfl
  | destroy kind n metadata => rfl
  | _ => exact .inr ⟨rfl, rfl⟩

/-- A ledger without resources. -/
def ledger : State :=
  ⟨1, "run-1", "plan", "LibvirtDriver", "qemu:///system", "run", "2024-01-01T00:00:00Z", [], []⟩

/-- The directory of a run whose owner died. -/
def orphan : World (Fin 3) :=
  ⟨true, some (.ok ledger), none, none, 0, fun _ => none, fun _ => false, fun _ => false, fun _ => false⟩

theorem initial_orphan : Initial orphan := ⟨fun _ => rfl, fun _ => rfl, fun _ => rfl⟩

/-- A job from its start to its end, in that many calls. -/
def whole (p : Fin 3) (j : Job) (calls : ℕ) : List (Threads.Move (Fin 3) Job) :=
  .start p j :: List.replicate calls (.call p) ++ [.finish p]

/-- Process 0 probes for a cleanup; process 1 resumes the run; process 0 reads the ledger, twice. -/
def beside : List (Threads.Move (Fin 3) Job) :=
  .start 0 (.cleanup false) :: List.replicate 5 (.call 0) ++ whole 1 .reopen 11 ++ List.replicate 2 (.call 0)

/-- Process 0 goes on to its end, which unlinks the lock file; process 2 starts the run anew. -/
def twice : List (Threads.Move (Fin 3) Job) :=
  beside ++ List.replicate 7 (.call 0) ++ [.finish 0] ++ whole 2 (.initializeRun ledger) 8

/-- The processes after a script whose calls are permitted. -/
def played (permit : World (Fin 3) → (Fin 3 → Option Job) → Fin 3 → Op → Bool)
    (moves : List (Threads.Move (Fin 3) Job)) : Threads lockSig Exc (Fin 3) Job (World (Fin 3)) :=
  Threads.play (system "run-1") permit answer moves ⟨orphan, fun _ => none⟩

/-- No condition on the calls. -/
def free : Threads.Condition lockSig Exc (Fin 3) Job (World (Fin 3)) := fun _ _ _ _ _ => True

theorem reachable_free (moves : List (Threads.Move (Fin 3) Job)) :
    Threads.Reachable (system "run-1") free Initial (played (fun _ _ _ _ => true) moves) :=
  Threads.reachable_play (fun _ _ _ _ _ _ => trivial) (fun w _ p o _ => sem_answer p o w) (.init initial_orphan) moves

/-- A cleanup is about to rewrite the ledger of a run that another process owns; and two
processes own one run. -/
theorem lock_races :
    (∃ c, Threads.Reachable (system "run-1") free Initial c ∧ (∃ s k, c.running 0 =
      some (.cleanup false, .call (.writeState s) k)) ∧ c.world.owner 1 = true ∧ ¬Exclusive c) ∧
    ∃ c, Threads.Reachable (system "run-1") free Initial c ∧ c.world.owner 1 = true ∧
      c.world.owner 2 = true ∧ ¬Exclusive c := by
  constructor
  · have howner : (played (fun _ _ _ _ => true) beside).world.owner 1 = true := by decide
    have hcall : ∃ s k, (played (fun _ _ _ _ => true) beside).running 0 =
        some (.cleanup false, .call (.writeState s) k) := ⟨_, _, rfl⟩
    refine ⟨_, reachable_free beside, hcall, howner, fun hexclusive => ?_⟩
    obtain ⟨s, k, hk⟩ := hcall
    rw [hexclusive.2 0 _ _ k hk rfl rfl 1 (by decide)] at howner
    cases howner
  · have howner : (played (fun _ _ _ _ => true) twice).world.owner 1 = true := by decide
    have howner' : (played (fun _ _ _ _ => true) twice).world.owner 2 = true := by decide
    refine ⟨_, reachable_free twice, howner, howner', fun hexclusive => ?_⟩
    have heq := hexclusive.1 1 2 howner howner'
    cases heq

/-- Calls that meet the condition whatever the others are doing. -/
def careful (w : World (Fin 3)) (_ : Fin 3 → Option Job) (p : Fin 3) : Op → Bool
  | .unlinkLock => false
  | .flock .own => decide (∀ q, q ≠ p → w.cleared q = false)
  | _ => true

theorem guarded_of_careful (w : World (Fin 3)) (js : Fin 3 → Option Job) (p : Fin 3) (o : Op)
    (r : Except Exc (lockSig.Res o)) (h : careful w js p o = true) : Guarded w js p o r := by
  unfold Guarded
  split
  · intro q hq j _ _
    exact of_decide_eq_true h q hq
  · cases h
  · trivial

/-- Process 0 begins a cleanup, process 1 resumes the run, and the probe of the cleanup is refused.
Process 2 probes as well.  Process 1 releases the run, and process 2 resumes it. -/
def orderly : List (Threads.Move (Fin 3) Job) :=
  .start 0 (.cleanup false) :: List.replicate 2 (.call 0) ++ whole 1 .reopen 11 ++
    List.replicate 2 (.call 0) ++ [.finish 0] ++ whole 2 .probe 3 ++ whole 1 .release 5 ++
    whole 2 .reopen 11

/-- All of them come to an end, the ledger is as it was, and process 2 alone owns the run. -/
theorem exclusive_orderly : (∀ p, (played careful orderly).running p = none) ∧
    (played careful orderly).world.state = some (.ok ledger) ∧
    (played careful (orderly.take 19)).world.owner 1 = true ∧
    (played careful orderly).world.owner 1 = false ∧ (played careful orderly).world.owner 2 = true ∧
    Exclusive (played careful orderly) := by
  have hended : ∀ p, (played careful orderly).running p = none := by
    intro p
    match p with
    | 0 => rfl
    | 1 => rfl
    | 2 => rfl
  exact ⟨hended, rfl, by decide, by decide, by decide, ownership_exclusive
    (Threads.reachable_play guarded_of_careful (fun w _ p o _ => sem_answer p o w)
      (.init initial_orphan) _)⟩

end Rivals

end Ownership

end TestRange
