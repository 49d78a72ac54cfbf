/-
The communicator that goes through the agent of the hypervisor.

It is bound once, and its sessions can be closed and taken up again: after a `close` the next request
first asks the agent to run `true`, over and over until that is answered or time is up, since a guest
that was power-cycled takes a while to answer.

* `Native.execute`, `Native.readFile`, `Native.writeFile`, `Native.close`, `Native.bind` — the
  communicator;
* `Native.Answer`, `Native.sem` — the agent, and a log of what reaches it;
* `Native.Served` — what comes of a request;
* `Native.Guarded` — behind a `close` nothing is asked for before the agent has answered;
* `Native.sessions_guarded` — it is so in every history, and no request reaches the agent twice.
-/
import TestRange.Drivers.Guest.Machine
import TestRange.Lib.Poll
import TestRange.Lib.Trace

namespace TestRange.Native

open Guest (ExecResult)

/-! ### Calls -/

/-- What is raised: `CommunicatorAlreadyBoundError`, `CommunicatorError` by what is wrong, and what the
agent raises. -/
inductive Fault
  | alreadyBound
  | notBound
  | noAnswer
  | guestAgent
  | other
  /-- A loop has used up its fuel. -/
  | spins

/-- What the agent can be asked for. -/
inductive Ask
  | execute (argv : List String) (timeout : ℕ) (cwd : String)
  | readFile (path : String)
  | writeFile (path : String) (data : List UInt8)

inductive Op
  | isBound
  | setBound
  | isLive
  | setLive (live : Bool)
  /-- `_execute(("true",), timeout=10.0)` -/
  | probe
  | execute (argv : List String) (timeout : ℕ) (cwd : String)
  | readFile (path : String)
  | writeFile (path : String) (data : List UInt8)
  | monotonic
  | sleep (ms : ℕ)

abbrev sig : Sig where
  Op := Op
  Res
    | .isBound => Bool
    | .isLive => Bool
    | .execute _ _ _ => ExecResult
    | .readFile _ => List UInt8
    | .monotonic => ℕ
    | _ => Unit

abbrev Act := Prog sig Fault

def op (o : Op) : Act (sig.Res o) := Prog.perform (S := sig) o

/-! ### The communicator -/

def backoff : ℕ := 2000

def totalTimeout : ℕ := 120000

/-- `bind`, where the callables are those of the agent. -/
def bind : Act Unit := do
  if ← op .isBound then throw .alreadyBound
  else
    op .setBound
    op (.setLive true)

/-- `_check_bound` -/
def checkBound : Act Unit := do
  if ← op .isBound then pure () else throw .notBound

/-- A trivial command, where a guest that is not up yet is no answer. -/
def attempt : Act (Option Unit) := do
  match ← Prog.attempt (op .probe) with
  | .ok _ =>
    op (.setLive true)
    pure (some ())
  | .error .guestAgent => pure none
  | .error x => throw x

/-- `_reconnect_if_needed` -/
def reconnectIfNeeded : Act Unit := do
  if ← op .isLive then pure ()
  else
    let start ← op .monotonic
    Prog.retry attempt (op .monotonic) (op (.sleep backoff)) (throw .noAnswer) .spins
      (start + totalTimeout) (totalTimeout / backoff + 2)

/-- A request, on a session that is taken up again where that is needed. -/
def request {α : Type} (p : Act α) : Act α := do
  checkBound
  reconnectIfNeeded
  p

/-- `execute`, where `timeout` is in milliseconds. -/
def execute (argv : List String) (timeout : ℕ) (cwd : String) : Act ExecResult :=
  request (op (.execute argv timeout cwd))

/-- `read_file` -/
def readFile (path : String) : Act (List UInt8) := request (op (.readFile path))

/-- `write_file` -/
def writeFile (path : String) (data : List UInt8) : Act Unit := request (op (.writeFile path data))

/-- `close` -/
def close : Act Unit := op (.setLive false)

/-! ### The agent -/

/-- What reaches the agent, with whether that was answered; and where the communicator was bound, or a
session was closed. -/
inductive Entry
  | bound
  | closed
  | probe (answered : Bool)
  | ask (a : Ask) (answered : Bool)

structure World where
  bound : Bool
  live : Bool
  clock : ℕ
  log : List Entry

def answered {α : Type} : Except Fault α → Bool
  | .ok _ => true
  | .error _ => false

/-- The agent was asked, and has answered or raised. -/
def Asked {α : Type} (entry : Bool → Entry) (w : World) (r : Except Fault α) (w' : World) : Prop :=
  w' = { w with clock := w'.clock, log := w.log ++ [entry (answered r)] } ∧
    ∀ x, r = .error x → x = .guestAgent ∨ x = .other

/-- What a call does. -/
def Answer : (o : Op) → World → Except Fault (sig.Res o) → World → Prop
  | .isBound, w, r, w' => r = .ok w.bound ∧ w' = { w with clock := w'.clock }
  | .setBound, w, r, w' =>
    r = .ok () ∧ w' = { w with bound := true, clock := w'.clock, log := w.log ++ [.bound] }
  | .isLive, w, r, w' => r = .ok w.live ∧ w' = { w with clock := w'.clock }
  | .setLive true, w, r, w' => r = .ok () ∧ w' = { w with live := true, clock := w'.clock }
  | .setLive false, w, r, w' =>
    r = .ok () ∧ w' = { w with live := false, clock := w'.clock, log := w.log ++ [.closed] }
  | .probe, w, r, w' => Asked .probe w r w'
  | .execute argv timeout cwd, w, r, w' => Asked (.ask (.execute argv timeout cwd)) w r w'
  | .readFile path, w, r, w' => Asked (.ask (.readFile path)) w r w'
  | .writeFile path data, w, r, w' => Asked (.ask (.writeFile path data)) w r w'
  | .monotonic, w, r, w' =>
    (∃ t, r = .ok t ∧ w.clock ≤ t ∧ t ≤ w'.clock) ∧ w' = { w with clock := w'.clock }
  | .sleep ms, w, r, w' => r = .ok () ∧ w.clock + ms ≤ w'.clock ∧ w' = { w with clock := w'.clock }

/-- A call takes its time. -/
def sem : Prog.Sem sig Fault World := fun o w r w' => Answer o w r w' ∧ w.clock ≤ w'.clock

/-! ### What comes of a request -/

/-- The agent was probed, and nothing else has reached it. -/
structure Probed (w : World) (probes : List Entry) (w' : World) : Prop where
  bound : w'.bound = w.bound
  log : w'.log = w.log ++ probes
  only : ∀ e ∈ probes, ∃ a, e = .probe a
  live : w'.live = true → w.live = true ∨ .probe true ∈ probes
  dead : w'.live = false → .probe true ∉ probes

/-- A session is taken up again, -/
def Waiting (w w' : World) : Prop := ∃ probes, Probed w probes w' ∧ w'.live = false

/-- it was, -/
def Live (w w' : World) : Prop := ∃ probes, Probed w probes w' ∧ w'.live = true

/-- or it was not. -/
def Refused (w : World) (x : Fault) (w' : World) : Prop := Waiting w w' ∧ x ≠ .spins

variable {w w' : World}

theorem Probed.clock {probes : List Entry} (h : Probed w probes w') (t : ℕ) :
    Probed w probes { w' with clock := t } := ⟨h.bound, h.log, h.only, h.live, h.dead⟩

theorem Waiting.clock (h : Waiting w w') (t : ℕ) : Waiting w { w' with clock := t } := by
  obtain ⟨probes, hprobed, hdead⟩ := h
  exact ⟨probes, hprobed.clock t, hdead⟩

theorem Waiting.start (hdead : w.live = false) : Waiting w w := by
  refine ⟨[], ⟨rfl, (List.append_nil _).symm, fun e he => ?_, .inl, fun _ he => ?_⟩, hdead⟩
  · cases he
  · cases he

theorem Live.start (hlive : w.live = true) : Live w w := by
  refine ⟨[], ⟨rfl, (List.append_nil _).symm, fun e he => ?_, .inl, fun _ he => ?_⟩, hlive⟩
  · cases he
  · cases he

/-- A probe that was not answered. -/
theorem Waiting.probe (h : Waiting w w') (t : ℕ) :
    Waiting w { w' with clock := t, log := w'.log ++ [.probe false] } := by
  obtain ⟨probes, hprobed, hdead⟩ := h
  refine ⟨probes ++ [.probe false], ⟨hprobed.bound, ?_, ?_, ?_, ?_⟩, hdead⟩
  · show w'.log ++ [Entry.probe false] = _
    rw [hprobed.log, List.append_assoc]
  · intro e he
    rcases List.mem_append.mp he with he | he
    · exact hprobed.only e he
    · exact ⟨false, List.mem_singleton.mp he⟩
  · intro hlive
    rw [hdead] at hlive
    cases hlive
  · intro _ he
    rcases List.mem_append.mp he with he | he
    · exact hprobed.dead hdead he
    · cases List.mem_singleton.mp he

/-- A probe that was. -/
theorem Waiting.revived (h : Waiting w w') (t : ℕ) :
    Live w { w' with live := true, clock := t, log := w'.log ++ [.probe true] } := by
  obtain ⟨probes, hprobed, -⟩ := h
  have hlast : Entry.probe true ∈ probes ++ [.probe true] :=
    List.mem_append_right _ (List.mem_singleton_self _)
  refine ⟨probes ++ [.probe true], ⟨hprobed.bound, ?_, ?_, fun _ => .inr hlast, ?_⟩, rfl⟩
  · show w'.log ++ [Entry.probe true] = _
    rw [hprobed.log, List.append_assoc]
  · intro e he
    rcases List.mem_append.mp he with he | he
    · exact hprobed.only e he
    · exact ⟨true, List.mem_singleton.mp he⟩
  · intro hdead
    cases hdead

theorem attempt_wp {w₁ : World} (h : Waiting w w₁) :
    attempt.wp (.ofSem sem fun _ => True)
      (fun r w' => match r with
        | some _ => Live w w'
        | none => Waiting w w' ∧ w₁.clock ≤ w'.clock) (Refused w) w₁ := by
  show (Prog.bind (Prog.attempt (op .probe)) _).wp _ _ _ _
  rw [Prog.wp_bind, Prog.wp_attempt]
  refine Prog.wp_perform.mpr ⟨trivial, fun u w₂ hsem => ?_, fun x w₂ hsem => ?_⟩
  · obtain ⟨⟨heq, -⟩, -⟩ := hsem
    refine Prog.wp_seq (P := fun _ w₃ => Live w w₃) ?_ fun _ w₃ h => h
    refine Prog.wp_answered trivial fun r w₃ hsem => ?_
    obtain ⟨⟨rfl, heq₃⟩, -⟩ := hsem
    refine ⟨_, rfl, ?_⟩
    rw [heq₃, heq]
    exact h.revived _
  · obtain ⟨⟨heq, hx⟩, hclock⟩ := hsem
    have hw₂ : Waiting w w₂ := by
      rw [heq]
      exact h.probe _
    rcases hx x rfl with rfl | rfl
    · exact ⟨hw₂, hclock⟩
    · exact ⟨hw₂, fun h => by cases h⟩

/-- **A session is live in time, or not at all**: `GuestAgentError` is waited out, and anything else
that the agent raises goes through. -/
theorem reconnectIfNeeded_wp :
    reconnectIfNeeded.wp (.ofSem sem fun _ => True) (fun _ w' => Live w w')
      (fun x w' => Refused w x w') w := by
  unfold reconnectIfNeeded
  refine Prog.wp_seq (P := fun live w₁ => live = w.live ∧ w₁ = { w with clock := w₁.clock }) ?_ ?_
  · exact Prog.wp_answered trivial fun r w₁ hsem => ⟨_, hsem.1.1, rfl, hsem.1.2⟩
  rintro live w₁ ⟨rfl, heq⟩
  split_ifs with hlive
  · obtain ⟨probes, hprobed, hl⟩ := Live.start hlive
    rw [heq]
    exact ⟨probes, hprobed.clock _, hl⟩
  have hw₁ : Waiting w w₁ := by
    rw [heq]
    exact (Waiting.start (by simpa using hlive)).clock _
  have hnow (w₂ : World) (hw₂ : Waiting w w₂) : (op .monotonic).wp (.ofSem sem fun _ => True)
      (fun (t : ℕ) w' => Waiting w w' ∧ w₂.clock ≤ t ∧ t ≤ w'.clock) (Refused w) w₂ := by
    refine Prog.wp_answered trivial fun r w₃ hsem => ?_
    obtain ⟨⟨⟨t, rfl, hlo, hhi⟩, heq₃⟩, -⟩ := hsem
    refine ⟨t, rfl, ?_, hlo, hhi⟩
    rw [heq₃]
    exact hw₂.clock _
  refine Prog.wp_seq (hnow w₁ hw₁) ?_
  rintro start w₂ ⟨hw₂, -, hstart⟩
  have hrounds : Prog.Rounds (.ofSem sem fun _ => True) (fun _ w' => Live w w') (Refused w)
      (Waiting w) (Waiting w) World.clock backoff attempt (op .monotonic) (op (.sleep backoff)) := by
    refine ⟨fun w₃ hw₃ => ?_, fun K hK w₃ hw₃ => ?_, fun w₃ hw₃ => ?_⟩
    · refine Prog.wp_mono (fun r _ h => ?_) (fun _ _ h => h) (attempt_wp hw₃)
      cases r with
      | none => exact h
      | some u => exact h
    · obtain rfl : K = Waiting w := hK.elim id id
      exact hnow w₃ hw₃
    · refine Prog.wp_answered trivial fun r w₄ hsem => ?_
      obtain ⟨⟨rfl, hslept, heq₄⟩, -⟩ := hsem
      refine ⟨_, rfl, ?_, hslept⟩
      rw [heq₄]
      exact hw₃.clock _
  have hlate (w₃ : World) (hw₃ : Waiting w w₃) : (throw .noAnswer : Act Unit).wp
      (.ofSem sem fun _ => True) (fun _ w' => Live w w') (Refused w) w₃ :=
    ⟨hw₃, fun h => by cases h⟩
  exact Prog.wp_retry hrounds hlate hw₂ (Prog.deadline_lt (by decide) hstart).le

/-- **What comes of a request**: behind the probes that its session needs it has reached the agent once,
or it has not, and then it is not answered. -/
def Served (a : Ask) (w : World) (returned : Bool) (w' : World) : Prop :=
  ∃ probes w₁, Probed w probes w₁ ∧ w'.live = w₁.live ∧
    ((returned = false ∧ w'.log = w₁.log) ∨
      (w₁.live = true ∧ w'.log = w₁.log ++ [.ask a returned]))

theorem request_wp {o : Op} {a : Ask} (hask : ∀ w r w', sem o w r w' → Asked (.ask a) w r w') :
    (request (op o)).wp (.ofSem sem fun _ => True) (fun _ w' => Served a w true w')
      (fun x w' => Served a w false w' ∧ x ≠ .spins) w := by
  unfold request checkBound
  refine Prog.wp_seq (P := fun _ w₁ => w₁ = { w with clock := w₁.clock }) ?_ fun _ w₁ heq => ?_
  · refine Prog.wp_seq (P := fun _ w₁ => w₁ = { w with clock := w₁.clock }) ?_ fun b w₁ heq => ?_
    · exact Prog.wp_answered trivial fun r w₁ hsem => ⟨_, hsem.1.1, hsem.1.2⟩
    · split_ifs
      · exact heq
      · refine ⟨⟨[], w₁, ?_, rfl, .inl ⟨rfl, rfl⟩⟩, fun h => by cases h⟩
        rw [heq]
        refine ⟨rfl, (List.append_nil _).symm, fun e he => ?_, .inl, fun _ he => ?_⟩
        · cases he
        · cases he
  -- From here on the clock does not matter.
  have hsame {probes : List Entry} {w₂ : World} (h : Probed w₁ probes w₂) : Probed w probes w₂ := by
    rw [heq] at h
    exact ⟨h.bound, h.log, h.only, h.live, h.dead⟩
  refine Prog.wp_seq (Prog.wp_mono (fun _ _ h => h) (fun x w₂ h => ?_) reconnectIfNeeded_wp)
    fun _ w₂ hlive => ?_
  · obtain ⟨⟨probes, hprobed, -⟩, hx⟩ := h
    exact ⟨⟨probes, w₂, hsame hprobed, rfl, .inl ⟨rfl, rfl⟩⟩, hx⟩
  · obtain ⟨probes, hprobed, hl⟩ := hlive
    refine Prog.wp_perform.mpr ⟨trivial, fun r w₃ hsem => ?_, fun x w₃ hsem => ?_⟩
    · obtain ⟨heq₃, -⟩ := hask _ _ _ hsem
      refine ⟨probes, w₂, hsame hprobed, ?_, .inr ⟨hl, ?_⟩⟩
      · rw [heq₃]
      · rw [heq₃]
        rfl
    · obtain ⟨heq₃, hx⟩ := hask _ _ _ hsem
      refine ⟨⟨probes, w₂, hsame hprobed, ?_, .inr ⟨hl, ?_⟩⟩, ?_⟩
      · rw [heq₃]
      · rw [heq₃]
        rfl
      · rcases hx x rfl with rfl | rfl
        · exact fun h => by cases h
        · exact fun h => by cases h

/-! ### Histories -/

/-- What a communicator is used for, and whether it returned. -/
inductive Event
  | bind
  | ask (a : Ask) (returned : Bool)
  | close

/-- A use that came to its end. -/
def Step (w : World) : Event → World → Prop
  | .bind, w' => ∃ tr out, Prog.Runs sem bind w tr out w'
  | .ask (.execute argv timeout cwd) returned, w' =>
    ∃ tr out, Prog.Runs sem (execute argv timeout cwd) w tr out w' ∧ answered out = returned
  | .ask (.readFile path) returned, w' =>
    ∃ tr out, Prog.Runs sem (readFile path) w tr out w' ∧ answered out = returned
  | .ask (.writeFile path data) returned, w' =>
    ∃ tr out, Prog.Runs sem (writeFile path data) w tr out w' ∧ answered out = returned
  | .close, w' => ∃ tr out, Prog.Runs sem close w tr out w'

theorem Step.served {a : Ask} {returned : Bool} (h : Step w (.ask a returned) w') :
    Served a w returned w' := by
  have hall {α : Type} {p : Act α} {tr : List (Prog.Call sig Fault)} {out : Except Fault α}
      (hwp : p.wp (.ofSem sem fun _ => True) (fun _ w' => Served a w true w')
        (fun x w' => Served a w false w' ∧ x ≠ .spins) w)
      (hrun : Prog.Runs sem p w tr out w') (hreturned : answered out = returned) :
      Served a w returned w' := by
    rcases out with x | r
    · obtain rfl : false = returned := hreturned
      exact ((Prog.runs_of_wp hwp hrun).2 x rfl).1
    · obtain rfl : true = returned := hreturned
      exact (Prog.runs_of_wp hwp hrun).1 r rfl
  cases a with
  | execute argv timeout cwd =>
    obtain ⟨tr, out, hrun, hreturned⟩ := h
    exact hall (request_wp (o := .execute argv timeout cwd) fun _ _ _ hsem => hsem.1) hrun hreturned
  | readFile path =>
    obtain ⟨tr, out, hrun, hreturned⟩ := h
    exact hall (request_wp (o := .readFile path) fun _ _ _ hsem => hsem.1) hrun hreturned
  | writeFile path data =>
    obtain ⟨tr, out, hrun, hreturned⟩ := h
    exact hall (request_wp (o := .writeFile path data) fun _ _ _ hsem => hsem.1) hrun hreturned

/-- Since a session was closed, the agent has answered a probe, or the communicator was bound. -/
def Revived (log : List Entry) : Prop :=
  ∀ l₁ l₂, log = l₁ ++ .closed :: l₂ → .closed ∉ l₂ → .probe true ∈ l₂ ∨ .bound ∈ l₂

/-- Behind a `close` nothing is asked for before the agent has answered. -/
def Guarded (log : List Entry) : Prop :=
  ∀ l₁ a returned l₂, log = l₁ ++ .ask a returned :: l₂ → Revived l₁

/-- What was asked for, and whether that was answered, as the agent has it. -/
def asks (log : List Entry) : List (Ask × Bool) :=
  log.filterMap fun
    | .ask a returned => some (a, returned)
    | _ => none

/-- The same, as the caller has it. -/
def requests (tr : List Event) : List (Ask × Bool) :=
  tr.filterMap fun
    | .ask a returned => some (a, returned)
    | _ => none

variable {log l : List Entry}

/-- An entry is in the first part or in the second. -/
theorem split_log {l₁ l₂ : List Entry} {e : Entry} (h : log ++ l = l₁ ++ e :: l₂) :
    (∃ l₃, log = l₁ ++ e :: l₃ ∧ l₂ = l₃ ++ l) ∨ ∃ l₃, l₁ = log ++ l₃ ∧ l = l₃ ++ e :: l₂ := by
  rcases List.append_eq_append_iff.mp h with ⟨l₃, hl₁, hl⟩ | ⟨l₃, hlog, hrest⟩
  · exact .inr ⟨l₃, hl₁, hl⟩
  · cases l₃ with
    | nil =>
      refine .inr ⟨[], ?_, hrest.symm⟩
      rw [hlog, List.append_nil, List.append_nil]
    | cons e' l₃ =>
      obtain ⟨rfl, rfl⟩ := List.cons_eq_cons.mp hrest
      exact .inl ⟨l₃, hlog, rfl⟩

theorem Revived.append (hclosed : .closed ∉ l) (h : Revived log ∨ .probe true ∈ l ∨ .bound ∈ l) :
    Revived (log ++ l) := by
  intro l₁ l₂ heq hsince
  rcases split_log heq with ⟨l₃, hlog, rfl⟩ | ⟨l₃, -, rfl⟩
  · have hsince₃ : .closed ∉ l₃ := fun hmem => hsince (List.mem_append_left l hmem)
    rcases h with h | hlater
    · exact (h l₁ l₃ hlog hsince₃).imp (List.mem_append_left l) (List.mem_append_left l)
    · exact hlater.imp (List.mem_append_right l₃) (List.mem_append_right l₃)
  · exact absurd (List.mem_append_right l₃ List.mem_cons_self) hclosed

/-- Nothing is asked for. -/
def Silent (l : List Entry) : Prop := ∀ a returned, .ask a returned ∉ l

theorem Guarded.append (h : Guarded log) (hsilent : Silent l) : Guarded (log ++ l) := by
  intro l₁ a returned l₂ heq
  rcases split_log heq with ⟨l₃, hlog, -⟩ | ⟨l₃, -, rfl⟩
  · exact h l₁ a returned l₃ hlog
  · exact absurd (List.mem_append_right l₃ List.mem_cons_self) (hsilent a returned)

theorem Guarded.ask (h : Guarded log) (hrevived : Revived log) (a : Ask) (returned : Bool) :
    Guarded (log ++ [.ask a returned]) := by
  intro l₁ a' returned' l₂ heq
  rcases split_log heq with ⟨l₃, hlog, -⟩ | ⟨l₃, rfl, hlast⟩
  · exact h l₁ a' returned' l₃ hlog
  · obtain rfl : l₃ = [] := by
      cases l₃ with
      | nil => rfl
      | cons e l₃ =>
        have hlength := congrArg List.length hlast
        simp at hlength
    rw [List.append_nil]
    exact hrevived

theorem asks_silent (hsilent : Silent l) : asks l = [] := by
  refine List.filterMap_eq_nil_iff.mpr fun e he => ?_
  cases e with
  | ask a returned => exact absurd he (hsilent a returned)
  | _ => rfl

theorem asks_append (log l : List Entry) : asks (log ++ l) = asks log ++ asks l :=
  List.filterMap_append

theorem requests_append (tr : List Event) (e : Event) :
    requests (tr ++ [e]) = requests tr ++ requests [e] := List.filterMap_append

/-- What holds in a history. -/
structure Inv (tr : List Event) (w : World) : Prop where
  guarded : Guarded w.log
  revived : w.live = true → Revived w.log
  /-- Each request reaches the agent at most once, and in order, -/
  once : (asks w.log).Sublist (requests tr)
  /-- and those that return are those that the agent has answered. -/
  returned : (asks w.log).filter (·.2) = (requests tr).filter (·.2)

variable {tr : List Event}

/-- Something else than a request, that adds this to the log. -/
theorem Inv.quiet (h : Inv tr w) {e : Event} (hlog : w'.log = w.log ++ l) (hsilent : Silent l)
    (hnone : requests [e] = []) (hrevived : w'.live = true → Revived (w.log ++ l)) :
    Inv (tr ++ [e]) w' := by
  have hasks : asks w'.log = asks w.log := by
    rw [hlog, asks_append, asks_silent hsilent, List.append_nil]
  have hrequests : requests (tr ++ [e]) = requests tr := by
    rw [requests_append, hnone, List.append_nil]
  refine ⟨?_, ?_, ?_, ?_⟩
  · rw [hlog]
    exact h.guarded.append hsilent
  · rw [hlog]
    exact hrevived
  · rw [hasks, hrequests]
    exact h.once
  · rw [hasks, hrequests]
    exact h.returned

theorem bind_wp : bind.wp (.ofSem sem fun _ => True)
    (fun _ w' => w'.log = w.log ++ [.bound]) (fun _ w' => w'.log = w.log ∧ w'.live = w.live) w := by
  unfold bind
  refine Prog.wp_seq (P := fun _ w₁ => w₁ = { w with clock := w₁.clock }) ?_ fun b w₁ heq => ?_
  · exact Prog.wp_answered trivial fun r w₁ hsem => ⟨_, hsem.1.1, hsem.1.2⟩
  split_ifs
  · rw [heq]
    exact ⟨rfl, rfl⟩
  refine Prog.wp_seq (P := fun _ w₂ => w₂.log = w.log ++ [.bound]) ?_ fun _ w₂ hlog => ?_
  · refine Prog.wp_answered trivial fun r w₂ hsem => ⟨_, hsem.1.1, ?_⟩
    rw [hsem.1.2, heq]
  · refine Prog.wp_answered trivial fun r w₃ hsem => ⟨_, hsem.1.1, ?_⟩
    rw [hsem.1.2]
    exact hlog

theorem close_wp : close.wp (.ofSem sem fun _ => True)
    (fun _ w' => w'.log = w.log ++ [.closed] ∧ w'.live = false) (fun _ _ => False) w := by
  refine Prog.wp_answered trivial fun r w₁ hsem => ⟨_, hsem.1.1, ?_⟩
  rw [hsem.1.2]
  exact ⟨rfl, rfl⟩

theorem Inv.step {e : Event} (h : Inv tr w) (hstep : Step w e w') : Inv (tr ++ [e]) w' := by
  cases e with
  | bind =>
    obtain ⟨tr', out, hrun⟩ := hstep
    rcases out with x | u
    · obtain ⟨hlog, hlive⟩ := (Prog.runs_of_wp bind_wp hrun).2 x rfl
      rw [← List.append_nil w.log] at hlog
      refine h.quiet hlog (fun a returned he => by cases he) rfl fun hlive' => ?_
      rw [List.append_nil]
      exact h.revived (hlive.symm.trans hlive')
    · have hlog := (Prog.runs_of_wp bind_wp hrun).1 u rfl
      have hsilent : Silent [.bound] := fun a returned he => by simp at he
      exact h.quiet hlog hsilent rfl fun _ => .append (by simp) (.inr (.inr (by simp)))
  | close =>
    obtain ⟨tr', out, hrun⟩ := hstep
    rcases out with x | u
    · exact ((Prog.runs_of_wp close_wp hrun).2 x rfl).elim
    · obtain ⟨hlog, hdead⟩ := (Prog.runs_of_wp close_wp hrun).1 u rfl
      have hsilent : Silent [.closed] := fun a returned he => by simp at he
      refine h.quiet hlog hsilent rfl fun hlive => ?_
      rw [hdead] at hlive
      cases hlive
  | ask a returned =>
    obtain ⟨probes, w₁, hprobed, hlive, hreached⟩ := hstep.served
    have hsilent : Silent probes := by
      intro a' returned' he
      obtain ⟨b, hb⟩ := hprobed.only _ he
      cases hb
    have hclosed : .closed ∉ probes := by
      intro he
      obtain ⟨b, hb⟩ := hprobed.only _ he
      cases hb
    have hrevived (hl : w₁.live = true) : Revived w₁.log := by
      rw [hprobed.log]
      exact .append hclosed ((hprobed.live hl).imp h.revived .inl)
    have hguarded : Guarded w₁.log := by
      rw [hprobed.log]
      exact h.guarded.append hsilent
    have hasks : asks w₁.log = asks w.log := by
      rw [hprobed.log, asks_append, asks_silent hsilent, List.append_nil]
    have hrequests : requests (tr ++ [.ask a returned]) = requests tr ++ [(a, returned)] :=
      requests_append tr _
    rcases hreached with ⟨rfl, hlog⟩ | ⟨hl, hlog⟩
    · -- The request has not reached the agent.
      refine ⟨?_, fun hl => ?_, ?_, ?_⟩
      · rw [hlog]
        exact hguarded
      · rw [hlog]
        exact hrevived (hlive.symm.trans hl)
      · rw [hlog, hasks, hrequests]
        exact h.once.trans (List.sublist_append_left _ _)
      · rw [hlog, hasks, hrequests, List.filter_append, h.returned]
        exact (List.append_nil _).symm
    · have hasked : asks w'.log = asks w.log ++ [(a, returned)] := by
        rw [hlog, asks_append, hasks]
        rfl
      refine ⟨?_, fun _ => ?_, ?_, ?_⟩
      · rw [hlog]
        exact hguarded.ask (hrevived hl) a returned
      · rw [hlog]
        exact .append (by simp) (.inl (hrevived hl))
      · rw [hasked, hrequests]
        exact h.once.append_right _
      · rw [hasked, hrequests, List.filter_append, List.filter_append, h.returned]

/-- **A session that was closed is taken up again before it is used**: in every history of a
communicator, what reaches the agent behind a `close` comes after a probe that the agent has answered
since.  No request reaches the agent twice or out of order, and those that return are just those that
the agent has answered. -/
theorem sessions_guarded {w₀ w : World} (hlive : w₀.live = false) (hlog : w₀.log = [])
    (hrun : Trace.Run Step w₀ tr w) :
    Guarded w.log ∧ (asks w.log).Sublist (requests tr) ∧
      (asks w.log).filter (·.2) = (requests tr).filter (·.2) := by
  have hstart : Inv [] w₀ := by
    refine ⟨fun l₁ a returned l₂ heq => ?_, fun hl => ?_, ?_, ?_⟩
    · rw [hlog] at heq
      exact absurd heq (by simp)
    · rw [hlive] at hl
      cases hl
    · rw [hlog]
      exact List.nil_sublist _
    · rw [hlog]
      rfl
  have hinv : Inv tr w := hrun.keeps hstart fun _ _ _ _ h hstep => h.step hstep
  exact ⟨hinv.guarded, hinv.once, hinv.returned⟩

/-- What reaches the agent of a guest that is power-cycled after a `close` and then asked again: a
probe too early, a probe that is answered, and the request. -/
def cycled : List Entry :=
  [.bound, .ask (.readFile "/etc/motd") true, .closed, .probe false, .probe true,
    .ask (.execute ["uptime"] 60000 "/") true]

/-- The communicator of such a guest. -/
theorem sessions_guarded_cycled : ∃ tr w, Trace.Run Step ⟨false, false, 0, []⟩ tr w ∧ w.log = cycled ∧
    w.clock = 2000 ∧ Guarded w.log ∧ (asks w.log).Sublist (requests tr) ∧
    (asks w.log).filter (·.2) = (requests tr).filter (·.2) := by
  let w₀ : World := ⟨false, false, 0, []⟩
  let w₁ : World := ⟨true, false, 0, [.bound]⟩
  let w₂ : World := ⟨true, true, 0, [.bound]⟩
  let w₃ : World := ⟨true, true, 0, cycled.take 2⟩
  let w₄ : World := ⟨true, false, 0, cycled.take 3⟩
  let w₅ : World := ⟨true, false, 0, cycled.take 4⟩
  let w₆ : World := ⟨true, false, 2000, cycled.take 4⟩
  let w₇ : World := ⟨true, false, 2000, cycled.take 5⟩
  let w₈ : World := ⟨true, true, 2000, cycled.take 5⟩
  let w₉ : World := ⟨true, true, 2000, cycled⟩
  have hunbound : sem .isBound w₀ (.ok false) w₀ := ⟨⟨rfl, rfl⟩, le_rfl⟩
  have hset : sem .setBound w₀ (.ok ()) w₁ := ⟨⟨rfl, rfl⟩, le_rfl⟩
  have hlive : sem (.setLive true) w₁ (.ok ()) w₂ := ⟨⟨rfl, rfl⟩, le_rfl⟩
  have hbind : Prog.Runs sem bind w₀ _ (.ok ()) w₂ :=
    .call hunbound (.call hset (.call hlive (.ret _ w₂)))
  have hbound : sem .isBound w₂ (.ok true) w₂ := ⟨⟨rfl, rfl⟩, le_rfl⟩
  have hisLive : sem .isLive w₂ (.ok true) w₂ := ⟨⟨rfl, rfl⟩, le_rfl⟩
  have hread : sem (.readFile "/etc/motd") w₂ (.ok ([72, 105] : List UInt8)) w₃ :=
    ⟨⟨rfl, fun _ h => by cases h⟩, le_rfl⟩
  have hrequest : Prog.Runs sem (readFile "/etc/motd") w₂ _ (.ok [72, 105]) w₃ :=
    .call hbound (.call hisLive (.call hread (.ret _ w₃)))
  have hdead : sem (.setLive false) w₃ (.ok ()) w₄ := ⟨⟨rfl, rfl⟩, le_rfl⟩
  have hclose : Prog.Runs sem close w₃ _ (.ok ()) w₄ := .call hdead (.ret _ w₄)
  -- The session is taken up again: two probes, the second of them two seconds later.
  have hstill : sem .isBound w₄ (.ok true) w₄ := ⟨⟨rfl, rfl⟩, le_rfl⟩
  have hclosed : sem .isLive w₄ (.ok false) w₄ := ⟨⟨rfl, rfl⟩, le_rfl⟩
  have hstart : sem .monotonic w₄ (.ok (0 : ℕ)) w₄ := ⟨⟨⟨0, rfl, le_rfl, le_rfl⟩, rfl⟩, le_rfl⟩
  have hearly : sem .probe w₄ (.error .guestAgent) w₅ :=
    ⟨⟨rfl, fun x h => by cases h; exact .inl rfl⟩, le_rfl⟩
  have hsleep : sem (.sleep backoff) w₅ (.ok ()) w₆ := ⟨⟨rfl, le_rfl, rfl⟩, Nat.zero_le _⟩
  have hlater : sem .monotonic w₆ (.ok (2000 : ℕ)) w₆ :=
    ⟨⟨⟨2000, rfl, le_rfl, le_rfl⟩, rfl⟩, le_rfl⟩
  have hprobe : sem .probe w₆ (.ok ()) w₇ := ⟨⟨rfl, fun x h => by cases h⟩, le_rfl⟩
  have hrevived : sem (.setLive true) w₇ (.ok ()) w₈ := ⟨⟨rfl, rfl⟩, le_rfl⟩
  have hexecute : sem (.execute ["uptime"] 60000 "/") w₈ (.ok ⟨0, [], []⟩) w₉ :=
    ⟨⟨rfl, fun x h => by cases h⟩, le_rfl⟩
  have hagain : Prog.Runs sem (execute ["uptime"] 60000 "/") w₄ _ (.ok ⟨0, [], []⟩) w₉ :=
    .call hstill (.call hclosed (.call hstart (.call hstart (.call hearly (.call hsleep
      (.call hlater (.call hprobe (.call hrevived (.call hexecute (.ret _ w₉))))))))))
  have hsteps : Trace.Run Step w₀ ([] ++ [.bind] ++ [.ask (.readFile "/etc/motd") true] ++ [.close] ++
      [.ask (.execute ["uptime"] 60000 "/") true]) w₉ :=
    .step (.step (.step (.step .start ⟨_, _, hbind⟩) ⟨_, _, hrequest, rfl⟩) ⟨_, _, hclose⟩)
      ⟨_, _, hagain, rfl⟩
  exact ⟨_, w₉, hsteps, rfl, rfl, sessions_guarded rfl rfl hsteps⟩

end TestRange.Native
