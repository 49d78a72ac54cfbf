/-
The guest agent of the libvirt driver.

Every request is one command to the QEMU guest agent.  A file is read and written through a
handle, which is closed whatever happens; a process is started, and asked for until it has ended.

* `execute`, `readFile`, `writeFile` — what the driver binds to a VM;
* `Answer`, `sem` — what the agent does;
* `execute_wp`, `readFile_wp`, `writeFile_wp` — what comes of the requests.
-/
import TestRange.Drivers.Guest.Machine
import TestRange.Lib.Base64
import TestRange.Lib.Poll

namespace TestRange.Guest.Lv

open Shell (Files Ended resolve)

/-! ### Commands -/

/-- What is raised: `GuestAgentError`, by what is wrong, and whatever a command raises or a reply
makes the code raise that cannot be read. -/
inductive Fault
  | execFailed (vm : String)
  | pollFailed (vm : String)
  | timedOut (argv : List String) (timeout : ℕ) (vm : String)
  | readFailed (path vm : String)
  | writeFailed (path vm : String)
  | raw
  /-- A loop has used up its fuel. -/
  | spins

def Fault.IsGuestAgentError : Fault → Prop
  | .raw => False
  | .spins => False
  | _ => True

inductive FileMode
  | r
  | w

inductive Op
  | exec (path : String) (arg : List String)
  | execStatus (pid : ℕ)
  | fileOpen (path : String) (mode : FileMode)
  | fileRead (handle count : ℕ)
  | fileWrite (handle : ℕ) (bufB64 : Shell.Bytes)
  | fileClose (handle : ℕ)
  | monotonic
  | sleep (ms : ℕ)

structure Status where
  exited : Bool
  exitcode : Option ℤ
  outData : Option Shell.Bytes
  errData : Option Shell.Bytes

structure Chunk where
  bufB64 : Option Shell.Bytes
  eof : Bool

/-- A reply has a `return` member, or none. -/
abbrev sig : Sig where
  Op := Op
  Res
    | .exec _ _ => Option ℕ
    | .execStatus _ => Option Status
    | .fileOpen _ _ => ℕ
    | .fileRead _ _ => Option Chunk
    | .monotonic => ℕ
    | _ => Unit

/-! ### The requests -/

abbrev Act := Prog sig Fault

def op (o : Op) : Act (sig.Res o) := Prog.perform (S := sig) o

def Fault.isSpin : Fault → Bool
  | .spins => true
  | _ => false

/-- `except Exception as e: raise GuestAgentError(…) from e` -/
abbrev wrapped {α : Type} (p : Act α) (e : Fault) : Act α := p.reraise Fault.isSpin e

/-- The members of a reply. -/
def need {α : Type} : Option α → Act α
  | some a => pure a
  | none => throw .raw

/-- Decode a base64 field. -/
def b64 : Option Shell.Bytes → Act Shell.Bytes
  | none => pure []
  | some [] => pure []
  | some value =>
    match Base64.a2b value with
    | .ok bytes => pure bytes
    | .error _ => throw .raw

def pollInterval : ℕ := 250

def readChunk : ℕ := 256 * 1024

def writeChunk : ℕ := 32 * 1024

def launch (argv : List String) : Act ℕ :=
  match argv with
  | [] => throw .raw
  | path :: arg => do need (← op (.exec path arg))

/-- The result of a process, when the status says that it has exited. -/
def Status.result (status : Status) : Act (Option ExecResult) := do
  if status.exited then
    let stdout ← b64 status.outData
    let stderr ← b64 status.errData
    pure (some ⟨status.exitcode.getD (-1), stdout, stderr⟩)
  else pure none

def askStatus (pid : ℕ) : Act (Option ExecResult) := do
  let status ← need (← op (.execStatus pid))
  status.result

/-- `make_execute`, where `timeout` is in milliseconds. -/
def execute (vm : String) (argv : List String) (timeout : ℕ) : Act ExecResult := do
  let start ← op .monotonic
  let pid ← wrapped (launch argv) (.execFailed vm)
  Prog.poll (wrapped (askStatus pid) (.pollFailed vm)) (op .monotonic) (op (.sleep pollInterval))
    (.timedOut argv timeout vm) .spins (start + timeout) (timeout / pollInterval + 2)

/-- Read chunks until the end of the file. -/
def readLoop (handle : ℕ) : ℕ → List Shell.Bytes → Act (List Shell.Bytes)
  | 0, _ => throw .spins
  | fuel + 1, chunks => do
    let res ← need (← op (.fileRead handle readChunk))
    let chunk ← b64 res.bufB64
    if res.eof then pure (chunks ++ [chunk]) else readLoop handle fuel (chunks ++ [chunk])

/-- `make_read_file`; its loop ends with the file, however long that is. -/
def readFile (fuel : ℕ) (vm path : String) : Act Shell.Bytes := do
  let chunks ← wrapped (do
      let handle ← op (.fileOpen path .r)
      Prog.tryFinally (readLoop handle fuel []) (op (.fileClose handle)))
    (.readFailed path vm)
  pure chunks.flatten

/-- `make_write_file` -/
def writeFile (vm path : String) (data : Shell.Bytes) : Act Unit :=
  wrapped (do
      let handle ← op (.fileOpen path .w)
      Prog.tryFinally
        ((slices writeChunk data).forM fun chunk => op (.fileWrite handle (Base64.encode chunk)))
        (op (.fileClose handle)))
    (.writeFailed path vm)

/-! ### The agent -/

/-- An open file: what has been read of it, or that it is written to. -/
inductive Handle
  | reading (path : String) (pos : ℕ)
  | writing (path : String)

structure World where
  machine : Machine
  handles : ℕ → Option Handle
  /-- Every handle that the agent was asked to close. -/
  closes : Set ℕ
  clock : ℕ

/-- A field of a reply, left out when there is nothing in it. -/
def field (bytes : Shell.Bytes) : Option Shell.Bytes := if bytes = [] then none else some (Base64.encode bytes)

def statusOf (A : Agent) : Option Ended → Status
  | none => ⟨false, none, none, none⟩
  | some e =>
    ⟨true, some e.status, field (e.stdout.take A.capture), field (e.stderr.take A.capture)⟩

/-- What is in a reply. -/
def payload {α : Type} : Except Fault (Option α) → Option α
  | .ok a => a
  | .error _ => none

/-- What a command does, at its time. -/
def Answer (A : Agent) (T : Trust) : (o : Op) → World → Except Fault (sig.Res o) → World → Prop
  | .exec path arg, w, r, w' =>
    Spawned T (path :: arg) A.dir w.machine (payload r) w'.machine ∧ w'.handles = w.handles ∧
      w'.closes = w.closes
  | .execStatus pid, w, r, w' =>
    (match payload r with
      | some status => ∃ said, Polled T pid w.machine said ∧ status = statusOf A said
      | none => T.raises) ∧
      w'.machine = w.machine ∧ w'.handles = w.handles ∧ w'.closes = w.closes
  | .fileOpen path .r, w, r, w' =>
    (match r.toOption with
      | some h => w.handles h = none ∧ (w.machine.files (resolve A.dir path)).isSome ∧
          w'.handles = Function.update w.handles h (some (.reading (resolve A.dir path) 0))
      | none => (T.raises ∨ w.machine.files (resolve A.dir path) = none) ∧ w'.handles = w.handles) ∧
      w'.machine = w.machine ∧ w'.closes = w.closes
  | .fileOpen path .w, w, r, w' =>
    (match r.toOption with
      | some h => w.handles h = none ∧
          w'.handles = Function.update w.handles h (some (.writing (resolve A.dir path))) ∧
          w'.machine.files = Function.update w.machine.files (resolve A.dir path) (some [])
      | none => (T.raises ∨ A.host.writable (resolve A.dir path) w.machine.files = false) ∧
          w'.handles = w.handles ∧
          ∀ k, k ≠ resolve A.dir path → w'.machine.files k = w.machine.files k) ∧
      w'.machine.processes = w.machine.processes ∧ w'.closes = w.closes
  | .fileRead h count, w, r, w' =>
    (match payload r with
      | some chunk => ∃ path pos n, w.handles h = some (.reading path pos) ∧ n ≤ count ∧
          w'.handles = Function.update w.handles h (some (.reading path (pos + n))) ∧
          ∀ content, w.machine.files path = some content →
            chunk.bufB64 = field ((content.drop pos).take n) ∧
            if chunk.eof then content.length ≤ pos + n else 0 < n ∧ pos + n ≤ content.length
      | none => T.raises ∧ ∀ k, k ≠ h → w'.handles k = w.handles k) ∧
      w'.machine = w.machine ∧ w'.closes = w.closes
  | .fileWrite h buf, w, r, w' =>
    (match r.toOption with
      | some _ => ∃ path bytes, w.handles h = some (.writing path) ∧ buf = Base64.encode bytes ∧
          SameBut {path} w.machine.files w'.machine.files ∧
          ∀ content, w.machine.files path = some content →
            w'.machine.files path = some (content ++ bytes)
      | none => T.raises ∧
          ∀ k, w.handles h ≠ some (.writing k) → w'.machine.files k = w.machine.files k) ∧
      w'.machine.processes = w.machine.processes ∧ w'.handles = w.handles ∧ w'.closes = w.closes
  | .fileClose h, w, r, w' =>
    (match r.toOption with
      | some _ => w'.handles = Function.update w.handles h none
      | none => T.raises ∧ ∀ k, k ≠ h → w'.handles k = w.handles k) ∧
      w'.machine = w.machine ∧ w'.closes = insert h w.closes
  | .monotonic, w, r, w' =>
    (∃ t, r = .ok t ∧ w.clock ≤ t ∧ t ≤ w'.clock) ∧ w'.machine = w.machine ∧
      w'.handles = w.handles ∧ w'.closes = w.closes
  | .sleep ms, w, r, w' =>
    r = .ok () ∧ w.clock + ms ≤ w'.clock ∧ w'.machine = w.machine ∧ w'.handles = w.handles ∧
      w'.closes = w.closes

/-- Between two commands processes may end, and a command takes its time. -/
def sem (A : Agent) (T : Trust) : Prog.Sem sig Fault World := fun o w r w' =>
  (∃ m, w.machine.Settles A.host m ∧ Answer A T o { w with machine := m } r w') ∧
    w.clock ≤ w'.clock ∧ ∀ e, r = .error e → e = .raw

/-! ### What comes of the requests -/

section Laws

variable {A : Agent} {T : Trust} {P : Kind} {K : Set String} {vm path : String} {argv : List String}
  {data : Shell.Bytes} {timeout pid h : ℕ} {w w' : World}

/-- The clock is read while processes may end. -/
theorem monotonic_wp {R : World → Prop} {E : Fault → World → Prop}
    (hR : ∀ w', w.machine.Settles A.host w'.machine → w'.handles = w.handles → R w') :
    (op .monotonic).wp (.ofSem (sem A T) fun _ => True)
      (fun t w' => R w' ∧ w.clock ≤ t ∧ t ≤ w'.clock) E w := by
  refine Prog.wp_answered trivial fun r w' hsem => ?_
  obtain ⟨⟨m, hsettles, ⟨t, rfl, hlo, hhi⟩, hm, hh, -⟩, -, -⟩ := hsem
  exact ⟨t, rfl, hR w' (by rw [hm]; exact hsettles) hh, hlo, hhi⟩

theorem sleep_wp {ms : ℕ} {R : World → Prop} {E : Fault → World → Prop}
    (hR : ∀ w', w.machine.Settles A.host w'.machine → w'.handles = w.handles → R w') :
    (op (.sleep ms)).wp (.ofSem (sem A T) fun _ => True)
      (fun _ w' => R w' ∧ w.clock + ms ≤ w'.clock) E w := by
  refine Prog.wp_answered trivial fun r w' hsem => ?_
  obtain ⟨⟨m, hsettles, rfl, hclock, hm, hh, -⟩, -, -⟩ := hsem
  exact ⟨_, rfl, hR w' (by rw [hm]; exact hsettles) hh, hclock⟩

@[simp] theorem b64_field (bytes : Shell.Bytes) : b64 (field bytes) = pure bytes := by
  unfold field
  split_ifs with hempty
  · rw [hempty]
    rfl
  · have hne : Base64.encode bytes ≠ [] := by
      intro hnil
      exact hempty (Base64.encode_injective (hnil.trans rfl))
    unfold b64
    split
    · cases ‹some _ = none›
    · exact absurd (Option.some.inj ‹_›) hne
    · rename_i hvalue
      cases hvalue
      rw [Base64.a2b_encode]

section Execute

variable {before : Files → Prop} {after : Ended → Files → Prop}

/-- A process of the agent, while it is waited for. -/
def Awaited (A : Agent) (P : Kind) (argv : List String) (before : Files → Prop)
    (after : Ended → Files → Prop) (w : World) (pid : ℕ) (w' : World) : Prop :=
  Beside P argv A.dir before after pid w'.machine ∧ w'.handles = w.handles

/-- The process was started at most once, and nothing else was. -/
def Launched (A : Agent) (P : Kind) (argv : List String) (before : Files → Prop)
    (after : Ended → Files → Prop) (w w' : World) : Prop :=
  w'.machine.Launched P argv A.dir before after ∧ w'.handles = w.handles

theorem Awaited.launched (hw : Awaited A P argv before after w pid w') :
    Launched A P argv before after w w' := ⟨.inr ⟨pid, hw.1⟩, hw.2⟩

theorem launch_wp {w₁ : World} (O : Outlook A.host P argv A.dir before after)
    (honly : w₁.machine.Only P) (hbefore : before w₁.machine.files) (hh : w₁.handles = w.handles) :
    (launch argv).wp (.ofSem (sem A T) fun _ => True)
      (fun pid w' => Awaited A P argv before after w pid w' ∧ w₁.clock ≤ w'.clock)
      (fun x w' => x.isSpin = false ∧ (argv = [] ∨ T.raises) ∧ Launched A P argv before after w w')
      w₁ := by
  cases argv with
  | nil => exact ⟨rfl, .inl rfl, .inl ⟨honly, hbefore⟩, hh⟩
  | cons name arg =>
    show (Prog.bind (op (.exec name arg)) need).wp _ _ _ _
    rw [Prog.wp_bind]
    refine Prog.wp_perform.mpr ⟨trivial, fun pid? w₂ hsem => ?_, fun x w₂ hsem => ?_⟩
    · obtain ⟨⟨m, hsettles, hspawned, hh₂, -⟩, hclock, -⟩ := hsem
      obtain ⟨hm, hfiles⟩ := honly.settles O.before hbefore hsettles
      cases pid? with
      | some pid => exact ⟨⟨Machine.With.beside hspawned hm hfiles, hh₂.trans hh⟩, hclock⟩
      | none =>
        obtain ⟨hraises, hlaunched⟩ := Spawned.launched hspawned hm hfiles
        exact ⟨rfl, .inr hraises, hlaunched, hh₂.trans hh⟩
    · obtain ⟨⟨m, hsettles, hspawned, hh₂, -⟩, -, hraw⟩ := hsem
      obtain ⟨hm, hfiles⟩ := honly.settles O.before hbefore hsettles
      obtain ⟨hraises, hlaunched⟩ := Spawned.launched hspawned hm hfiles
      rw [hraw x rfl]
      exact ⟨rfl, .inr hraises, hlaunched, hh₂.trans hh⟩

theorem result_status (e : Ended) : (statusOf A (some e)).result = pure (some (A.report e)) := by
  show (b64 (field (e.stdout.take A.capture))).bind _ = _
  rw [b64_field]
  show (b64 (field (e.stderr.take A.capture))).bind _ = _
  rw [b64_field]
  rfl

/-- What is reported of a process that has ended besides others. -/
def Reported (A : Agent) (P : Kind) (after : Ended → Files → Prop) (w : World) (res : ExecResult)
    (w' : World) : Prop :=
  w'.machine.Only P ∧ w'.handles = w.handles ∧ ∃ e, after e w'.machine.files ∧ res = A.report e

theorem Awaited.settles {w₁ : World} (O : Outlook A.host P argv A.dir before after)
    (hw : Awaited A P argv before after w pid w₁) (w₂ : World)
    (hsettles : w₁.machine.Settles A.host w₂.machine) (hh : w₂.handles = w₁.handles) :
    Awaited A P argv before after w pid w₂ := ⟨hw.1.settles O hsettles, hh.trans hw.2⟩

/-- Asked for, a process has ended, or it is still waited for. -/
theorem askStatus_wp {w₁ : World} (O : Outlook A.host P argv A.dir before after)
    (hw : Awaited A P argv before after w pid w₁) :
    (askStatus pid).wp (.ofSem (sem A T) fun _ => True)
      (fun res w' => match res with
        | some res => Reported A P after w res w'
        | none => (T.lags ∧ Awaited A P argv before after w pid w') ∧ w₁.clock ≤ w'.clock)
      (fun x w' => x.isSpin = false ∧ T.raises ∧ Launched A P argv before after w w') w₁ := by
  show (Prog.bind (op (.execStatus pid)) _).wp _ _ _ _
  rw [Prog.wp_bind]
  refine Prog.wp_perform.mpr ⟨trivial, fun status? w₂ hsem => ?_, fun x w₂ hsem => ?_⟩
  · obtain ⟨⟨m, hsettles, hsaid, hm, hh, -⟩, hclock, -⟩ := hsem
    have hw₂ := hw.settles O w₂ (by rw [hm]; exact hsettles) hh
    cases status? with
    | none => exact ⟨rfl, hsaid, hw₂.launched⟩
    | some status =>
      obtain ⟨said, hpolled, rfl⟩ := hsaid
      cases said with
      | none => exact ⟨⟨hpolled, hw₂⟩, hclock⟩
      | some e =>
        rw [← hm] at hpolled
        obtain ⟨honly, hafter⟩ := hw₂.1.ended hpolled
        show (Status.result (statusOf A (some e))).wp _ _ _ _
        rw [result_status]
        exact ⟨honly, hw₂.2, e, hafter, rfl⟩
  · obtain ⟨⟨m, hsettles, hraises, hm, hh, -⟩, -, hraw⟩ := hsem
    rw [hraw x rfl]
    exact ⟨rfl, hraises, (hw.settles O w₂ (by rw [hm]; exact hsettles) hh).launched⟩

/-- A command in the guest, besides processes of a kind. -/
theorem executeBeside_wp (O : Outlook A.host P argv A.dir before after) (honly : w.machine.Only P)
    (hbefore : before w.machine.files) :
    (execute vm argv timeout).wp (.ofSem (sem A T) fun _ => True) (Reported A P after w)
      (fun x w' => x.IsGuestAgentError ∧ (argv = [] ∨ T.raises ∨ T.lags) ∧
        Launched A P argv before after w w') w := by
  unfold execute
  refine Prog.wp_seq (monotonic_wp (R := fun w₁ => (w₁.machine.Only P ∧ before w₁.machine.files) ∧
    w₁.handles = w.handles) fun w₁ hsettles hh => ⟨honly.settles O.before hbefore hsettles, hh⟩) ?_
  rintro start w₁ ⟨⟨⟨honly₁, hbefore₁⟩, hh⟩, -, hstart⟩
  refine Prog.wp_seq (P := fun pid w₂ => Awaited A P argv before after w pid w₂ ∧ start ≤ w₂.clock)
    (Prog.wp_reraise ?_) ?_
  · refine Prog.wp_mono (fun pid w₂ h => ⟨h.1, hstart.trans h.2⟩) (fun x w₂ h => ?_)
      (launch_wp O honly₁ hbefore₁ hh)
    exact ⟨h.1, trivial, h.2.1.imp_right .inl, h.2.2⟩
  rintro pid w₂ ⟨hawaited, hstart⟩
  -- The process is waited for, until the deadline.
  refine Prog.wp_await (I := Awaited A P argv before after w pid) (p := T.lags) (fun w₃ hw => ?_)
    (fun w₃ hw => monotonic_wp (hw.settles O)) (fun w₃ hw => sleep_wp (hw.settles O))
    (fun w₃ hlags hw => ⟨trivial, .inr (.inr hlags), hw.launched⟩) hawaited
    (Prog.deadline_lt (by decide) hstart)
  refine Prog.wp_reraise (Prog.wp_mono (fun res w₄ h => ?_) (fun x w₄ h => ?_) (askStatus_wp O hw))
  · cases res with
    | some res => exact h
    | none => exact h
  · exact ⟨h.1, trivial, .inr (.inl h.2.1), h.2.2⟩

end Execute

/-- **A command that is executed besides others** changes no files but those that it may change; and
when it returns nothing of it is left to run. -/
theorem execute_keeps {F : Set String} (hP : P.Keeps A.host K) (hargv : Harmless A.host F argv A.dir)
    (honly : w.machine.Only P) :
    (execute vm argv timeout).wp (.ofSem (sem A T) fun _ => True)
      (fun _ w' => Steady P (K ∪ F) w.machine w'.machine)
      (fun _ w' => Steady (fun a d => P a d ∨ Harmless A.host F a d) (K ∪ F) w.machine w'.machine)
      w := by
  refine Prog.wp_mono (fun res w' h => ?_) (fun x w' h => ?_)
    (executeBeside_wp (outlook_sameBut hP hargv w.machine.files) honly (.refl _ _))
  · obtain ⟨honly', -, e, hfiles, -⟩ := h
    exact ⟨honly', hfiles⟩
  · obtain ⟨hkind, hfiles⟩ := h.2.2.1.steady
    refine ⟨hkind.mono fun a d h => h.imp_right ?_, hfiles⟩
    rintro ⟨rfl, rfl⟩
    exact hargv

/-- **A command that is executed in the guest**: it has run once, and is reported as it ended; or it
has been started at most once, and a `GuestAgentError` is raised. -/
theorem execute_wp (hquiet : w.machine.Quiet) :
    (execute vm argv timeout).wp (.ofSem (sem A T) fun _ => True)
      (fun res w' => w'.machine.Quiet ∧ w'.handles = w.handles ∧
        ∃ e, Ends A.host argv A.dir w.machine.files e w'.machine.files ∧ res = A.report e)
      (fun x w' => x.IsGuestAgentError ∧ (argv = [] ∨ T.raises ∨ T.lags) ∧
        ((w'.machine.Quiet ∧ w'.machine.files = w.machine.files) ∨
          ∃ pid, Doing A.host argv A.dir w.machine.files pid w'.machine) ∧ w'.handles = w.handles)
      w :=
  executeBeside_wp (outlook_alone A.host argv A.dir w.machine.files) hquiet rfl

/-! ### Files -/

/-- Every handle is as it was, or it is new and the agent was asked to close it. -/
def Closed (w w' : World) : Prop :=
  ∀ k, w'.handles k = w.handles k ∨ w.handles k = none ∧ k ∈ w'.closes

/-- The handles but for a new one. -/
structure Opened (w : World) (h : ℕ) (w' : World) : Prop where
  fresh : w.handles h = none
  others : ∀ k, k ≠ h → w'.handles k = w.handles k

/-- A new handle is closed, or closing it fails. -/
theorem close_wp {F : Set String} {w₁ : World} (hP : P.Keeps A.host K) (hK : K ⊆ F)
    (hsteady : Steady P F w.machine w₁.machine) (hopened : Opened w h w₁) :
    (op (.fileClose h)).wp (.ofSem (sem A T) fun _ => True)
      (fun _ w' => Steady P F w.machine w'.machine ∧ w'.handles = w.handles ∧
        Steady P K w₁.machine w'.machine)
      (fun x w' => x.isSpin = false ∧ T.raises ∧ Steady P F w.machine w'.machine ∧ Closed w w') w₁ := by
  refine Prog.wp_perform.mpr ⟨trivial, fun _ w₂ hsem => ?_, fun x w₂ hsem => ?_⟩
  · obtain ⟨⟨m, hsettles, hhandles, hm, -⟩, -, -⟩ := hsem
    refine ⟨?_, funext fun k => ?_, ?_⟩
    · rw [hm]
      exact hsteady.settles hP hK hsettles
    · rw [show w₂.handles = Function.update w₁.handles h none from hhandles]
      by_cases hk : k = h
      · rw [hk, Function.update_self, hopened.fresh]
      · rw [Function.update_of_ne hk, hopened.others k hk]
    · rw [hm]
      exact (Steady.start hsteady.only).settles hP subset_rfl hsettles
  · obtain ⟨⟨m, hsettles, ⟨hraises, hhandles⟩, hm, hcloses⟩, -, hraw⟩ := hsem
    rw [hraw x rfl]
    refine ⟨rfl, hraises, by rw [hm]; exact hsteady.settles hP hK hsettles, fun k => ?_⟩
    by_cases hk : k = h
    · subst hk
      exact .inr ⟨hopened.fresh, by rw [hcloses]; exact .inl rfl⟩
    · exact .inl ((hhandles k hk).trans (hopened.others k hk))

/-- What is read of a file, from a position on; with too little fuel the loop may not get to its end. -/
theorem readLoop_wp {w₁ : World} {content : Shell.Bytes} (pos fuel : ℕ) (chunks : List Shell.Bytes)
    (hP : P.Keeps A.host K) (hapart : path ∉ K) (hcontent : w.machine.files path = some content)
    (hsteady : Steady P K w.machine w₁.machine) (hopened : Opened w h w₁)
    (hhandle : w₁.handles h = some (.reading path pos)) (hchunks : chunks.flatten = content.take pos) :
    (readLoop h fuel chunks).wp (.ofSem (sem A T) fun _ => True)
      (fun chunks w' => chunks.flatten = content ∧ Steady P K w.machine w'.machine ∧ Opened w h w')
      (fun x w' => (if x.isSpin then fuel ≤ content.length - pos else T.raises) ∧
        Steady P K w.machine w'.machine ∧ Opened w h w') w₁ := by
  induction fuel generalizing w₁ pos chunks with
  | zero => exact ⟨Nat.zero_le _, hsteady, hopened⟩
  | succ fuel ih =>
    rw [readLoop]
    show (Prog.bind (op (.fileRead h readChunk)) _).wp _ _ _ _
    rw [Prog.wp_bind]
    refine Prog.wp_perform.mpr ⟨trivial, fun chunk? w₂ hsem => ?_, fun x w₂ hsem => ?_⟩
    · obtain ⟨⟨m, hsettles, hread, hm, -⟩, -, -⟩ := hsem
      have hsteady₂ : Steady P K w.machine w₂.machine := by
        rw [hm]
        exact hsteady.settles hP subset_rfl hsettles
      cases chunk? with
      | none =>
        refine ⟨hread.1, hsteady₂, hopened.fresh, fun k hk => ?_⟩
        exact (hread.2 k hk).trans (hopened.others k hk)
      | some chunk =>
        obtain ⟨path', pos', n, hreading, -, hhandles, hfile⟩ := hread
        -- It is this file, at this position.
        rw [hhandle] at hreading
        cases hreading
        obtain ⟨hbuf, hend⟩ := hfile content (by
          rw [← hm, hsteady₂.files path hapart]
          exact hcontent)
        have hopened₂ : Opened w h w₂ := by
          refine ⟨hopened.fresh, fun k hk => ?_⟩
          rw [hhandles, Function.update_of_ne hk]
          exact hopened.others k hk
        have hmore : (chunks ++ [(content.drop pos).take n]).flatten = content.take (pos + n) := by
          rw [List.flatten_append, hchunks, List.flatten_singleton, List.take_add]
        show (Prog.bind (b64 chunk.bufB64) _).wp _ _ _ _
        rw [hbuf, b64_field, Prog.pure_eq_ret, Prog.bind_ret]
        cases heof : chunk.eof with
        | true =>
          rw [heof, if_pos rfl] at hend
          rw [if_pos rfl]
          refine ⟨?_, hsteady₂, hopened₂⟩
          rw [hmore, List.take_of_length_le hend]
        | false =>
          rw [heof, if_neg (by decide)] at hend
          rw [if_neg (by decide)]
          refine Prog.wp_mono (fun _ _ h => h) (fun x w₃ h => ⟨?_, h.2⟩)
            (ih (pos + n) _ hsteady₂ hopened₂ (by rw [hhandles, Function.update_self]) hmore)
          have hwhy := h.1
          split_ifs at hwhy ⊢
          · omega
          · exact hwhy
    · obtain ⟨⟨m, hsettles, hread, hm, -⟩, -, hraw⟩ := hsem
      rw [hraw x rfl]
      refine ⟨hread.1, by rw [hm]; exact hsteady.settles hP subset_rfl hsettles, hopened.fresh,
        fun k hk => ?_⟩
      exact (hread.2 k hk).trans (hopened.others k hk)

/-- Why a read fails. -/
def ReadFault (A : Agent) (T : Trust) (path : String) (fuel : ℕ) (files : Files) (x : Fault) : Prop :=
  if x.isSpin then ∃ content, files (resolve A.dir path) = some content ∧ fuel ≤ content.length
  else x.IsGuestAgentError ∧ (T.raises ∨ files (resolve A.dir path) = none)

/-- **A file that is read**, which the processes keep off: all of it, however the agent cuts it into
chunks; nothing is changed, and the handle is closed. -/
theorem readFile_wp {fuel : ℕ} (hP : P.Keeps A.host K) (hapart : resolve A.dir path ∉ K)
    (honly : w.machine.Only P) :
    (readFile fuel vm path).wp (.ofSem (sem A T) fun _ => True)
      (fun data w' => w.machine.files (resolve A.dir path) = some data ∧
        Steady P K w.machine w'.machine ∧ w'.handles = w.handles)
      (fun x w' => ReadFault A T path fuel w.machine.files x ∧
        Steady P K w.machine w'.machine ∧ Closed w w') w := by
  unfold readFile
  refine Prog.wp_seq (P := fun chunks w' =>
    w.machine.files (resolve A.dir path) = some chunks.flatten ∧ Steady P K w.machine w'.machine ∧
      w'.handles = w.handles) (Prog.wp_reraise_of ?_) fun chunks w' hread => by exact hread
  show (Prog.bind (op (.fileOpen path .r)) _).wp _ _ _ _
  rw [Prog.wp_bind]
  refine Prog.wp_perform.mpr ⟨trivial, fun h w₁ hsem => ?_, fun x w₁ hsem => ?_⟩
  · obtain ⟨⟨m, hsettles, ⟨hfresh, hsome, hhandles⟩, hm, -⟩, -, -⟩ := hsem
    have hsteady : Steady P K w.machine w₁.machine := by
      rw [hm]
      exact (Steady.start honly).settles hP subset_rfl hsettles
    obtain ⟨content, hcontent⟩ := Option.isSome_iff_exists.mp hsome
    rw [← hm, hsteady.files _ hapart] at hcontent
    have hopened : Opened w h w₁ := by
      refine ⟨hfresh, fun k hk => ?_⟩
      rw [show w₁.handles = _ from hhandles, Function.update_of_ne hk]
    have hfailed (hraises : T.raises) {w₂ : World} (hsteady₂ : Steady P K w.machine w₂.machine)
        (hclosed : Closed w w₂) {x : Fault} (hx : x.isSpin = false) :
        ReadFault A T path fuel w.machine.files (if x.isSpin then x else .readFailed path vm) ∧
          Steady P K w.machine w₂.machine ∧ Closed w w₂ := by
      rw [hx, if_neg (by decide)]
      exact ⟨⟨trivial, .inl hraises⟩, hsteady₂, hclosed⟩
    rw [Prog.wp_tryFinally]
    refine Prog.wp_mono (fun chunks w₂ hread => ?_) (fun x w₂ hread => ?_)
      (readLoop_wp 0 fuel [] hP hapart hcontent hsteady hopened
        (by rw [show w₁.handles = _ from hhandles, Function.update_self]) rfl)
    · obtain ⟨hall, hsteady₂, hopened₂⟩ := hread
      refine Prog.wp_mono (fun _ w₃ hclose => ?_) (fun x w₃ hclose => ?_)
        (close_wp hP subset_rfl hsteady₂ hopened₂)
      · exact ⟨by rw [hall, hcontent], hclose.1, hclose.2.1⟩
      · exact hfailed hclose.2.1 hclose.2.2.1 hclose.2.2.2 hclose.1
    · obtain ⟨hwhy, hsteady₂, hopened₂⟩ := hread
      refine Prog.wp_mono (fun _ w₃ hclose => ?_) (fun x' w₃ hclose => ?_)
        (close_wp hP subset_rfl hsteady₂ hopened₂)
      · have hclosed : Closed w w₃ := fun k => .inl (by rw [hclose.2.1])
        cases hspin : x.isSpin with
        | true =>
          rw [hspin, if_pos rfl] at hwhy
          rw [if_pos rfl]
          refine ⟨?_, hclose.1, hclosed⟩
          rw [ReadFault, hspin, if_pos rfl]
          exact ⟨content, hcontent, by omega⟩
        | false =>
          rw [hspin, if_neg (by decide)] at hwhy
          have hfail := hfailed hwhy hclose.1 hclosed hspin
          rwa [hspin] at hfail
      · exact hfailed hclose.2.1 hclose.2.2.1 hclose.2.2.2 hclose.1
  · obtain ⟨⟨m, hsettles, ⟨hwhy, hhandles⟩, hm, -⟩, -, hraw⟩ := hsem
    have hsteady : Steady P K w.machine m := (Steady.start honly).settles hP subset_rfl hsettles
    rw [hraw x rfl, if_neg (by decide)]
    refine ⟨⟨trivial, hwhy.imp_right fun hnone => ?_⟩, by rw [hm]; exact hsteady,
      fun k => .inl (by rw [hhandles])⟩
    rw [← hsteady.files _ hapart]
    exact hnone

/-- The commands that change no file; the others may change any. -/
def foot : Op → Set String
  | .exec _ _ => Set.univ
  | .fileOpen _ .w => Set.univ
  | .fileWrite _ _ => Set.univ
  | _ => ∅

theorem steady_step {w₁ : World} {o : Op} {r : Except Fault (sig.Res o)} (hP : P.Keeps A.host K)
    (hfoot : foot o ⊆ ∅) (hsteady : Steady P K w.machine w₁.machine) (hsem : sem A T o w₁ r w') :
    Steady P K w.machine w'.machine := by
  obtain ⟨⟨m, hsettles, hanswer⟩, -, -⟩ := hsem
  have hm := hsteady.settles hP subset_rfl hsettles
  have hsame (heq : w'.machine = m) : Steady P K w.machine w'.machine := by
    rw [heq]
    exact hm
  cases o with
  | exec path arg => exact (hfoot (Set.mem_univ "")).elim
  | execStatus pid => exact hsame hanswer.2.1
  | fileOpen path mode =>
    cases mode with
    | r => exact hsame hanswer.2.1
    | w => exact (hfoot (Set.mem_univ "")).elim
  | fileRead h count => exact hsame hanswer.2.1
  | fileWrite h buf => exact (hfoot (Set.mem_univ "")).elim
  | fileClose h => exact hsame hanswer.2.1
  | monotonic => exact hsame hanswer.2.1
  | sleep ms => exact hsame hanswer.2.2.1

theorem within_b64 (value : Option Shell.Bytes) : (b64 value).Within foot ∅ := by
  unfold b64
  split
  · trivial
  · trivial
  · split <;> trivial

theorem within_need {α : Type} (a : Option α) : (need a).Within foot ∅ := by
  cases a <;> trivial

theorem within_readLoop (h fuel : ℕ) (chunks : List Shell.Bytes) :
    (readLoop h fuel chunks).Within foot ∅ := by
  induction fuel generalizing chunks with
  | zero => trivial
  | succ fuel ih =>
    rw [readLoop]
    refine .seq (.perform subset_rfl) fun chunk? => .seq (within_need _) fun chunk => ?_
    refine .seq (within_b64 _) fun bytes => ?_
    split_ifs
    · trivial
    · exact ih _

/-- Reading changes nothing, whatever comes of it. -/
theorem readFile_keeps (fuel : ℕ) (vm path : String) (hP : P.Keeps A.host K)
    (honly : w.machine.Only P) :
    (readFile fuel vm path).wp (.ofSem (sem A T) fun _ => True)
      (fun _ w' => Steady P K w.machine w'.machine)
      (fun _ w' => Steady P K w.machine w'.machine) w := by
  have hwithin : (readFile fuel vm path).Within foot ∅ := by
    refine .seq (.tryCatch (.seq (.perform subset_rfl) fun h => ?_) fun x => ?_) fun _ => trivial
    · exact .tryFinally (within_readLoop h fuel []) (.perform subset_rfl)
    · split_ifs <;> trivial
  exact hwithin.wp (G := .ofSem (sem A T) fun _ => True)
    (I := fun w' => Steady P K w.machine w'.machine) (fun _ _ _ _ => trivial)
    (fun o l r l' hfoot hl hsem => steady_step hP hfoot hl hsem) (.start honly)

/-- The file that is written to, with what is in it so far if the processes keep off it. -/
structure Writing (P : Kind) (K : Set String) (w : World) (k : String) (h : ℕ) (written : Shell.Bytes)
    (w' : World) : Prop where
  steady : Steady P (K ∪ {k}) w.machine w'.machine
  file : k ∉ K → w'.machine.files k = some written
  fresh : w.handles h = none
  handles : w'.handles = Function.update w.handles h (some (.writing k))

theorem Writing.opened {k : String} {written : Shell.Bytes} (hw : Writing P K w k h written w') :
    Opened w h w' := by
  refine ⟨hw.fresh, fun j hj => ?_⟩
  rw [hw.handles, Function.update_of_ne hj]

/-- A piece is written behind the others. -/
theorem fileWrite_wp {w₁ : World} {k : String} {written : Shell.Bytes} (piece : Shell.Bytes)
    (hP : P.Keeps A.host K) (hw : Writing P K w k h written w₁) :
    (op (.fileWrite h (Base64.encode piece))).wp (.ofSem (sem A T) fun _ => True)
      (fun _ w' => Writing P K w k h (written ++ piece) w')
      (fun x w' => x.isSpin = false ∧ T.raises ∧ Steady P (K ∪ {k}) w.machine w'.machine ∧
        Opened w h w') w₁ := by
  refine Prog.wp_perform.mpr ⟨trivial, fun _ w₂ hsem => ?_, fun x w₂ hsem => ?_⟩
  · obtain ⟨⟨m, hsettles, ⟨k', bytes, hhandle, hbuf, hothers, hfile⟩, hprocesses, hhandles, -⟩, -, -⟩ :=
      hsem
    have hm := hw.steady.settles hP Set.subset_union_left hsettles
    rw [show ({ w₁ with machine := m } : World).handles = w₁.handles from rfl, hw.handles,
      Function.update_self] at hhandle
    cases hhandle
    obtain rfl := Base64.encode_injective hbuf
    refine ⟨hm.change hprocesses (hothers.mono Set.subset_union_right), fun hk => ?_, hw.fresh,
      hhandles.trans hw.handles⟩
    exact hfile _ ((hw.steady.only.settles (hP.file hk _) (hw.file hk) hsettles).2)
  · obtain ⟨⟨m, hsettles, ⟨hraises, hfiles⟩, hprocesses, hhandles, -⟩, -, hraw⟩ := hsem
    have hm := hw.steady.settles hP Set.subset_union_left hsettles
    rw [hraw x rfl]
    refine ⟨rfl, hraises, hm.change hprocesses fun j hj => hfiles j ?_, hw.fresh, fun j hj => ?_⟩
    · rw [show ({ w₁ with machine := m } : World).handles = w₁.handles from rfl, hw.handles,
        Function.update_self]
      rintro heq
      cases heq
      exact hj (.inr rfl)
    · rw [hhandles]
      exact hw.opened.others j hj

/-- A path cannot be written to, in some state of the guest. -/
def Unwritable (A : Agent) (path : String) : Prop :=
  ∃ files, A.host.writable (resolve A.dir path) files = false

/-- **A file that is written** has the data, however much that is, if the processes keep off it; and
the others are left alone. -/
theorem writeFile_wp (hP : P.Keeps A.host K) (honly : w.machine.Only P) :
    (writeFile vm path data).wp (.ofSem (sem A T) fun _ => True)
      (fun _ w' => Steady P (K ∪ {resolve A.dir path}) w.machine w'.machine ∧
        (resolve A.dir path ∉ K → w'.machine.files (resolve A.dir path) = some data) ∧
        w'.handles = w.handles)
      (fun x w' => x.IsGuestAgentError ∧ (T.raises ∨ Unwritable A path) ∧
        Steady P (K ∪ {resolve A.dir path}) w.machine w'.machine ∧ Closed w w') w := by
  have hK : K ⊆ K ∪ {resolve A.dir path} := Set.subset_union_left
  unfold writeFile
  refine Prog.wp_reraise ?_
  show (Prog.bind (op (.fileOpen path .w)) _).wp _ _ _ _
  rw [Prog.wp_bind]
  refine Prog.wp_perform.mpr ⟨trivial, fun h w₁ hsem => ?_, fun x w₁ hsem => ?_⟩
  · obtain ⟨⟨m, hsettles, ⟨hfresh, hhandles, hfiles⟩, hprocesses, -⟩, -, -⟩ := hsem
    have hm : Steady P (K ∪ {resolve A.dir path}) w.machine m :=
      (Steady.start honly).settles hP hK hsettles
    rw [Prog.wp_tryFinally]
    have hstart : Writing P K w (resolve A.dir path) h [] w₁ := by
      refine ⟨hm.change hprocesses fun k hk => ?_, fun _ => ?_, hfresh, hhandles⟩
      · rw [hfiles, Function.update_of_ne fun heq => hk (.inr heq)]
      · rw [hfiles, Function.update_self]
    -- The pieces so far are what is in the file.
    refine Prog.wp_forM (fun done w₂ => Writing P K w (resolve A.dir path) h done.flatten w₂)
      (fun done piece rest hslices w₂ hw => ?_) (fun w₂ hw => ?_) hstart
    · refine Prog.wp_mono (fun _ w₃ hw₃ => ?_) (fun x w₃ hfail => ?_) (fileWrite_wp piece hP hw)
      · rw [List.flatten_append, List.flatten_singleton]
        exact hw₃
      · obtain ⟨hx, hraises, hsteady, hopened⟩ := hfail
        refine Prog.wp_mono (fun _ w₄ hclose => ?_) (fun x w₄ hclose => ?_)
          (close_wp hP hK hsteady hopened)
        · exact ⟨hx, trivial, .inl hraises, hclose.1, fun k => .inl (by rw [hclose.2.1])⟩
        · exact ⟨hclose.1, trivial, .inl hclose.2.1, hclose.2.2⟩
    · rw [flatten_slices (by decide)] at hw
      refine Prog.wp_mono (fun _ w₃ hclose => ?_) (fun x w₃ hclose => ?_)
        (close_wp hP hK hw.steady hw.opened)
      · exact ⟨hclose.1, fun hk => (hclose.2.2.files _ hk).trans (hw.file hk), hclose.2.1⟩
      · exact ⟨hclose.1, trivial, .inl hclose.2.1, hclose.2.2⟩
  · obtain ⟨⟨m, hsettles, ⟨hwhy, hhandles, hfiles⟩, hprocesses, -⟩, -, hraw⟩ := hsem
    have hm : Steady P (K ∪ {resolve A.dir path}) w.machine m :=
      (Steady.start honly).settles hP hK hsettles
    rw [hraw x rfl]
    refine ⟨rfl, trivial, hwhy.imp_right fun hno => ⟨_, hno⟩, hm.change hprocesses fun k hk => ?_,
      fun k => .inl (by rw [hhandles])⟩
    exact hfiles k fun heq => hk (.inr heq)

end Laws

/-! ### Runs -/

/-- What comes of a command in a guest where nothing else runs. -/
def Executed (A : Agent) (T : Trust) (argv : List String) (w : World)
    (out : Except Fault ExecResult) (w' : World) : Prop :=
  match out with
  | .ok res => w'.machine.Quiet ∧
      ∃ e, Ends A.host argv A.dir w.machine.files e w'.machine.files ∧ res = A.report e
  | .error x => x.IsGuestAgentError ∧ (argv = [] ∨ T.raises ∨ T.lags) ∧
      ((w'.machine.Quiet ∧ w'.machine.files = w.machine.files) ∨
        ∃ pid, Doing A.host argv A.dir w.machine.files pid w'.machine)

/-- What comes of a file that is read or written there: all of it, and no handle is left that the
agent was not asked to close. -/
def Read (A : Agent) (T : Trust) (path : String) (fuel : ℕ) (w : World) (out : Except Fault Shell.Bytes)
    (w' : World) : Prop :=
  w'.machine.files = w.machine.files ∧ Closed w w' ∧
    match out with
    | .ok data => w.machine.files (resolve A.dir path) = some data ∧ w'.handles = w.handles
    | .error x => ReadFault A T path fuel w.machine.files x

def Written (A : Agent) (T : Trust) (path : String) (data : Shell.Bytes) (w : World)
    (out : Except Fault Unit) (w' : World) : Prop :=
  SameBut {resolve A.dir path} w.machine.files w'.machine.files ∧ Closed w w' ∧
    match out with
    | .ok _ => w'.machine.files (resolve A.dir path) = some data ∧ w'.handles = w.handles
    | .error x => x.IsGuestAgentError ∧ (T.raises ∨ Unwritable A path)

/-- **The requests in a guest where nothing else runs**: a command that returns has run once and is
reported as it ended, and one that raises was started at most once; a file is read or written as a
whole, however it is cut into chunks, and every handle that was opened is closed. -/
theorem requests_run {A : Agent} {T : Trust} (vm : String) {w : World} (hquiet : w.machine.Quiet) :
    (∀ argv timeout tr out w', Prog.Runs (sem A T) (execute vm argv timeout) w tr out w' →
      Executed A T argv w out w') ∧
    (∀ fuel path tr out w', Prog.Runs (sem A T) (readFile fuel vm path) w tr out w' →
      Read A T path fuel w out w') ∧
    ∀ path data tr out w', Prog.Runs (sem A T) (writeFile vm path data) w tr out w' →
      Written A T path data w out w' := by
  refine ⟨fun argv timeout tr out w' hrun => ?_, fun fuel path tr out w' hrun => ?_,
    fun path data tr out w' hrun => ?_⟩
  · have hwp := Prog.runs_of_wp (execute_wp hquiet) hrun
    rcases out with x | res
    · obtain ⟨hx, hwhy, hstarted, -⟩ := hwp.2 x rfl
      exact ⟨hx, hwhy, hstarted⟩
    · obtain ⟨hquiet', -, hends⟩ := hwp.1 res rfl
      exact ⟨hquiet', hends⟩
  · have hwp := Prog.runs_of_wp
      (readFile_wp (quiet_keeps A.host ∅) (Set.notMem_empty _) hquiet) hrun
    have hsame (h : Steady (fun _ _ => False) ∅ w.machine w'.machine) :
        w'.machine.files = w.machine.files := funext fun k => h.files k (Set.notMem_empty k)
    rcases out with x | data
    · obtain ⟨hfault, hsteady, hclosed⟩ := hwp.2 x rfl
      exact ⟨hsame hsteady, hclosed, hfault⟩
    · obtain ⟨hfile, hsteady, hhandles⟩ := hwp.1 data rfl
      exact ⟨hsame hsteady, fun k => .inl (by rw [hhandles]), hfile, hhandles⟩
  · have hwp := Prog.runs_of_wp (writeFile_wp (quiet_keeps A.host ∅) hquiet) hrun
    rw [Set.empty_union] at hwp
    rcases out with x | u
    · obtain ⟨hx, hwhy, hsteady, hclosed⟩ := hwp.2 x rfl
      exact ⟨hsteady.files, hclosed, hx, hwhy⟩
    · obtain ⟨hsteady, hfile, hhandles⟩ := hwp.1 u rfl
      exact ⟨hsteady.files, fun k => .inl (by rw [hhandles]), hfile (Set.notMem_empty _), hhandles⟩

section Ends

variable {A : Agent} {T : Trust} {w : World} {h : ℕ}

/-- Any command may be run at once, and then returns. -/
theorem execute_ends (vm path : String) (arg : List String) (timeout : ℕ) (hroom : w.machine.Roomy) :
    ∃ res w', Prog.Ends (sem A T) (execute vm (path :: arg) timeout) w (.ok res) w' := by
  obtain ⟨pid, hfree, -⟩ := hroom.fresh
  obtain ⟨e, files', hends⟩ := Ends.exist A.host (path :: arg) A.dir w.machine.files
  let w₁ : World := { w with machine :=
    ⟨w.machine.files, Function.update w.machine.processes pid (some (.running (path :: arg) A.dir))⟩ }
  let w₂ : World := { w with machine :=
    ⟨files', Function.update w.machine.processes pid (some (.exited e))⟩ }
  have hclock : sem A T .monotonic w (.ok w.clock) w :=
    ⟨⟨w.machine, .refl, ⟨_, rfl, le_rfl, le_rfl⟩, rfl, rfl, rfl⟩, le_rfl, fun _ h => by cases h⟩
  have hexec : sem A T (.exec path arg) w (.ok (some pid)) w₁ :=
    ⟨⟨w.machine, .refl, ⟨hfree, rfl⟩, rfl, rfl⟩, le_rfl, fun _ h => by cases h⟩
  have hexited : w₂.machine.processes pid = some (.exited e) := Function.update_self ..
  have hstatus : sem A T (.execStatus pid) w₁ (.ok (some (statusOf A (some e)))) w₂ :=
    ⟨⟨w₂.machine, hends.settles w.machine.processes pid, ⟨some e, hexited, rfl⟩, rfl, rfl, rfl⟩, le_rfl,
      fun _ h => by cases h⟩
  refine ⟨A.report e, w₂, .call hclock (.call hexec (.call hstatus ?_))⟩
  show Prog.Ends _ ((Prog.tryCatch ((statusOf A (some e)).result) _).bind _) _ _ _
  rw [result_status]
  exact .ret _ _

/-- The chunks of a write are answered, one after the other. -/
theorem chunks_end (place : String) (content : Shell.Bytes) (chunks : List Shell.Bytes)
    (hopen : w.handles h = some (.writing place)) (hcontent : w.machine.files place = some content) :
    ∃ w', Prog.Ends (sem A T) (chunks.forM fun chunk => op (.fileWrite h (Base64.encode chunk))) w (.ok ())
      w' := by
  induction chunks generalizing w content with
  | nil => exact ⟨w, .ret _ _⟩
  | cons chunk chunks ih =>
    let w₁ : World := { w with machine :=
      ⟨Function.update w.machine.files place (some (content ++ chunk)), w.machine.processes⟩ }
    have hthere : w₁.machine.files place = some (content ++ chunk) := Function.update_self ..
    have hwrite : sem A T (.fileWrite h (Base64.encode chunk)) w (.ok ()) w₁ := by
      refine ⟨⟨w.machine, .refl, ⟨place, chunk, hopen, rfl, fun k hk => ?_, fun content' h => ?_⟩, rfl, rfl,
        rfl⟩, le_rfl, fun _ h => by cases h⟩
      · exact Function.update_of_ne hk ..
      · have hsame : content' = content := Option.some.inj (h.symm.trans hcontent)
        rw [hsame]
        exact hthere
    obtain ⟨w', hrest⟩ := ih (w := w₁) (content ++ chunk) hopen hthere
    exact ⟨w', .bind (.perform hwrite) hrest⟩

/-- Any file may be written, in as many chunks as it takes. -/
theorem writeFile_ends (vm path : String) (data : Shell.Bytes) (hfree : w.handles h = none) :
    ∃ w', Prog.Ends (sem A T) (writeFile vm path data) w (.ok ()) w' := by
  let place := resolve A.dir path
  let w₁ : World := { w with
    machine := ⟨Function.update w.machine.files place (some []), w.machine.processes⟩
    handles := Function.update w.handles h (some (.writing place)) }
  have hopen : sem A T (.fileOpen path .w) w (.ok h) w₁ :=
    ⟨⟨w.machine, .refl, ⟨hfree, rfl, rfl⟩, rfl, rfl⟩, le_rfl, fun _ h => by cases h⟩
  obtain ⟨w₂, hchunks⟩ := chunks_end (A := A) (T := T) (w := w₁) (h := h) place []
    (slices writeChunk data) (Function.update_self ..) (Function.update_self ..)
  let w₃ : World :=
    { w₂ with handles := Function.update w₂.handles h none, closes := insert h w₂.closes }
  have hclose : sem A T (.fileClose h) w₂ (.ok ()) w₃ :=
    ⟨⟨w₂.machine, .refl, rfl, rfl, rfl⟩, le_rfl, fun _ h => by cases h⟩
  have hbody : Prog.Ends (sem A T) (do
      let handle ← op (.fileOpen path .w)
      Prog.tryFinally
        ((slices writeChunk data).forM fun chunk => op (.fileWrite handle (Base64.encode chunk)))
        (op (.fileClose handle))) w (.ok ()) w₃ :=
    .bind (.perform hopen) (.tryFinally hchunks (.perform hclose))
  exact ⟨w₃, hbody.tryCatch _⟩

end Ends

def deskWorld : World := ⟨⟨deskFiles, fun _ => none⟩, fun _ => none, ∅, 0⟩

/-- A file that comes in two chunks. -/
theorem read_desk : ∃ tr w', Prog.Runs (sem plainAgent ⟨False, False⟩) (readFile 5 "vm" "my docs/a.txt")
    deskWorld tr (.ok [72, 105]) w' := by
  let reading (w : World) (pos : ℕ) : World :=
    ⟨w.machine, Function.update w.handles 0 (some (.reading "/root/my docs/a.txt" pos)), ∅, 0⟩
  have hreading (w : World) (pos : ℕ) :
      (reading w pos).handles 0 = some (.reading "/root/my docs/a.txt" pos) := by
    show Function.update w.handles 0 _ 0 = _
    exact Function.update_self ..
  let w₁ := reading deskWorld 0
  let w₂ := reading w₁ (0 + 1)
  let w₃ := reading w₂ (0 + 1 + 1)
  let w₄ : World := ⟨deskWorld.machine, Function.update w₃.handles 0 none, insert 0 ∅, 0⟩
  have hfile : deskFiles "/root/my docs/a.txt" = some [72, 105] := rfl
  have hopen : sem plainAgent ⟨False, False⟩ (.fileOpen "my docs/a.txt" .r) deskWorld (.ok (0 : ℕ)) w₁ :=
    ⟨⟨deskWorld.machine, .refl, ⟨rfl, rfl, rfl⟩, rfl, rfl⟩, le_rfl, fun _ h => by cases h⟩
  -- One byte in each of two chunks; only the second says that the file has ended.
  have hfirst : sem plainAgent ⟨False, False⟩ (.fileRead 0 readChunk) w₁
      (.ok (some ⟨field [72], false⟩)) w₂ := by
    refine ⟨⟨deskWorld.machine, .refl, ⟨_, 0, 1, hreading deskWorld 0, by decide, rfl, fun content h => ?_⟩,
      rfl, rfl⟩, le_rfl, fun _ h => by cases h⟩
    cases hfile.symm.trans h
    exact ⟨rfl, by decide⟩
  have hsecond : sem plainAgent ⟨False, False⟩ (.fileRead 0 readChunk) w₂
      (.ok (some ⟨field [105], true⟩)) w₃ := by
    refine ⟨⟨deskWorld.machine, .refl, ⟨_, 0 + 1, 1, hreading w₁ (0 + 1), by decide, rfl,
      fun content h => ?_⟩, rfl, rfl⟩, le_rfl, fun _ h => by cases h⟩
    cases hfile.symm.trans h
    exact ⟨rfl, by decide⟩
  have hclose : sem plainAgent ⟨False, False⟩ (.fileClose 0) w₃ (.ok ()) w₄ :=
    ⟨⟨deskWorld.machine, .refl, rfl, rfl, rfl⟩, le_rfl, fun _ h => by cases h⟩
  exact ⟨_, w₄, .call hopen (.call hfirst (.call hsecond (.call hclose (.ret _ w₄))))⟩

/-- One byte more than a chunk takes. -/
def longNote : Shell.Bytes := List.replicate 32769 7

/-- A command that returns, a file that is read in two chunks, and one that is written in two. -/
theorem requests_desk :
    (∃ w', Executed plainAgent ⟨False, False⟩ ["cat", "/root/my docs/a.txt"] deskWorld
      (.ok ⟨0, [72, 105], []⟩) w') ∧
    (∃ w', Read plainAgent ⟨False, False⟩ "my docs/a.txt" 5 deskWorld (.ok [72, 105]) w') ∧
    (slices writeChunk longNote).length = 2 ∧
      ∃ w', Written plainAgent ⟨False, False⟩ "note" longNote deskWorld (.ok ()) w' := by
  have hquiet : deskWorld.machine.Quiet := fun _ _ _ h => by cases h
  obtain ⟨hexecutes, hreads, hwrites⟩ :=
    requests_run (A := plainAgent) (T := ⟨False, False⟩) "vm" (w := deskWorld) hquiet
  refine ⟨?_, ?_, ?_, ?_⟩
  · obtain ⟨res, w', tr, hrun⟩ := execute_ends (A := plainAgent) (T := ⟨False, False⟩) (w := deskWorld) "vm"
      "cat" ["/root/my docs/a.txt"] 60000 ⟨0, fun _ _ => rfl⟩
    have hexecuted := hexecutes _ _ _ _ _ hrun
    obtain ⟨-, e, hends, hres⟩ := hexecuted
    -- What cat prints is fixed by the host, so the result of this run is too.
    have hran : e = ⟨0, [72, 105], []⟩ :=
      (hends.eq (r := (⟨0, [72, 105], []⟩, deskFiles)) rfl).1
    rw [hran] at hres
    have hreport : plainAgent.report ⟨0, [72, 105], []⟩ = ⟨0, [72, 105], []⟩ := rfl
    rw [hreport] at hres
    rw [hres] at hrun
    exact ⟨w', hexecutes _ _ _ _ _ hrun⟩
  · obtain ⟨tr, w', hrun⟩ := read_desk
    exact ⟨w', hreads _ _ _ _ _ hrun⟩
  · have hlength : longNote.length = 32769 := List.length_replicate
    rw [slices, List.length_map, List.length_range, hlength]
    decide
  · obtain ⟨w', tr, hrun⟩ := writeFile_ends (A := plainAgent) (T := ⟨False, False⟩) (w := deskWorld) (h := 0)
      "vm" "note" longNote rfl
    exact ⟨w', hwrites _ _ _ _ _ hrun⟩

end TestRange.Guest.Lv
