/-
The guest agent of the Proxmox driver.

The REST interface has one call for a whole file, and takes only so much of it.  More than that is
staged in parts, which a `cat` in the guest puts together and an `rm` takes away again; both run in
a shell, on names that were quoted for it.

* `runExec`, `execute`, `readFile`, `writeFile` — what the driver binds to a VM;
* `Answer`, `sem` — what the agent does;
* `Coreutils` — what `cat` and `rm` do;
* `execute_wp`, `readFile_wp`, `writeFile_wp` — what comes of the requests.
-/
import TestRange.Drivers.Guest.Machine
import TestRange.Lib.Base64
import TestRange.Lib.Poll

namespace TestRange.Guest.Pve

open Shell (Files Ended resolve)

/-! ### Calls -/

/-- What is raised: `GuestAgentError`, by what is wrong, and whatever a call raises or a reply makes
the code raise that cannot be read. -/
inductive Fault
  | execFailed (vm : String)
  | timedOut (argv : List String) (timeout : ℕ) (vm : String)
  | readFailed (path vm : String)
  | truncated (path vm : String)
  | writeFailed (path vm : String)
  | assemblyFailed (path vm : String) (rc : ℤ) (stderr : Shell.Bytes)
  | raw
  /-- A loop has used up its fuel. -/
  | spins

def Fault.IsGuestAgentError : Fault → Prop
  | .raw => False
  | .spins => False
  | _ => True

inductive Op
  | exec (command : List String)
  | execStatus (pid : ℕ)
  | fileWrite (file : String) (content : Shell.Bytes)
  | fileRead (file : String)
  | monotonic
  | sleep (ms : ℕ)

/-- Bytes come as text, a character for each. -/
abbrev Text := List Char

structure Status where
  exited : Bool
  exitcode : Option ℤ
  outData : Option Text
  errData : Option Text

structure Content where
  content : Option Text
  truncated : Bool

abbrev sig : Sig where
  Op := Op
  Res
    | .exec _ => ℕ
    | .execStatus _ => Status
    | .fileRead _ => Content
    | .monotonic => ℕ
    | _ => Unit

/-! ### The requests -/

abbrev Act := Prog sig Fault

def op (o : Op) : Act (sig.Res o) := Prog.perform (S := sig) o

def Fault.isSpin : Fault → Bool
  | .spins => true
  | _ => false

/-- `except Exception as e: raise GuestAgentError(…) from e` -/
abbrev wrapped {α : Type} (p : Act α) (e : Fault) : Act α := p.reraise Fault.isSpin e

/-- `with contextlib.suppress(GuestAgentError)` -/
def suppress (p : Act Unit) : Act Unit :=
  tryCatch p fun
    | .spins => throw .spins
    | .raw => throw .raw
    | _ => pure ()

/-- `latin-1` -/
def latin1 : Text → Act Shell.Bytes
  | [] => pure []
  | c :: cs => do
    if c.toNat < 256 then
      let rest ← latin1 cs
      pure (UInt8.ofNat c.toNat :: rest)
    else throw .raw

/-- `_to_bytes` -/
def toBytes : Option Text → Act Shell.Bytes
  | none => pure []
  | some value => latin1 value

def pollInterval : ℕ := 250

def maxEncodedWriteLen : ℕ := 60000

def rawWriteChunk : ℕ := maxEncodedWriteLen / 4 * 3

/-- The result of a process, when the status says that it has exited. -/
def Status.result (status : Status) : Act (Option ExecResult) := do
  if status.exited then
    let stdout ← toBytes status.outData
    let stderr ← toBytes status.errData
    pure (some ⟨status.exitcode.getD (-1), stdout, stderr⟩)
  else pure none

def askStatus (pid : ℕ) : Act (Option ExecResult) := do
  let status ← op (.execStatus pid)
  status.result

/-- `_run_exec`, where `timeout` is in milliseconds. -/
def runExec (vm : String) (argv : List String) (timeout : ℕ) : Act ExecResult := do
  let start ← op .monotonic
  let pid ← wrapped (op (.exec argv)) (.execFailed vm)
  Prog.poll (askStatus pid) (op .monotonic) (op (.sleep pollInterval))
    (.timedOut argv timeout vm) .spins (start + timeout) (timeout / pollInterval + 2)

/-- `make_execute` -/
def execute (vm : String) (argv : List String) (timeout : ℕ) : Act ExecResult :=
  runExec vm argv timeout

/-- `make_read_file` -/
def readFile (vm path : String) : Act Shell.Bytes := do
  let result ← wrapped (op (.fileRead path)) (.readFailed path vm)
  if result.truncated then throw (.truncated path vm) else toBytes result.content

/-- `_post_write` -/
def postWrite (vm file : String) (encoded : Shell.Bytes) : Act Unit :=
  wrapped (op (.fileWrite file encoded)) (.writeFailed file vm)

/-- The name of a part. -/
def partName (path : String) (n : ℕ) : String := path ++ ".tr-part" ++ toString n

def catLine (path : String) (parts : List String) : String :=
  "cat " ++ " ".intercalate (parts.map Shell.quote) ++ " > " ++ Shell.quote path

def rmLine (parts : List String) : String := "rm -f " ++ " ".intercalate (parts.map Shell.quote)

/-- Put the parts together. -/
def assemble (vm path : String) (parts : List String) : Act Unit := do
  let res ← runExec vm ["sh", "-c", catLine path parts] 120000
  if res.exitCode ≠ 0 then throw (.assemblyFailed path vm res.exitCode res.stderr) else pure ()

/-- Take the parts away. -/
def cleanup (vm : String) (parts : List String) : Act Unit :=
  if parts = [] then pure ()
  else suppress (do
    let _ ← runExec vm ["sh", "-c", rmLine parts] 60000
    pure ())

/-- Write the part files from the `n`th on, and put all of them together; those that were written
are taken away in the end, whatever happens. -/
def stageParts (vm path : String) : ℕ → List String → List Shell.Bytes → Act Unit
  | _, parts, [] => Prog.tryFinally (assemble vm path parts) (cleanup vm parts)
  | n, parts, piece :: pieces => do
    match ← Prog.attempt (postWrite vm (partName path n) (Base64.encode piece)) with
    | .ok _ => stageParts vm path (n + 1) (parts ++ [partName path n]) pieces
    | .error e =>
      cleanup vm parts
      throw e

/-- `_write_chunked` -/
def writeChunked (vm path : String) (data : Shell.Bytes) : Act Unit :=
  stageParts vm path 0 [] (slices rawWriteChunk data)

/-- `make_write_file` -/
def writeFile (vm path : String) (data : Shell.Bytes) : Act Unit :=
  let encoded := Base64.encode data
  if encoded.length ≤ maxEncodedWriteLen then postWrite vm path encoded
  else writeChunked vm path data

/-! ### The agent -/

structure World where
  machine : Machine
  clock : ℕ

/-- What the interface takes of a file in one call. -/
def contentLimit : ℕ := 61440

/-- What it gives of a file in one call. -/
def readLimit : ℕ := 16 * 1024 * 1024

/-- Bytes as text. -/
def unlatin (bytes : Shell.Bytes) : Text := bytes.map fun b => Char.ofNat b.toNat

def statusOf (A : Agent) : Option Ended → Status
  | none => ⟨false, none, none, none⟩
  | some e =>
    ⟨true, some e.status, some (unlatin (e.stdout.take A.capture)),
      some (unlatin (e.stderr.take A.capture))⟩

/-- What a call does, at its time. -/
def Answer (A : Agent) (T : Trust) : (o : Op) → World → Except Fault (sig.Res o) → World → Prop
  | .exec command, w, r, w' => Spawned T command A.dir w.machine r.toOption w'.machine
  | .execStatus pid, w, r, w' =>
    (match r.toOption with
      | some status => ∃ said, Polled T pid w.machine said ∧ status = statusOf A said
      | none => T.raises) ∧ w'.machine = w.machine
  | .fileWrite file content, w, r, w' =>
    (match r.toOption with
      | some _ => content.length ≤ contentLimit ∧ ∃ bytes, content = Base64.encode bytes ∧
          w'.machine.files = Function.update w.machine.files (resolve A.dir file) (some bytes)
      | none => (T.raises ∨ contentLimit < content.length ∨
            A.host.writable (resolve A.dir file) w.machine.files = false) ∧
          ∀ k, k ≠ resolve A.dir file → w'.machine.files k = w.machine.files k) ∧
      w'.machine.processes = w.machine.processes
  | .fileRead file, w, r, w' =>
    (match r.toOption with
      | some result => ∃ content, w.machine.files (resolve A.dir file) = some content ∧
          result.truncated = decide (readLimit < content.length) ∧
          (content.length ≤ readLimit → result.content = some (unlatin content))
      | none => T.raises ∨ w.machine.files (resolve A.dir file) = none) ∧ w'.machine = w.machine
  | .monotonic, w, r, w' =>
    (∃ t, r = .ok t ∧ w.clock ≤ t ∧ t ≤ w'.clock) ∧ w'.machine = w.machine
  | .sleep ms, w, r, w' => r = .ok () ∧ w.clock + ms ≤ w'.clock ∧ w'.machine = w.machine

/-- Between two calls processes may end, and a call takes its time. -/
def sem (A : Agent) (T : Trust) : Prog.Sem sig Fault World := fun o w r w' =>
  (∃ m, w.machine.Settles A.host m ∧ Answer A T o { w with machine := m } r w') ∧
    w.clock ≤ w'.clock ∧ ∀ e, r = .error e → e = .raw

/-- What `cat` and `rm` do with names that are not options. -/
structure Coreutils (host : Shell.Host) : Prop where
  cat_names : Shell.Names host "cat"
  rm_names : Shell.Names host "rm"
  cat_quiet : ∀ names dir files, (∀ name ∈ names, Shell.startsDash name = false) →
    (host.spawn ("cat" :: names) dir files).2 = files
  cat_stdout : ∀ names dir files, (∀ name ∈ names, Shell.startsDash name = false) →
    (host.spawn ("cat" :: names) dir files).1.status = 0 →
    ∃ contents : List Shell.Bytes, names.map (fun name => files (resolve dir name)) = contents.map some ∧
      (host.spawn ("cat" :: names) dir files).1.stdout = contents.flatten
  rm_others : ∀ names dir files, (∀ name ∈ names, Shell.startsDash name = false) →
    ∀ k, k ∉ names.map (resolve dir) → (host.spawn ("rm" :: "-f" :: names) dir files).2 k = files k
  rm_gone : ∀ names dir files, (∀ name ∈ names, Shell.startsDash name = false) →
    (host.spawn ("rm" :: "-f" :: names) dir files).1.status = 0 →
    ∀ name ∈ names, (host.spawn ("rm" :: "-f" :: names) dir files).2 (resolve dir name) = none

/-! ### Processes -/

section Laws

variable {A : Agent} {T : Trust} {P : Kind} {K : Set String} {vm path : String} {argv : List String}
  {data : Shell.Bytes} {timeout pid : ℕ} {w w' : World}

/-- The clock is read while processes may end. -/
theorem monotonic_wp {R : World → Prop} {E : Fault → World → Prop}
    (hR : ∀ w', w.machine.Settles A.host w'.machine → R w') :
    (op .monotonic).wp (.ofSem (sem A T) fun _ => True)
      (fun t w' => R w' ∧ w.clock ≤ t ∧ t ≤ w'.clock) E w := by
  refine Prog.wp_answered trivial fun r w' hsem => ?_
  obtain ⟨⟨m, hsettles, ⟨t, rfl, hlo, hhi⟩, hm⟩, -, -⟩ := hsem
  exact ⟨t, rfl, hR w' (by rw [hm]; exact hsettles), hlo, hhi⟩

theorem sleep_wp {ms : ℕ} {R : World → Prop} {E : Fault → World → Prop}
    (hR : ∀ w', w.machine.Settles A.host w'.machine → R w') :
    (op (.sleep ms)).wp (.ofSem (sem A T) fun _ => True)
      (fun _ w' => R w' ∧ w.clock + ms ≤ w'.clock) E w := by
  refine Prog.wp_answered trivial fun r w' hsem => ?_
  obtain ⟨⟨m, hsettles, rfl, hclock, hm⟩, -, -⟩ := hsem
  exact ⟨_, rfl, hR w' (by rw [hm]; exact hsettles), hclock⟩

/-- What is encoded as text is decoded. -/
theorem latin1_unlatin (bytes : Shell.Bytes) : latin1 (unlatin bytes) = pure bytes := by
  induction bytes with
  | nil => rfl
  | cons b bytes ih =>
    have hb := b.toNat_lt
    have hvalid : b.toNat.isValidChar := .inl (by omega)
    have hchar : (Char.ofNat b.toNat).toNat = b.toNat := by
      rw [Char.ofNat, dif_pos hvalid]
      rfl
    show (if (Char.ofNat b.toNat).toNat < 256 then _ else _) = _
    rw [hchar, if_pos (by omega), show List.map _ bytes = unlatin bytes from rfl, ih, UInt8.ofNat_toNat]
    rfl

theorem result_statusOf (e : Ended) : (statusOf A (some e)).result = pure (some (A.report e)) := by
  show (latin1 (unlatin (e.stdout.take A.capture))).bind _ = _
  rw [latin1_unlatin]
  show (latin1 (unlatin (e.stderr.take A.capture))).bind _ = _
  rw [latin1_unlatin]
  rfl

/-- Why a command fails: the error is a `GuestAgentError`, or it is what a call has raised. -/
def Excused (T : Trust) (x : Fault) : Prop :=
  (x.IsGuestAgentError ∨ x = .raw ∧ T.raises) ∧ (T.raises ∨ T.lags)

/-- A command in the guest, besides processes of a kind. -/
theorem runExec_wp {before : Files → Prop} {after : Ended → Files → Prop} (vm : String) (timeout : ℕ)
    (O : Outlook A.host P argv A.dir before after) (honly : w.machine.Only P)
    (hbefore : before w.machine.files) :
    (runExec vm argv timeout).wp (.ofSem (sem A T) fun _ => True)
      (fun res w' => w'.machine.Only P ∧ ∃ e, after e w'.machine.files ∧ res = A.report e)
      (fun x w' => Excused T x ∧ w'.machine.Launched P argv A.dir before after) w := by
  unfold runExec
  refine Prog.wp_seq (monotonic_wp (R := fun w₁ => w₁.machine.Only P ∧ before w₁.machine.files)
    fun w₁ hsettles => honly.settles O.before hbefore hsettles) ?_
  rintro start w₁ ⟨⟨honly₁, hbefore₁⟩, -, hstart⟩
  refine Prog.wp_seq (P := fun pid w₂ => Beside P argv A.dir before after pid w₂.machine ∧
    start ≤ w₂.clock) (Prog.wp_reraise ?_) ?_
  · refine Prog.wp_perform.mpr ⟨trivial, fun pid w₂ hsem => ?_, fun x w₂ hsem => ?_⟩
    · obtain ⟨⟨m, hsettles, hwith⟩, hclock, -⟩ := hsem
      obtain ⟨hm, hfiles⟩ := honly₁.settles O.before hbefore₁ hsettles
      exact ⟨Machine.With.beside hwith hm hfiles, hstart.trans hclock⟩
    · obtain ⟨⟨m, hsettles, hspawned⟩, -, hraw⟩ := hsem
      obtain ⟨hm, hfiles⟩ := honly₁.settles O.before hbefore₁ hsettles
      obtain ⟨hraises, hlaunched⟩ := Spawned.launched hspawned hm hfiles
      rw [hraw x rfl]
      exact ⟨rfl, ⟨.inl trivial, .inl hraises⟩, hlaunched⟩
  rintro pid w₂ ⟨hbeside, hstart⟩
  -- The process is waited for, until the deadline.
  have hwaits (w₃ : World) (hw : Beside P argv A.dir before after pid w₃.machine) (w₄ : World)
      (hsettles : w₃.machine.Settles A.host w₄.machine) :
      Beside P argv A.dir before after pid w₄.machine := hw.settles O hsettles
  refine Prog.wp_await (I := fun w₃ => Beside P argv A.dir before after pid w₃.machine) (p := T.lags)
    (fun w₃ hw => ?_) (fun w₃ hw => monotonic_wp (hwaits w₃ hw))
    (fun w₃ hw => sleep_wp (hwaits w₃ hw))
    (fun w₃ hlags hw => ⟨⟨.inl trivial, .inr hlags⟩, .inr ⟨pid, hw⟩⟩) hbeside
    (Prog.deadline_lt (by decide) hstart)
  show (Prog.bind (op (.execStatus pid)) _).wp _ _ _ _
  rw [Prog.wp_bind]
  refine Prog.wp_perform.mpr ⟨trivial, fun status w₄ hsem => ?_, fun x w₄ hsem => ?_⟩
  · obtain ⟨⟨m, hm, ⟨said, hpolled, rfl⟩, heq⟩, hclock, -⟩ := hsem
    have hw₄ := hwaits w₃ hw w₄ (by rw [heq]; exact hm)
    cases said with
    | none => exact ⟨⟨hpolled, hw₄⟩, hclock⟩
    | some e =>
      rw [← heq] at hpolled
      obtain ⟨honly₄, hafter⟩ := hw₄.ended hpolled
      rw [result_statusOf]
      exact ⟨honly₄, e, hafter, rfl⟩
  · obtain ⟨⟨m, hm, hraises, heq⟩, -, hraw⟩ := hsem
    rw [hraw x rfl]
    exact ⟨⟨.inr ⟨rfl, hraises⟩, .inl hraises⟩, .inr ⟨pid, hwaits w₃ hw w₄ (by rw [heq]; exact hm)⟩⟩

/-- **A command that is executed in the guest** has run once, and is reported as it ended; or it has
been started at most once. -/
theorem execute_wp (hquiet : w.machine.Quiet) :
    (execute vm argv timeout).wp (.ofSem (sem A T) fun _ => True)
      (fun res w' => w'.machine.Quiet ∧
        ∃ e, Ends A.host argv A.dir w.machine.files e w'.machine.files ∧ res = A.report e)
      (fun x w' => Excused T x ∧ ((w'.machine.Quiet ∧ w'.machine.files = w.machine.files) ∨
        ∃ pid, Doing A.host argv A.dir w.machine.files pid w'.machine)) w :=
  runExec_wp vm timeout (outlook_alone A.host argv A.dir w.machine.files) hquiet rfl

/-- **A command that is executed besides others** changes no files but those that it may change; and
when it returns nothing of it is left to run. -/
theorem execute_keeps {F : Set String} (hP : P.Keeps A.host K) (hargv : Harmless A.host F argv A.dir)
    (honly : w.machine.Only P) :
    (execute vm argv timeout).wp (.ofSem (sem A T) fun _ => True)
      (fun _ w' => Steady P (K ∪ F) w.machine w'.machine)
      (fun _ w' => Steady (fun a d => P a d ∨ Harmless A.host F a d) (K ∪ F) w.machine w'.machine)
      w := by
  refine Prog.wp_mono (fun res w' h => ?_) (fun x w' h => ?_)
    (runExec_wp vm timeout (outlook_sameBut hP hargv w.machine.files) honly (.refl _ _))
  · obtain ⟨honly', e, hfiles, -⟩ := h
    exact ⟨honly', hfiles⟩
  · obtain ⟨hkind, hfiles⟩ := h.2.steady
    refine ⟨hkind.mono fun a d h => h.imp_right ?_, hfiles⟩
    rintro ⟨rfl, rfl⟩
    exact hargv

/-- **A file that is read**, which the processes keep off: all of it, unless it is more than the
interface gives. -/
theorem readFile_wp (hP : P.Keeps A.host K) (honly : w.machine.Only P) :
    (readFile vm path).wp (.ofSem (sem A T) fun _ => True)
      (fun data w' => Steady P K w.machine w'.machine ∧
        (resolve A.dir path ∉ K → w.machine.files (resolve A.dir path) = some data))
      (fun x w' => x.IsGuestAgentError ∧ Steady P K w.machine w'.machine ∧
        (resolve A.dir path ∉ K → T.raises ∨ ∀ content,
          w.machine.files (resolve A.dir path) = some content → readLimit < content.length)) w := by
  unfold readFile
  refine Prog.wp_seq (P := fun result w' => Steady P K w.machine w'.machine ∧
    ∃ content, (resolve A.dir path ∉ K → w.machine.files (resolve A.dir path) = some content) ∧
      result.truncated = decide (readLimit < content.length) ∧
      (content.length ≤ readLimit → result.content = some (unlatin content)))
    (Prog.wp_reraise ?_) ?_
  · refine Prog.wp_perform.mpr ⟨trivial, fun result w₁ hsem => ?_, fun x w₁ hsem => ?_⟩
    · obtain ⟨⟨m, hsettles, ⟨content, hcontent, hresult⟩, heq⟩, -, -⟩ := hsem
      have hsteady : Steady P K w.machine m := (Steady.start honly).settles hP subset_rfl hsettles
      exact ⟨by rw [heq]; exact hsteady, content,
        fun hapart => (hsteady.files _ hapart).symm.trans hcontent, hresult⟩
    · obtain ⟨⟨m, hsettles, hwhy, heq⟩, -, hraw⟩ := hsem
      have hsteady : Steady P K w.machine m := (Steady.start honly).settles hP subset_rfl hsettles
      rw [hraw x rfl]
      refine ⟨rfl, trivial, by rw [heq]; exact hsteady, fun hapart =>
        hwhy.imp_right fun hnone content hsome => ?_⟩
      rw [← hsteady.files _ hapart] at hsome
      exact absurd (hsome.symm.trans hnone) (by simp)
  rintro result w₁ ⟨hsteady, content, hfile, htruncated, hcontent⟩
  by_cases hlong : readLimit < content.length
  · rw [if_pos (by rw [htruncated]; exact decide_eq_true hlong)]
    refine ⟨trivial, hsteady, fun hapart => .inr fun content' hfile' => ?_⟩
    rw [hfile hapart] at hfile'
    cases hfile'
    exact hlong
  · rw [if_neg (by rw [htruncated]; simpa using hlong), hcontent (by omega), toBytes, latin1_unlatin]
    exact ⟨hsteady, hfile⟩

/-! ### Parts -/

theorem toList_partName (path : String) (n : ℕ) :
    (partName path n).toList = path.toList ++ (".tr-part".toList ++ (toString n).toList) := by
  simp [partName]

theorem nul_notMem_partName (h : Shell.nul ∉ path.toList) (n : ℕ) :
    Shell.nul ∉ (partName path n).toList := by
  have hdigits : Shell.nul ∉ (toString n).toList := by
    intro hmem
    have hmem : Shell.nul ∈ Nat.toDigits 10 n := by simpa using hmem
    exact absurd (Nat.isDigit_of_mem_toDigits (by omega) (by omega) hmem) (by decide)
  rw [toList_partName, List.mem_append, List.mem_append]
  rintro (hmem | hmem | hmem)
  · exact h hmem
  · exact absurd hmem (by decide)
  · exact hdigits hmem

theorem startsDash_partName (h : Shell.startsDash path = false) (n : ℕ) :
    Shell.startsDash (partName path n) = false := by
  rw [Shell.startsDash, toList_partName]
  rw [Shell.startsDash] at h
  cases hpath : path.toList with
  | nil => rfl
  | cons c cs =>
    rw [hpath] at h
    exact h

theorem resolve_partName (dir path : String) (n : ℕ) :
    resolve dir (partName path n) = resolve dir path ++ (".tr-part" ++ toString n) := by
  have hslash : "/".toList.isPrefixOf (partName path n).toList = "/".toList.isPrefixOf path.toList := by
    rw [toList_partName]
    cases path.toList <;> rfl
  rw [resolve, resolve, hslash]
  split_ifs <;> simp [partName, String.append_assoc]

theorem resolve_partName_ne (dir path : String) (n : ℕ) :
    resolve dir (partName path n) ≠ resolve dir path := by
  intro heq
  rw [resolve_partName] at heq
  have hlength := congrArg (fun s => s.toList.length) heq
  simp at hlength

theorem resolve_partName_injective (dir path : String) :
    Function.Injective fun n => resolve dir (partName path n) := by
  intro m n heq
  dsimp only at heq
  rw [resolve_partName, resolve_partName] at heq
  have hdigits : (toString m).toList = (toString n).toList := by
    have hlists := congrArg String.toList heq
    simpa using hlists
  have hvalue : Nat.toDigits 10 m = Nat.toDigits 10 n := by simpa using hdigits
  have hread := congrArg (Nat.ofDigitChars 10 · 0) hvalue
  simpa [Nat.ofDigitChars_toDigits] using hread

/-! ### The lines -/

theorem catLine_eq {parts : List String} (h : parts ≠ []) :
    catLine path parts = Shell.join ("cat" :: parts) ++ " > " ++ Shell.quote path := by
  obtain ⟨part, parts, rfl⟩ := List.exists_cons_of_ne_nil h
  refine String.toList_injective ?_
  simp [catLine, Shell.join, show Shell.quote "cat" = "cat" from rfl, String.toList_intercalate]

theorem rmLine_eq {parts : List String} (h : parts ≠ []) :
    rmLine parts = Shell.join ("rm" :: "-f" :: parts) := by
  obtain ⟨part, parts, rfl⟩ := List.exists_cons_of_ne_nil h
  refine String.toList_injective ?_
  simp [rmLine, Shell.join, show Shell.quote "rm" = "rm" from rfl,
    show Shell.quote "-f" = "-f" from rfl, String.toList_intercalate]

/-- Names that a shell and a utility take as they are. -/
def Usable (name : String) : Prop := Shell.nul ∉ name.toList ∧ Shell.startsDash name = false

section Lines

variable {host : Shell.Host} {dir : String} {files files' : Files} {parts : List String} {e : Ended}

/-- Putting the parts together changes one file, and that has what is in the parts. -/
theorem cat_ends (U : Coreutils host) (hparts : parts ≠ []) (husable : ∀ p ∈ parts, Usable p)
    (hpath : Usable path)
    (h : Ends host ["sh", "-c", catLine path parts] dir files e files') :
    (∀ k, k ≠ resolve dir path → files' k = files k) ∧
      (e.status = 0 → resolve dir path ∉ parts.map (resolve dir) →
        ∃ contents : List Shell.Bytes, parts.map (fun p => files (resolve dir p)) = contents.map some ∧
          files' (resolve dir path) = some contents.flatten) := by
  have hnul : ∀ a ∈ "cat" :: parts, Shell.nul ∉ a.toList :=
    List.forall_mem_cons.mpr ⟨by decide, fun p hp => (husable p hp).1⟩
  have hdash : ∀ p ∈ parts, Shell.startsDash p = false := fun p hp => (husable p hp).2
  have hrun := Shell.run_redirect dir files hnul hpath.1 U.cat_names
  rw [← catLine_eq hparts] at hrun
  have hstart : start host ["sh", "-c", catLine path parts] dir files =
      Shell.run host (catLine path parts) dir files := by
    rw [start, if_pos (.inl rfl)]
  by_cases hwritable : host.writable (resolve dir path) files
  · rw [if_pos hwritable] at hrun
    dsimp only at hrun
    rw [U.cat_quiet parts dir _ hdash, Function.update_self, if_pos rfl, Function.update_idem] at hrun
    obtain ⟨rfl, rfl⟩ := h.eq (hstart.trans hrun)
    refine ⟨fun k hk => Function.update_of_ne hk .., fun hstatus hapart => ?_⟩
    obtain ⟨contents, hcontents, hstdout⟩ := U.cat_stdout parts dir _ hdash hstatus
    refine ⟨contents, hcontents ▸ List.map_congr_left fun p hp => ?_, ?_⟩
    · rw [Function.update_of_ne]
      exact fun heq => hapart (List.mem_map.mpr ⟨p, hp, heq⟩)
    · dsimp only
      rw [Function.update_self, hstdout]
  · rw [if_neg hwritable] at hrun
    obtain ⟨rfl, rfl⟩ := h.eq (hstart.trans hrun)
    exact ⟨fun _ _ => rfl, fun hstatus => absurd hstatus host.failure_ne⟩

/-- Taking the parts away changes no other files. -/
theorem rm_ends (U : Coreutils host) (hparts : parts ≠ []) (husable : ∀ p ∈ parts, Usable p)
    (h : Ends host ["sh", "-c", rmLine parts] dir files e files') :
    e = (host.spawn ("rm" :: "-f" :: parts) dir files).1 ∧
      (∀ k, k ∉ parts.map (resolve dir) → files' k = files k) ∧
      (e.status = 0 → ∀ p ∈ parts, files' (resolve dir p) = none) := by
  have hnul : ∀ a ∈ "rm" :: "-f" :: parts, Shell.nul ∉ a.toList :=
    List.forall_mem_cons.mpr ⟨by decide, List.forall_mem_cons.mpr
      ⟨by decide, fun p hp => (husable p hp).1⟩⟩
  have hdash : ∀ p ∈ parts, Shell.startsDash p = false := fun p hp => (husable p hp).2
  have hrun := Shell.run_join dir files hnul U.rm_names
  rw [← rmLine_eq hparts] at hrun
  have hstart : start host ["sh", "-c", rmLine parts] dir files =
      Shell.run host (rmLine parts) dir files := by
    rw [start, if_pos (.inl rfl)]
  obtain ⟨rfl, rfl⟩ := h.eq (hstart.trans hrun)
  exact ⟨rfl, U.rm_others parts dir files hdash, U.rm_gone parts dir files hdash⟩

end Lines

/-! ### What is left alone -/

/-- The files that a call may change, at once or when a process ends. -/
def foot (A : Agent) : Op → Set String
  | .exec command =>
    {k | ∃ files e files', Ends A.host command A.dir files e files' ∧ files' k ≠ files k}
  | .fileWrite file _ => {resolve A.dir file}
  | _ => ∅

/-- Where the first parts of a file are. -/
def partPlaces (A : Agent) (path : String) (count : ℕ) : Set String :=
  {k | ∃ n < count, k = resolve A.dir (partName path n)}

/-- Where a file is that is written, and where its first parts are. -/
def reach (A : Agent) (path : String) (count : ℕ) : Set String :=
  {k | k = resolve A.dir path ∨ k ∈ partPlaces A path count}

theorem steady_step {F : Set String} {w₁ : World} {o : Op} {r : Except Fault (sig.Res o)}
    (hP : P.Keeps A.host K) (hfoot : foot A o ⊆ F)
    (hsteady : Steady (fun a d => P a d ∨ Harmless A.host F a d) (K ∪ F) w.machine w₁.machine)
    (hsem : sem A T o w₁ r w') :
    Steady (fun a d => P a d ∨ Harmless A.host F a d) (K ∪ F) w.machine w'.machine := by
  obtain ⟨⟨m, hsettles, hanswer⟩, -, -⟩ := hsem
  have hkeeps : Kind.Keeps (fun a d => P a d ∨ Harmless A.host F a d) A.host (K ∪ F) := by
    rintro a d (h | h)
    · exact (hP a d h).mono Set.subset_union_left
    · exact h.mono Set.subset_union_right
  have hm := hsteady.settles hkeeps subset_rfl hsettles
  have hsame (heq : w'.machine = m) :
      Steady (fun a d => P a d ∨ Harmless A.host F a d) (K ∪ F) w.machine w'.machine := by
    rw [heq]
    exact hm
  cases o with
  | exec command =>
    have hharmless : Harmless A.host F command A.dir := by
      intro f e f' hends k hk
      by_contra hne
      exact hk (hfoot ⟨f, e, f', hends, hne⟩)
    have hwith {pid : ℕ} (hwith : m.With command A.dir pid w'.machine) :
        Steady (fun a d => P a d ∨ Harmless A.host F a d) (K ∪ F) w.machine w'.machine := by
      refine ⟨hwith.only hm.only (fun _ _ h => h) (.inr hharmless), ?_⟩
      rw [hwith.2]
      exact hm.files
    cases r with
    | ok pid => exact hwith hanswer
    | error x =>
      rcases hanswer.2 with heq | ⟨pid, h⟩
      · exact hsame heq
      · exact hwith h
  | fileWrite file content =>
    have hfile : resolve A.dir file ∈ F := hfoot rfl
    refine hm.change hanswer.2 fun k hk => ?_
    have hne : k ≠ resolve A.dir file := fun heq => hk (.inr (heq ▸ hfile))
    cases r with
    | ok u =>
      obtain ⟨⟨-, bytes, -, hfiles'⟩, -⟩ := hanswer
      rw [show w'.machine.files = _ from hfiles', Function.update_of_ne hne]
    | error x => exact hanswer.1.2 k hne
  | execStatus pid => exact hsame hanswer.2
  | fileRead file => exact hsame hanswer.2
  | monotonic => exact hsame hanswer.2
  | sleep ms => exact hsame hanswer.2.2

section Within

variable {F : Set String} {parts : List String} {pieces : List Shell.Bytes} {count : ℕ}

theorem within_wrapped {α : Type} {p : Act α} (hp : p.Within (foot A) F) (e : Fault) :
    (wrapped p e).Within (foot A) F := by
  refine .tryCatch hp fun x => ?_
  cases x <;> trivial

theorem within_poll {α : Type} {ask : Act (Option α)} (hask : ask.Within (foot A) F) (late : Fault)
    (deadline fuel : ℕ) : (Prog.poll ask (op .monotonic) (op (.sleep pollInterval)) late .spins
      deadline fuel).Within (foot A) F := by
  induction fuel with
  | zero => trivial
  | succ fuel ih =>
    rw [Prog.poll]
    refine .seq hask fun a => ?_
    cases a with
    | some a => trivial
    | none =>
      refine .seq (.perform (Set.empty_subset _)) fun t => ?_
      split_ifs
      · trivial
      · exact .seq (.perform (Set.empty_subset _)) fun _ => ih

theorem within_toBytes (value : Option Text) : (toBytes value).Within (foot A) F := by
  cases value with
  | none => trivial
  | some cs =>
    induction cs with
    | nil => trivial
    | cons c cs ih =>
      show (if c.toNat < 256 then _ else _ : Act Shell.Bytes).Within _ _
      split_ifs
      · exact .seq ih fun _ => trivial
      · trivial

theorem within_runExec (vm : String) (argv : List String) (timeout : ℕ)
    (h : foot A (.exec argv) ⊆ F) : (runExec vm argv timeout).Within (foot A) F := by
  refine .seq (.perform (Set.empty_subset _)) fun start => ?_
  refine .seq (within_wrapped (.perform h) _) fun pid => within_poll ?_ _ _ _
  refine .seq (.perform (Set.empty_subset _)) fun status => ?_
  show (if status.exited = true then _ else _ : Act (Option ExecResult)).Within _ _
  split_ifs
  · exact .seq (within_toBytes _) fun _ => .seq (within_toBytes _) fun _ => trivial
  · trivial

/-- Names of some of the first parts. -/
def ArePartsOf (path : String) (count : ℕ) (parts : List String) : Prop :=
  ∀ p ∈ parts, ∃ n < count, p = partName path n

theorem ArePartsOf.usable {count : ℕ} (h : ArePartsOf path count parts) (hpath : Usable path) :
    ∀ p ∈ parts, Usable p := by
  intro p hp
  obtain ⟨n, -, rfl⟩ := h p hp
  exact ⟨nul_notMem_partName hpath.1 n, startsDash_partName hpath.2 n⟩

theorem within_cleanup (U : Coreutils A.host) (hpath : Usable path)
    (hparts : ArePartsOf path count parts) :
    (cleanup vm parts).Within (foot A) (reach A path count) := by
  unfold cleanup
  split_ifs with hempty
  · trivial
  · refine .tryCatch (.seq (within_runExec _ _ _ ?_) fun _ => trivial) fun x => ?_
    · rintro k ⟨files, e, files', hends, hne⟩
      by_contra hk
      refine hne ((rm_ends U hempty (hparts.usable hpath) hends).2.1 k fun hmem => hk ?_)
      obtain ⟨p, hp, rfl⟩ := List.mem_map.mp hmem
      obtain ⟨n, hn, rfl⟩ := hparts p hp
      exact .inr ⟨n, hn, rfl⟩
    · cases x <;> trivial

theorem within_assemble (U : Coreutils A.host) (hpath : Usable path)
    (hparts : ArePartsOf path count parts) (hne : parts ≠ []) :
    (assemble vm path parts).Within (foot A) (reach A path count) := by
  refine .seq (within_runExec _ _ _ ?_) fun res => ?_
  · rintro k ⟨files, e, files', hends, hchanged⟩
    by_contra hk
    exact hchanged ((cat_ends U hne (hparts.usable hpath) hpath hends).1 k fun heq => hk (.inl heq))
  · split_ifs <;> trivial

theorem within_postWrite {file : String} (h : resolve A.dir file ∈ F) (encoded : Shell.Bytes) :
    (postWrite vm file encoded).Within (foot A) F :=
  within_wrapped (.perform (by rintro k rfl; exact h)) _

theorem within_stageParts (U : Coreutils A.host) (hpath : Usable path) {n : ℕ}
    (hcount : n + pieces.length = count) (hparts : ArePartsOf path count parts)
    (hne : parts ≠ [] ∨ pieces ≠ []) :
    (stageParts vm path n parts pieces).Within (foot A) (reach A path count) := by
  induction pieces generalizing n parts with
  | nil =>
    have hne := hne.resolve_right fun h => h rfl
    exact .tryFinally (within_assemble U hpath hparts hne) (within_cleanup U hpath hparts)
  | cons piece pieces ih =>
    rw [List.length_cons] at hcount
    have hn : n < count := by omega
    refine .seq (.attempt (within_postWrite (.inr ⟨n, hn, rfl⟩) _)) fun r => ?_
    cases r with
    | ok u =>
      refine ih (by omega) (fun p hp => ?_) (.inl (by simp))
      rcases List.mem_append.mp hp with hp | hp
      · exact hparts p hp
      · exact ⟨n, hn, List.mem_singleton.mp hp⟩
    | error e => exact .seq (within_cleanup U hpath hparts) fun _ => trivial

/-- The parts that a file is written in: none, when one call takes it. -/
def partCount (data : Shell.Bytes) : ℕ :=
  if (Base64.encode data).length ≤ maxEncodedWriteLen then 0 else (slices rawWriteChunk data).length

theorem slices_ne_nil (hlong : ¬ (Base64.encode data).length ≤ maxEncodedWriteLen) :
    slices rawWriteChunk data ≠ [] := by
  intro hnil
  have hflat : (slices rawWriteChunk data).flatten = data := flatten_slices (by decide) data
  rw [hnil] at hflat
  subst hflat
  exact hlong (by decide)

/-- A write keeps to the file and its parts. -/
theorem within_writeFile (vm : String) (data : Shell.Bytes) (U : Coreutils A.host) (hpath : Usable path) :
    (writeFile vm path data).Within (foot A) (reach A path (partCount data)) := by
  unfold writeFile partCount
  dsimp only
  split_ifs with hshort
  · exact within_postWrite (.inl rfl) _
  · exact within_stageParts U hpath (Nat.zero_add _) (fun p hp => absurd hp (List.not_mem_nil))
      (.inr (slices_ne_nil hshort))

end Within

/-! ### What comes of a write -/

/-- The names of the first parts. -/
def partNames (path : String) (n : ℕ) : List String := (List.range n).map (partName path)

theorem arePartsOf_partNames (path : String) (n : ℕ) : ArePartsOf path n (partNames path n) := by
  intro p hp
  obtain ⟨i, hi, rfl⟩ := List.mem_map.mp hp
  exact ⟨i, List.mem_range.mp hi, rfl⟩

variable {count : ℕ} {files₀ : Files}

/-- The files are as they were, but for those that the processes and the write may change. -/
abbrev Around (A : Agent) (K : Set String) (path : String) (count : ℕ) : Files → Files → Prop :=
  SameBut (K ∪ reach A path count)

/-- The agent answers at once, and the guest does what a write asks for: the file and its parts can
be written, `cat` finds the parts, and `rm` takes them away. -/
structure Healthy (A : Agent) (T : Trust) (K : Set String) (path : String) (count : ℕ) (files₀ : Files) :
    Prop where
  raises : ¬ T.raises
  lags : ¬ T.lags
  writable : ∀ files, Around A K path count files₀ files →
    ∀ k ∈ reach A path count, A.host.writable k files = true
  cat : 0 < count → ∀ files, Around A K path count files₀ files →
    (∀ p ∈ partNames path count, ∃ content, files (resolve A.dir p) = some content) →
      (A.host.spawn ("cat" :: partNames path count) A.dir files).1.status = 0
  rm : 0 < count → ∀ files, Around A K path count files₀ files →
    (A.host.spawn ("rm" :: "-f" :: partNames path count) A.dir files).1.status = 0

/-- Why a write fails. -/
def Failed (A : Agent) (T : Trust) (K : Set String) (path : String) (count : ℕ) (files₀ : Files)
    (x : Fault) : Prop :=
  (x.IsGuestAgentError ∨ x = .raw ∧ T.raises) ∧ ¬ Healthy A T K path count files₀

theorem Excused.failed {x : Fault} (h : Excused T x) : Failed A T K path count files₀ x :=
  ⟨h.1, fun hh => h.2.elim hh.raises hh.lags⟩

/-- Off the file and its parts. -/
def Apart (A : Agent) (K : Set String) (path : String) : Prop :=
  resolve A.dir path ∉ K ∧ ∀ n, resolve A.dir (partName path n) ∉ K

theorem path_mem_reach (A : Agent) (path : String) (count : ℕ) :
    resolve A.dir path ∈ reach A path count := .inl rfl

theorem part_mem_reach {n : ℕ} (h : n < count) :
    resolve A.dir (partName path n) ∈ reach A path count := .inr ⟨n, h, rfl⟩

/-- A file that is written in one call. -/
theorem postWrite_wp {file : String} {bytes : Shell.Bytes} (hP : P.Keeps A.host K)
    (honly : w.machine.Only P) (hshort : (Base64.encode bytes).length ≤ maxEncodedWriteLen)
    (hfile : resolve A.dir file ∈ reach A path count)
    (hsame : Around A K path count files₀ w.machine.files) :
    (postWrite vm file (Base64.encode bytes)).wp (.ofSem (sem A T) fun _ => True)
      (fun _ w' => Steady P (K ∪ {resolve A.dir file}) w.machine w'.machine ∧
        w'.machine.files (resolve A.dir file) = some bytes)
      (fun x _ => Failed A T K path count files₀ x) w := by
  refine Prog.wp_reraise
    (Prog.wp_perform.mpr ⟨trivial, fun _ w₁ hsem => ?_, fun x w₁ hsem => ?_⟩)
  · obtain ⟨⟨m, hsettles, ⟨-, bytes', hencode, hfiles⟩, hprocesses⟩, -, -⟩ := hsem
    obtain rfl := Base64.encode_injective hencode
    have hm : Steady P (K ∪ {resolve A.dir file}) w.machine m :=
      (Steady.start honly).settles hP Set.subset_union_left hsettles
    refine ⟨hm.change hprocesses fun k hk => ?_, ?_⟩
    · rw [hfiles, Function.update_of_ne fun heq => hk (.inr heq)]
    · rw [hfiles, Function.update_self]
  · obtain ⟨⟨m, hsettles, ⟨hwhy, -⟩, -⟩, -, hraw⟩ := hsem
    have hm : Steady P K w.machine m := (Steady.start honly).settles hP subset_rfl hsettles
    rw [hraw x rfl]
    refine ⟨rfl, .inl trivial, fun hh => ?_⟩
    rcases hwhy with h | h | h
    · exact hh.raises h
    · have hlimit : maxEncodedWriteLen ≤ contentLimit := by decide
      omega
    · rw [hh.writable _ (hsame.trans (hm.files.mono Set.subset_union_left)) _ hfile] at h
      cases h

theorem wp_suppress {p : Act Unit} {Q : Unit → World → Prop} {E : Fault → World → Prop}
    {G : Prog.Logic sig Fault World}
    (hp : p.wp G Q (fun x w => (x.IsGuestAgentError ∧ Q () w) ∨ (x = .raw ∧ E .raw w)) w) :
    (suppress p).wp G Q E w := by
  show (Prog.tryCatch p _).wp G Q E w
  rw [Prog.wp_tryCatch]
  refine Prog.wp_mono (fun _ _ hQ => hQ) (fun x w hx => ?_) hp
  rcases hx with ⟨hx, hQ⟩ | ⟨rfl, hE⟩
  · cases x with
    | raw => exact absurd hx id
    | spins => exact absurd hx id
    | _ => exact hQ
  · exact hE

/-- Nothing is known of the files. -/
theorem outlook_any (host : Shell.Host) (P : Kind) (argv : List String) (dir : String) :
    Outlook host P argv dir (fun _ => True) fun _ _ => True where
  ends := fun _ _ _ _ _ => trivial
  before := fun _ _ _ _ _ _ _ _ => trivial
  after := fun _ _ _ _ _ _ _ _ _ => trivial

/-- Whatever the machine is doing, cleaning up raises what a call has raised, and nothing else. -/
theorem cleanup_excused (parts : List String) :
    (cleanup vm parts).wp (.ofSem (sem A T) fun _ => True) (fun _ _ => True)
      (fun x _ => x = .raw ∧ T.raises) w := by
  unfold cleanup
  split_ifs
  · trivial
  · refine wp_suppress (Prog.wp_seq (Q := fun _ _ => True) (P := fun _ _ => True) ?_
      fun _ _ _ => trivial)
    refine Prog.wp_mono (fun _ _ _ => trivial) (fun x _ hx => ?_)
      (runExec_wp (P := fun _ _ => True) vm 60000 (outlook_any ..) (fun _ _ _ _ => trivial) trivial)
    exact hx.1.1.imp (fun h => ⟨h, trivial⟩) fun h => ⟨h.1, rfl, h.2⟩

/-- The processes that may be left when the parts were taken away. -/
def orRemoves (A : Agent) (P : Kind) (path : String) (count : ℕ) : Kind := fun a d =>
  P a d ∨ Harmless A.host (partPlaces A path count) a d

/-- Taking the parts away changes no other files. -/
theorem harmless_rm {parts : List String} {count : ℕ} (U : Coreutils A.host) (hpath : Usable path)
    (hparts : ArePartsOf path count parts) (hne : parts ≠ []) :
    Harmless A.host (partPlaces A path count) ["sh", "-c", rmLine parts] A.dir := by
  intro files e files' hends k hk
  refine (rm_ends U hne (hparts.usable hpath) hends).2.1 k fun hmem => hk ?_
  obtain ⟨p, hp, rfl⟩ := List.mem_map.mp hmem
  obtain ⟨n, hn, rfl⟩ := hparts p hp
  exact ⟨n, hn, rfl⟩

/-- The file has this content, if the processes keep off it. -/
def Unchanged (A : Agent) (K : Set String) (path : String) (content : Option Shell.Bytes) (files : Files) :
    Prop :=
  resolve A.dir path ∉ K → files (resolve A.dir path) = content

/-- In a healthy guest all the parts are gone, if the processes keep off them. -/
def Removed (A : Agent) (T : Trust) (K : Set String) (path : String) (count : ℕ) (files₀ : Files)
    (parts : List String) (files : Files) : Prop :=
  Healthy A T K path count files₀ → Apart A K path → parts = partNames path count →
    ∀ p ∈ parts, files (resolve A.dir p) = none

theorem leaves_unchanged (hP : P.Keeps A.host K) (content : Option Shell.Bytes) :
    Leaves A.host P (Unchanged A K path content) :=
  fun a d ha files e files' hends h hK => (hP a d ha files e files' hends _ hK).trans (h hK)

theorem outlook_rm {parts : List String} (U : Coreutils A.host) (hpath : Usable path)
    (hparts : ArePartsOf path count parts) (hne : parts ≠ []) (hP : P.Keeps A.host K)
    (content : Option Shell.Bytes) :
    Outlook A.host P ["sh", "-c", rmLine parts] A.dir
      (fun files => Unchanged A K path content files ∧ Around A K path count files₀ files)
      fun _ files => Unchanged A K path content files ∧ Removed A T K path count files₀ parts files := by
  refine ⟨fun files e files' h hends => ⟨fun hK => ?_, fun hh _ hall => ?_⟩,
    fun a d ha files e files' hends h => ⟨leaves_unchanged hP content a d ha files e files' hends h.1,
      hP.sameBut Set.subset_union_left files₀ a d ha files e files' hends h.2⟩,
    fun _ a d ha files e files' hends h => ⟨leaves_unchanged hP content a d ha files e files' hends h.1,
      fun hh hapart hall p hp => ?_⟩⟩
  · have hplace : resolve A.dir path ∉ partPlaces A path count := by
      rintro ⟨n, -, heq⟩
      exact resolve_partName_ne _ _ n heq.symm
    exact (harmless_rm U hpath hparts hne files e files' hends _ hplace).trans (h.1 hK)
  · obtain ⟨rfl, -, hgone⟩ := rm_ends U hne (hparts.usable hpath) hends
    subst hall
    have hcount : 0 < count := by
      rw [partNames, ne_eq, List.map_eq_nil_iff, List.range_eq_nil] at hne
      omega
    exact hgone (hh.rm hcount files h.2)
  · obtain ⟨n, -, rfl⟩ := hparts p hp
    exact (hP a d ha files e files' hends _ (hapart.2 n)).trans (h.2 hh hapart hall _ hp)

/-- The parts are taken away, or the process is left that should do so; and the file is left alone if
the processes keep off it. -/
theorem cleanup_wp {parts : List String} (U : Coreutils A.host) (hpath : Usable path)
    (hparts : ArePartsOf path count parts) (hP : P.Keeps A.host K) (honly : w.machine.Only P)
    (hsame : Around A K path count files₀ w.machine.files) :
    (cleanup vm parts).wp (.ofSem (sem A T) fun _ => True)
      (fun _ w' => w'.machine.Only (orRemoves A P path count) ∧
        Unchanged A K path (w.machine.files (resolve A.dir path)) w'.machine.files ∧
        (Healthy A T K path count files₀ → w'.machine.Only P ∧
          Removed A T K path count files₀ parts w'.machine.files))
      (fun x _ => x = .raw ∧ T.raises) w := by
  unfold cleanup
  split_ifs with hempty
  · subst hempty
    exact ⟨honly.mono fun _ _ => .inl, fun _ => rfl, fun _ => ⟨honly, fun _ _ _ p hp =>
      absurd hp (List.not_mem_nil)⟩⟩
  have hrun := runExec_wp (A := A) (T := T) (w := w) vm 60000
    (outlook_rm (T := T) U hpath hparts hempty hP (w.machine.files (resolve A.dir path))) honly
    ⟨fun _ => rfl, hsame⟩
  refine wp_suppress (Prog.wp_seq (P := fun _ w' => w'.machine.Only (orRemoves A P path count) ∧
    Unchanged A K path (w.machine.files (resolve A.dir path)) w'.machine.files ∧
    (Healthy A T K path count files₀ → w'.machine.Only P ∧
      Removed A T K path count files₀ parts w'.machine.files)) ?_
    fun _ _ h => by exact h)
  refine Prog.wp_mono (fun res w' h => ?_) (fun x w' h => ?_) hrun
  · obtain ⟨honly', e, ⟨hfile, hgone⟩, -⟩ := h
    exact ⟨honly'.mono fun _ _ => .inl, hfile, fun _ => ⟨honly', hgone⟩⟩
  -- The request was lost or timed out: rm may still run, but only on the parts.
  · obtain ⟨⟨hkind, hwhy⟩, hlaunched⟩ := h
    refine hkind.imp (fun hx => ⟨hx, ?_, ?_, fun hh => (hwhy.elim hh.raises hh.lags).elim⟩)
      fun hx => ⟨hx.1, rfl, hx.2⟩
    · refine hlaunched.kind.mono fun a d h => h.imp_right ?_
      rintro ⟨rfl, rfl⟩
      exact harmless_rm U hpath hparts hempty
    · rcases hlaunched with ⟨-, hfile, -⟩ | ⟨pid, hbeside⟩
      · exact hfile
      · rcases hbeside.stage with ⟨-, hfile, -⟩ | ⟨-, -, hfile, -⟩
        · exact hfile
        · exact hfile

/-- The part files are there, with the pieces in them. -/
def Staged (A : Agent) (path : String) (pieces : List Shell.Bytes) (files : Files) : Prop :=
  ∀ n (h : n < pieces.length), files (resolve A.dir (partName path n)) = some (pieces.get ⟨n, h⟩)

theorem Staged.map {pieces : List Shell.Bytes} {files : Files} (h : Staged A path pieces files) :
    (partNames path pieces.length).map (fun p => files (resolve A.dir p)) = pieces.map some := by
  rw [partNames, List.map_map]
  refine List.ext_get (by simp) fun n hn₁ hn₂ => ?_
  have hn : n < pieces.length := by simpa using hn₂
  simpa using h n hn

theorem leaves_staged (hP : P.Keeps A.host K) (hapart : Apart A K path) (pieces : List Shell.Bytes) :
    Leaves A.host P (Staged A path pieces) :=
  fun a d ha files e files' hends h n hn =>
    (hP a d ha files e files' hends _ (hapart.2 n)).trans (h n hn)

/-- After a `cat` that says so, the file has the pieces, one after the other; and it does say so in a
healthy guest. -/
structure Joined (A : Agent) (T : Trust) (K : Set String) (path : String) (files₀ : Files)
    (pieces : List Shell.Bytes) (e : Ended) (files : Files) : Prop where
  file : e.status = 0 → files (resolve A.dir path) = some pieces.flatten
  status : Healthy A T K path pieces.length files₀ → e.status = 0
  around : Around A K path pieces.length files₀ files

theorem outlook_cat {pieces : List Shell.Bytes} (U : Coreutils A.host) (hpath : Usable path)
    (hpieces : pieces ≠ []) (hP : P.Keeps A.host K) (hapart : Apart A K path) :
    Outlook A.host P ["sh", "-c", catLine path (partNames path pieces.length)] A.dir
      (fun files => Staged A path pieces files ∧ Around A K path pieces.length files₀ files)
      (Joined A T K path files₀ pieces) := by
  have hne : partNames path pieces.length ≠ [] := by simpa [partNames] using hpieces
  have hparts := arePartsOf_partNames path pieces.length
  have haround := hP.sameBut (F := K ∪ reach A path pieces.length) Set.subset_union_left files₀
  refine ⟨fun files e files' ⟨hstaged, hsame⟩ hends => ⟨fun hzero => ?_, fun hh => ?_, ?_⟩,
    fun a d ha files e files' hends h => ⟨leaves_staged hP hapart pieces a d ha files e files' hends h.1,
      haround a d ha files e files' hends h.2⟩,
    fun e a d ha files e' files' hends h => ⟨fun hzero => ?_, h.status,
      haround a d ha files e' files' hends h.around⟩⟩
  · have hplace : resolve A.dir path ∉ (partNames path pieces.length).map (resolve A.dir) := by
      intro hmem
      obtain ⟨p, hp, heq⟩ := List.mem_map.mp hmem
      obtain ⟨n, -, rfl⟩ := hparts p hp
      exact resolve_partName_ne _ _ n heq
    obtain ⟨contents, hcontents, hfile⟩ :=
      (cat_ends U hne (hparts.usable hpath) hpath hends).2 hzero hplace
    rw [hstaged.map] at hcontents
    rw [List.map_injective_iff.mpr (fun _ _ => Option.some.inj) hcontents]
    exact hfile
  · -- In a healthy guest `cat` finds its files, and the shell can write.
    have hdash : ∀ p ∈ partNames path pieces.length, Shell.startsDash p = false :=
      fun p hp => (hparts.usable hpath p hp).2
    have hnul : ∀ a ∈ "cat" :: partNames path pieces.length, Shell.nul ∉ a.toList :=
      List.forall_mem_cons.mpr ⟨by decide, fun p hp => (hparts.usable hpath p hp).1⟩
    have hrun := Shell.run_redirect A.dir files hnul hpath.1 U.cat_names
    rw [← catLine_eq hne, if_pos (hh.writable files hsame _ (path_mem_reach A path _))] at hrun
    dsimp only at hrun
    rw [U.cat_quiet _ _ _ hdash, Function.update_self, if_pos rfl] at hrun
    have hstart : start A.host ["sh", "-c", catLine path (partNames path pieces.length)] A.dir files =
        Shell.run A.host (catLine path (partNames path pieces.length)) A.dir files := by
      rw [start, if_pos (.inl rfl)]
    obtain ⟨rfl, -⟩ := hends.eq (hstart.trans hrun)
    -- The shell has emptied the file by then.
    have hemptied : Around A K path pieces.length files₀
        (Function.update files (resolve A.dir path) (some [])) := by
      refine hsame.trans fun k hk => Function.update_of_ne (fun heq => hk (.inr ?_)) ..
      rw [heq]
      exact path_mem_reach A path _
    refine hh.cat (List.length_pos_of_ne_nil hpieces) _ hemptied fun p hp => ?_
    obtain ⟨n, hn, rfl⟩ := List.mem_map.mp hp
    refine ⟨pieces.get ⟨n, List.mem_range.mp hn⟩, ?_⟩
    rw [Function.update_of_ne (resolve_partName_ne _ _ n)]
    exact hstaged n (List.mem_range.mp hn)
  · refine hsame.trans fun k hk =>
      (cat_ends U hne (hparts.usable hpath) hpath hends).1 k fun heq => hk (.inr ?_)
    rw [heq]
    exact path_mem_reach A path _
  · exact (hP a d ha files e' files' hends _ hapart.1).trans (h.file hzero)

/-- **The parts are put together**: the file has the pieces, one after the other. -/
theorem assemble_wp {pieces : List Shell.Bytes} (U : Coreutils A.host) (hpath : Usable path)
    (hpieces : pieces ≠ []) (hP : P.Keeps A.host K) (hapart : Apart A K path)
    (honly : w.machine.Only P) (hstaged : Staged A path pieces w.machine.files)
    (hsame : Around A K path pieces.length files₀ w.machine.files) :
    (assemble vm path (partNames path pieces.length)).wp (.ofSem (sem A T) fun _ => True)
      (fun _ w' => w'.machine.Only P ∧
        w'.machine.files (resolve A.dir path) = some pieces.flatten ∧
          Around A K path pieces.length files₀ w'.machine.files)
      (fun x _ => Failed A T K path pieces.length files₀ x) w := by
  refine Prog.wp_seq (Prog.wp_mono (fun _ _ h => h) (fun _ _ h => h.1.failed)
    (runExec_wp vm 120000 (outlook_cat (T := T) U hpath hpieces hP hapart) honly ⟨hstaged, hsame⟩)) ?_
  rintro _ w₁ ⟨honly₁, e, hjoined, rfl⟩
  show (if (e.status : ℤ) ≠ 0 then _ else _ : Act Unit).wp _ _ _ _
  split_ifs with hstatus
  · exact ⟨.inl trivial, fun hh => hstatus (Int.natCast_eq_zero.mpr (hjoined.status hh))⟩
  · exact ⟨honly₁, hjoined.file (by simpa using hstatus), hjoined.around⟩

/-- What a write in parts leaves behind. -/
structure Assembled (A : Agent) (T : Trust) (P : Kind) (K : Set String) (path : String)
    (files₀ : Files) (pieces : List Shell.Bytes) (w' : World) : Prop where
  file : w'.machine.files (resolve A.dir path) = some pieces.flatten
  clean : Healthy A T K path pieces.length files₀ → w'.machine.Only P ∧
    ∀ n < pieces.length, w'.machine.files (resolve A.dir (partName path n)) = none

/-- With one more part. -/
theorem Staged.concat {files files' : Files} {done : List Shell.Bytes} {piece : Shell.Bytes}
    (h : Staged A path done files) (hapart : Apart A K path)
    (hsame : SameBut (K ∪ {resolve A.dir (partName path done.length)}) files files')
    (hpart : files' (resolve A.dir (partName path done.length)) = some piece) :
    Staged A path (done ++ [piece]) files' := by
  intro n hn
  by_cases hlast : n = done.length
  · subst hlast
    rw [hpart]
    simp
  · rw [List.length_append, List.length_singleton] at hn
    have hother : resolve A.dir (partName path n) ∉
        K ∪ {resolve A.dir (partName path done.length)} := by
      rintro (hmem | heq)
      · exact hapart.2 n hmem
      · exact hlast (resolve_partName_injective _ _ heq)
    rw [hsame _ hother, h n (by omega)]
    simp [List.getElem_append_left (show n < done.length by omega)]

/-- The parts are written one after another, by induction on those that are left. -/
theorem stageParts_wp (vm : String) (done pieces : List Shell.Bytes) (U : Coreutils A.host)
    (hpath : Usable path) (hne : done ++ pieces ≠ []) (hP : P.Keeps A.host K)
    (hapart : Apart A K path) (honly : w.machine.Only P) (hstaged : Staged A path done w.machine.files)
    (hsame : Around A K path (done ++ pieces).length files₀ w.machine.files)
    (hshort : ∀ piece ∈ pieces, piece.length ≤ rawWriteChunk) :
    (stageParts vm path done.length (partNames path done.length) pieces).wp
      (.ofSem (sem A T) fun _ => True)
      (fun _ w' => Assembled A T P K path files₀ (done ++ pieces) w')
      (fun x _ => Failed A T K path (done ++ pieces).length files₀ x) w := by
  -- By induction on the pieces to come; `done` is what the parts hold already.
  induction pieces generalizing done w with
  | nil =>
    rw [List.append_nil] at hne hsame ⊢
    show (Prog.tryFinally _ _).wp _ _ _ _
    rw [Prog.wp_tryFinally]
    refine Prog.wp_mono (fun _ w₁ h => ?_) (fun x w₁ h => ?_)
      (assemble_wp U hpath hne hP hapart honly hstaged hsame)
    · refine Prog.wp_mono (fun _ w₂ h₂ => ?_) (fun x w₂ h₂ => ?_)
        (cleanup_wp U hpath (arePartsOf_partNames _ _) hP h.1 h.2.2)
      · refine ⟨(h₂.2.1 hapart.1).trans h.2.1, fun hh => ⟨(h₂.2.2 hh).1, fun n hn => ?_⟩⟩
        exact (h₂.2.2 hh).2 hh hapart rfl _ (List.mem_map.mpr ⟨n, List.mem_range.mpr hn, rfl⟩)
      · exact ⟨.inr h₂, fun hh => hh.raises h₂.2⟩
    · refine Prog.wp_mono (fun _ _ _ => h) (fun x w₂ h₂ => ?_) (cleanup_excused _)
      exact ⟨.inr h₂, fun hh => hh.raises h₂.2⟩
  | cons piece pieces ih =>
    have hpiece := hshort piece List.mem_cons_self
    have hencoded : (Base64.encode piece).length ≤ maxEncodedWriteLen := by
      rw [Base64.length_encode]
      have hsize : rawWriteChunk = 45000 := by decide
      have hcap : maxEncodedWriteLen = 60000 := rfl
      omega
    show (Prog.bind (Prog.attempt (postWrite vm (partName path done.length) (Base64.encode piece)))
      _).wp _ _ _ _
    rw [Prog.wp_bind, Prog.wp_attempt]
    refine Prog.wp_mono (fun _ w₁ h => ?_) (fun x w₁ h => ?_)
      (postWrite_wp hP honly hencoded (part_mem_reach (by simp)) hsame)
    · have hstaged₁ := hstaged.concat hapart h.1.files h.2
      have hnames : partNames path done.length ++ [partName path done.length] =
          partNames path (done ++ [piece]).length := by
        simp [partNames, List.range_succ]
      have hall : done ++ [piece] ++ pieces = done ++ piece :: pieces := by simp
      have hsame₁ : Around A K path (done ++ [piece] ++ pieces).length files₀ w₁.machine.files := by
        rw [hall]
        refine hsame.trans (h.1.files.mono (Set.union_subset_union_right K ?_))
        rintro k rfl
        exact part_mem_reach (by simp)
      have hrest := ih (done ++ [piece]) (by simp) h.1.only hstaged₁ hsame₁
        fun p hp => hshort p (List.mem_cons_of_mem _ hp)
      rw [hall, ← hnames, List.length_append, List.length_singleton] at hrest
      exact hrest
    · -- The part is not there, and what was written before it is removed.
      show (Prog.bind (cleanup vm _) _).wp _ _ _ _
      rw [Prog.wp_bind]
      refine Prog.wp_mono (fun _ _ _ => h) (fun x w₂ h₂ => ?_) (cleanup_excused _)
      exact ⟨.inr h₂, fun hh => hh.raises h₂.2⟩

/-- When a write in parts returns, its `cat` has ended; the `rm` may be left. -/
theorem stageParts_left {n count : ℕ} {parts : List String} {pieces : List Shell.Bytes}
    (U : Coreutils A.host) (hpath : Usable path) (hcount : n + pieces.length = count)
    (hparts : ArePartsOf path count parts) (hP : P.Keeps A.host K) (honly : w.machine.Only P) :
    (stageParts vm path n parts pieces).wp (.ofSem (sem A T) fun _ => True)
      (fun _ w' => w'.machine.Only (orRemoves A P path count)) (fun _ _ => True) w := by
  -- Whatever fails, all that is left behind are removals of the parts.
  induction pieces generalizing n parts w with
  | nil =>
    show (Prog.tryFinally _ _).wp _ _ _ _
    rw [Prog.wp_tryFinally]
    have hassemble : (assemble vm path parts).wp (.ofSem (sem A T) fun _ => True)
        (fun _ w' => w'.machine.Only P) (fun _ _ => True) w := by
      refine Prog.wp_seq (Prog.wp_mono (fun _ _ h => h.1) (fun _ _ _ => trivial)
        (runExec_wp vm 120000 (outlook_any ..) honly trivial)) fun res w₁ h => ?_
      split_ifs
      · trivial
      · exact h
    refine Prog.wp_mono (fun _ w₁ h => ?_) (fun x w₁ _ => Prog.wp_any) hassemble
    exact Prog.wp_mono (fun _ _ h₂ => h₂.1) (fun _ _ _ => trivial) (cleanup_wp U hpath hparts hP h (.refl _ _))
  | cons piece pieces ih =>
    rw [List.length_cons] at hcount
    show (Prog.bind (Prog.attempt (postWrite vm (partName path n) (Base64.encode piece))) _).wp _ _ _ _
    rw [Prog.wp_bind, Prog.wp_attempt]
    have hpost : (postWrite vm (partName path n) (Base64.encode piece)).wp
        (.ofSem (sem A T) fun _ => True) (fun _ w' => w'.machine.Only P) (fun _ _ => True) w := by
      refine Prog.wp_reraise
        (Prog.wp_perform.mpr ⟨trivial, fun _ w₁ hsem => ?_, fun x w₁ hsem => ?_⟩)
      · obtain ⟨⟨m, hsettles, -, hprocesses⟩, -, -⟩ := hsem
        have hm : Steady P K w.machine m := (Steady.start honly).settles hP subset_rfl hsettles
        intro pid a d hrunning
        rw [hprocesses] at hrunning
        exact hm.only pid a d hrunning
      · obtain ⟨-, -, hraw⟩ := hsem
        rw [hraw x rfl]
        exact ⟨rfl, trivial⟩
    refine Prog.wp_mono (fun _ w₁ h => ?_) (fun x w₁ _ => ?_) hpost
    · refine ih (by omega) (fun p hp => ?_) h
      rcases List.mem_append.mp hp with hp | hp
      · exact hparts p hp
      · exact ⟨n, by omega, List.mem_singleton.mp hp⟩
    · show (Prog.bind (cleanup vm parts) _).wp _ _ _ _
      rw [Prog.wp_bind]
      exact Prog.wp_mono (fun _ _ _ => trivial) (fun _ _ _ => trivial) (Prog.wp_any (p := cleanup vm parts))

/-- What a write may leave running. -/
theorem writeFile_left (U : Coreutils A.host) (hpath : Usable path) (hP : P.Keeps A.host K)
    (honly : w.machine.Only P) :
    (writeFile vm path data).wp (.ofSem (sem A T) fun _ => True)
      (fun _ w' => w'.machine.Only (orRemoves A P path (partCount data))) (fun _ _ => True) w := by
  unfold writeFile partCount
  dsimp only
  split_ifs with hshort
  · exact Prog.wp_mono (fun _ _ h => h.1.only.mono fun _ _ => .inl) (fun _ _ _ => trivial)
      (postWrite_wp hP honly hshort (path_mem_reach A path 0) (.refl _ _))
  · exact stageParts_left U hpath (Nat.zero_add _) (fun p hp => absurd hp (List.not_mem_nil)) hP honly

/-- **A file that is written**, in one call or in parts: when that returns, nothing but an `rm` of the
parts may be left to run, and the file has the data if other processes keep off it and its parts.
Other files are left alone whatever happens.  In a healthy guest it returns, and the parts are gone. -/
theorem writeFile_wp (U : Coreutils A.host) (hpath : Usable path) (hP : P.Keeps A.host K)
    (honly : w.machine.Only P) :
    (writeFile vm path data).wp (.ofSem (sem A T) fun _ => True)
      (fun _ w' => Steady (orRemoves A P path (partCount data)) (K ∪ reach A path (partCount data))
          w.machine w'.machine ∧
        (Apart A K path → w'.machine.files (resolve A.dir path) = some data ∧
          (Healthy A T K path (partCount data) w.machine.files → w'.machine.Only P ∧
            ∀ n < partCount data, w'.machine.files (resolve A.dir (partName path n)) = none)))
      (fun x w' => Steady (fun a d => P a d ∨ Harmless A.host (reach A path (partCount data)) a d)
          (K ∪ reach A path (partCount data)) w.machine w'.machine ∧
        (Apart A K path → Failed A T K path (partCount data) w.machine.files x)) w := by
  -- Whatever comes of the calls, they stay within the footprint of the write.
  have hframe := (within_writeFile vm data U hpath).wp
    (G := .ofSem (sem A T) fun _ => True)
    (I := fun w' => Steady (fun a d => P a d ∨ Harmless A.host (reach A path (partCount data)) a d)
      (K ∪ reach A path (partCount data)) w.machine w'.machine) (fun _ _ _ _ => trivial)
    (fun o l r l' hfoot hl hsem => steady_step hP hfoot hl hsem) (l := w)
    (.start (honly.mono fun _ _ => .inl))
  -- The content is what was written where the other processes keep off.
  have hcontent (hapart : Apart A K path) :
      (writeFile vm path data).wp (.ofSem (sem A T) fun _ => True)
        (fun _ w' => w'.machine.files (resolve A.dir path) = some data ∧
          (Healthy A T K path (partCount data) w.machine.files → w'.machine.Only P ∧
            ∀ n < partCount data, w'.machine.files (resolve A.dir (partName path n)) = none))
        (fun x _ => Failed A T K path (partCount data) w.machine.files x) w := by
    unfold writeFile partCount
    dsimp only
    split_ifs with hshort
    · refine Prog.wp_mono (fun _ w' h => ?_) (fun _ _ hx => hx)
        (postWrite_wp hP honly hshort (path_mem_reach A path 0) (.refl _ _))
      exact ⟨h.2, fun _ => ⟨h.1.only, fun n hn => absurd hn (Nat.not_lt_zero n)⟩⟩
    · have hstage := stageParts_wp (T := T) vm [] (slices rawWriteChunk data) U hpath
        (slices_ne_nil hshort) hP hapart honly (fun n hn => absurd hn (Nat.not_lt_zero n))
        (.refl _ _) fun piece hpiece => length_of_mem_slices hpiece
      refine Prog.wp_mono (fun _ w' h => ?_) (fun _ _ hx => hx) hstage
      rw [List.nil_append] at h
      exact ⟨by rw [h.file, flatten_slices (by decide)], h.clean⟩
  have hleft : (writeFile vm path data).wp (.ofSem (sem A T) fun _ => True)
      (fun _ w' => w'.machine.Only (orRemoves A P path (partCount data))) (fun _ _ => True) w :=
    writeFile_left U hpath hP honly
  by_cases hapart : Apart A K path
  · refine Prog.wp_mono (fun _ w' h => ?_) (fun _ _ h => ⟨h.1, fun _ => h.2.2⟩)
      (Prog.wp_and hframe (Prog.wp_and hleft (hcontent hapart)))
    exact ⟨⟨h.2.1, h.1.files⟩, fun _ => h.2.2⟩
  · refine Prog.wp_mono (fun _ w' h => ?_) (fun _ _ h => ⟨h.1, fun h' => absurd h' hapart⟩)
      (Prog.wp_and hframe hleft)
    exact ⟨⟨h.2, h.1.files⟩, fun h' => absurd h' hapart⟩

end Laws

/-! ### Runs -/

theorem map_of_mapM {f : String → Option Shell.Bytes} {names : List String} {contents : List Shell.Bytes}
    (h : names.mapM f = some contents) : names.map f = contents.map some := by
  induction names generalizing contents with
  | nil =>
    cases h
    rfl
  | cons name names ih =>
    rw [List.mapM_cons, Option.bind_eq_bind, Option.bind_eq_some_iff] at h
    obtain ⟨content, hcontent, h⟩ := h
    rw [Option.bind_eq_bind, Option.bind_eq_some_iff] at h
    obtain ⟨rest, hrest, h⟩ := h
    cases h
    rw [List.map_cons, List.map_cons, hcontent, ih hrest]

theorem exists_mapM {f : String → Option Shell.Bytes} {names : List String}
    (h : ∀ name ∈ names, ∃ content, f name = some content) : ∃ contents, names.mapM f = some contents := by
  induction names with
  | nil => exact ⟨[], rfl⟩
  | cons name names ih =>
    obtain ⟨content, hcontent⟩ := h name List.mem_cons_self
    obtain ⟨rest, hrest⟩ := ih fun name' hname' => h name' (List.mem_cons_of_mem _ hname')
    exact ⟨content :: rest, by simp [List.mapM_cons, hcontent, hrest]⟩

theorem plainHost_coreutils : Coreutils plainHost where
  cat_names := plainHost_names (by simp)
  rm_names := plainHost_names (by simp)
  cat_quiet names dir files _ := by
    rw [plainHost_cat]
    split <;> rfl
  cat_stdout names dir files _ hstatus := by
    rw [plainHost_cat] at hstatus ⊢
    split at hstatus
    · rename_i contents hcontents
      exact ⟨contents, map_of_mapM hcontents, rfl⟩
    · cases hstatus
  rm_others names dir files _ k hk := by
    unfold plainHost
    exact if_neg hk
  rm_gone names dir files _ _ name hname := by
    unfold plainHost
    exact if_pos (List.mem_map_of_mem hname)

/-- The host does what a write asks for, whatever files it has. -/
theorem healthy_plain (path : String) (count : ℕ) (files : Files) :
    Healthy plainAgent ⟨False, False⟩ ∅ path count files where
  raises := id
  lags := id
  writable _ _ _ _ := rfl
  cat _ files' _ hparts := by
    obtain ⟨contents, hcontents⟩ := exists_mapM hparts
    show (plainHost.spawn _ _ _).1.status = 0
    rw [plainHost_cat, hcontents]
  rm _ _ _ := rfl

section Ends

variable {A : Agent} {T : Trust} {vm path file : String} {argv parts : List String} {w : World}

/-- Any command may be run at once, and then returns. -/
theorem runExec_ends (vm : String) (argv : List String) (timeout : ℕ) (hroom : w.machine.Roomy) :
    ∃ res w', Prog.Ends (sem A T) (runExec vm argv timeout) w (.ok res) w' ∧ w'.machine.Roomy := by
  obtain ⟨pid, hfree, hroomy⟩ := hroom.fresh
  obtain ⟨e, files', hends⟩ := Ends.exist A.host argv A.dir w.machine.files
  let w₁ : World :=
    ⟨⟨w.machine.files, Function.update w.machine.processes pid (some (.running argv A.dir))⟩, w.clock⟩
  let w₂ : World := ⟨⟨files', Function.update w.machine.processes pid (some (.exited e))⟩, w.clock⟩
  have hclock : sem A T .monotonic w (.ok w.clock) w :=
    ⟨⟨w.machine, .refl, ⟨_, rfl, Nat.le_refl _, Nat.le_refl _⟩, rfl⟩, Nat.le_refl _, fun _ h => by cases h⟩
  have hexec : sem A T (.exec argv) w (.ok pid) w₁ :=
    ⟨⟨w.machine, .refl, hfree, rfl⟩, Nat.le_refl _, fun _ h => by cases h⟩
  have hended : w₂.machine.processes pid = some (.exited e) := Function.update_self ..
  have hstatus : sem A T (.execStatus pid) w₁ (.ok (statusOf A (some e))) w₂ :=
    ⟨⟨w₂.machine, hends.settles w.machine.processes pid, ⟨some e, hended, rfl⟩, rfl⟩,
      Nat.le_refl _, fun _ h => by cases h⟩
  refine ⟨A.report e, w₂, .call hclock (.call hexec (.call hstatus ?_)), hroomy files' _⟩
  show Prog.Ends _ (((statusOf A (some e)).result).bind _) _ _ _
  rw [result_statusOf]
  exact .ret _ _

theorem postWrite_ends (vm file : String) {bytes : Shell.Bytes} (hroom : w.machine.Roomy)
    (hshort : (Base64.encode bytes).length ≤ maxEncodedWriteLen) :
    ∃ w', Prog.Ends (sem A T) (postWrite vm file (Base64.encode bytes)) w (.ok ()) w' ∧
      w'.machine.Roomy := by
  have hlimit : (Base64.encode bytes).length ≤ contentLimit := hshort.trans (by decide)
  let w' : World := ⟨⟨Function.update w.machine.files (resolve A.dir file) (some bytes),
    w.machine.processes⟩, w.clock⟩
  have hwrite : sem A T (.fileWrite file (Base64.encode bytes)) w (.ok ()) w' :=
    ⟨⟨w.machine, .refl, ⟨hlimit, bytes, rfl, rfl⟩, rfl⟩, Nat.le_refl _, fun _ h => by cases h⟩
  exact ⟨w', .call hwrite (.ret _ _), hroom⟩

theorem cleanup_ends (vm : String) (parts : List String) (hroom : w.machine.Roomy) :
    ∃ w', Prog.Ends (sem A T) (cleanup vm parts) w (.ok ()) w' := by
  unfold cleanup
  split_ifs
  · exact ⟨w, .ret _ _⟩
  · obtain ⟨res, w', hends, -⟩ := runExec_ends (A := A) (T := T) vm ["sh", "-c", rmLine parts] 60000 hroom
    have hdone : Prog.Ends (sem A T)
        (runExec vm ["sh", "-c", rmLine parts] 60000 >>= fun _ => pure ()) w (.ok ()) w' :=
      .bind hends (.ret () w')
    exact ⟨w', hdone.tryCatch _⟩

theorem stageParts_ends {n : ℕ} {pieces : List Shell.Bytes} (hroom : w.machine.Roomy)
    (hshort : ∀ piece ∈ pieces, piece.length ≤ rawWriteChunk) :
    ∃ out w', Prog.Ends (sem A T) (stageParts vm path n parts pieces) w out w' := by
  induction pieces generalizing n parts w with
  | nil =>
    obtain ⟨res, w₁, hcat, hroom₁⟩ :=
      runExec_ends (A := A) (T := T) vm ["sh", "-c", catLine path parts] 120000 hroom
    obtain ⟨w₂, hclean⟩ := cleanup_ends (A := A) (T := T) vm parts hroom₁
    obtain ⟨out, hout⟩ : ∃ out, Prog.Ends (sem A T) (assemble vm path parts) w out w₁ := by
      by_cases hzero : res.exitCode = 0
      · exact ⟨.ok (), .bind hcat (by rw [if_neg (not_not_intro hzero)]; exact .ret _ _)⟩
      · exact ⟨.error _, .bind hcat (by rw [if_pos hzero]; exact .raise _ _)⟩
    exact ⟨out, w₂, .tryFinally hout hclean⟩
  | cons piece pieces ih =>
    have hencoded : (Base64.encode piece).length ≤ maxEncodedWriteLen := by
      have hpiece := hshort piece List.mem_cons_self
      rw [Base64.length_encode]
      have hsize : rawWriteChunk = 45000 := by decide
      have hcap : maxEncodedWriteLen = 60000 := rfl
      omega
    obtain ⟨w₁, hpost, hroom₁⟩ := postWrite_ends (A := A) (T := T) vm (partName path n) hroom
      hencoded
    have hrest : ∃ out w₂, Prog.Ends (sem A T)
        (stageParts vm path (n + 1) (parts ++ [partName path n]) pieces) w₁ out w₂ :=
      ih hroom₁ fun p hp => hshort p (List.mem_cons_of_mem _ hp)
    obtain ⟨out, w₂, hrest⟩ := hrest
    exact ⟨out, w₂, .bind hpost.attempt hrest⟩

/-- **No write waits for an answer that may not come**: it may end, whatever is written. -/
theorem writeFile_ends (vm path : String) (data : Shell.Bytes) (hroom : w.machine.Roomy) :
    ∃ out w', Prog.Ends (sem A T) (writeFile vm path data) w out w' := by
  unfold writeFile
  dsimp only
  split_ifs with hshort
  · obtain ⟨w', hends, -⟩ := postWrite_ends (A := A) (T := T) vm path hroom hshort
    exact ⟨_, w', hends⟩
  · exact stageParts_ends hroom fun piece hpiece => length_of_mem_slices hpiece

end Ends

/-- Where nothing is. -/
def bareWorld : World := ⟨⟨fun _ => none, fun _ => none⟩, 0⟩

/-- One byte more than a part takes. -/
def longMotd : Shell.Bytes := List.replicate 45001 255

theorem partCount_longMotd : partCount longMotd = 2 := by
  have hsize : rawWriteChunk = 45000 := by decide
  have hcap : maxEncodedWriteLen = 60000 := rfl
  have hlength : longMotd.length = 45001 := List.length_replicate
  rw [partCount, if_neg (by rw [Base64.length_encode, hlength, hcap]; decide), slices, List.length_map,
    List.length_range, hlength, hsize]

end TestRange.Guest.Pve
