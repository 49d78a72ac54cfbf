/-
The guest operations of the ESXi driver, through VMware Tools.

Tools starts a program and says how it exited, and nothing of its output.  So a command runs in a
shell that writes its output and its status to files in the guest, which are read back and deleted.
A file goes through a transfer whose address is asked for first.

* `execute`, `readFile`, `writeFile` — what the driver binds to a VM;
* `Answer`, `sem` — what Tools does;
* `wrapper_ends` — what the line leaves behind that is given to the shell;
* `execute_wp`, `readFile_wp`, `writeFile_wp` — what comes of the requests.
-/
import TestRange.Drivers.Guest.Machine
import TestRange.Lib.Poll

namespace TestRange.Guest.Esxi

open Shell (Files Ended resolve)

/-! ### Calls -/

/-- What is raised: `GuestAgentError`, by what is wrong, and whatever a call raises. -/
inductive Fault
  | noCredential (vm : String)
  | noPassword (username vm : String)
  | execFailed (vm : String)
  | pollFailed (vm : String)
  | timedOut (argv : List String) (timeout : ℕ) (vm : String)
  | outputReadFailed (path vm : String)
  | readFailed (path vm : String)
  | writeFailed (path vm : String)
  | raw
  /-- A loop has used up its fuel. -/
  | spins

def Fault.IsGuestAgentError : Fault → Prop
  | .raw => False
  | .spins => False
  | _ => True

inductive Op
  | tokenHex
  | startProgram (programPath arguments workingDirectory : String)
  | listProcesses (pid : ℕ)
  | initiateFrom (guestFilePath : String)
  | guestFileGet (url : String)
  | initiateTo (guestFilePath : String) (fileSize : ℕ)
  | guestFilePut (url : String) (data : Shell.Bytes)
  | deleteFile (filePath : String)
  | monotonic
  | sleep (ms : ℕ)

abbrev sig : Sig where
  Op := Op
  Res
    | .tokenHex => String
    | .startProgram _ _ _ => ℕ
    /- The exit code of the process, if it is listed and has one. -/
    | .listProcesses _ => Option ℤ
    | .initiateFrom _ => String
    | .guestFileGet _ => Shell.Bytes
    | .initiateTo _ _ => String
    | .monotonic => ℕ
    | _ => Unit

/-! ### The requests -/

abbrev Act := Prog sig Fault

def op (o : Op) : Act (sig.Res o) := Prog.perform (S := sig) o

def Fault.isSpin : Fault → Bool
  | .spins => true
  | _ => false

/-- `except Exception as e: raise GuestAgentError(…) from e` -/
abbrev wrapped {α : Type} (p : Act α) (e : Fault) : Act α := p.reraise Fault.isSpin e

def pollInterval : ℕ := 500

/-- A credential for the guest. -/
structure Credential where
  username : String
  password : Option String

/-- `_auth`, made when a request is bound to a VM; an empty password is none. -/
def auth (credential : Option Credential) (vm : String) : Except Fault (String × String) :=
  match credential with
  | none => .error (.noCredential vm)
  | some ⟨username, none⟩ => .error (.noPassword username vm)
  | some ⟨username, some password⟩ =>
    if password = "" then .error (.noPassword username vm) else .ok (username, password)

/-- A temporary file in the guest. -/
def tempPath (token ext : String) : String := "/tmp/tr-exec-" ++ token ++ "." ++ ext

/-- The line of a command, with what it leaves in files. -/
def wrapper (argv : List String) (token : String) : String :=
  " ".intercalate (argv.map Shell.quote) ++ " >" ++ tempPath token "out" ++ " 2>" ++
    tempPath token "err" ++ "; echo $? >" ++ tempPath token "rc"

def isBlank (b : UInt8) : Bool := b == 32 || (9 ≤ b && b ≤ 13)

/-- `bytes.strip` -/
def strip (bytes : Shell.Bytes) : Shell.Bytes :=
  ((bytes.dropWhile isBlank).reverse.dropWhile isBlank).reverse

def isDigit (b : UInt8) : Bool := 48 ≤ b && b ≤ 57

/-- `int(raw) if raw.isdigit()` -/
def intOf (raw : Shell.Bytes) : Option ℕ :=
  if raw ≠ [] ∧ raw.all isDigit then some (raw.foldl (fun n b => 10 * n + (b.toNat - 48)) 0) else none

/-- The two legs of a download. -/
def download (path : String) : Act Shell.Bytes := do
  let url ← op (.initiateFrom path)
  op (.guestFileGet url)

/-- `_read` -/
def read (vm path : String) : Act Shell.Bytes := wrapped (download path) (.outputReadFailed path vm)

/-- `_delete`, whatever comes of it. -/
def delete (path : String) : Act Unit :=
  tryCatch (op (.deleteFile path)) fun
    | .spins => throw .spins
    | _ => pure ()

/-- What is read back of a command, and taken away. -/
def collect (vm token : String) (exitCode : ℤ) : Act ExecResult := do
  let stdout ← read vm (tempPath token "out")
  let stderr ← read vm (tempPath token "err")
  let rcRaw ← read vm (tempPath token "rc")
  delete (tempPath token "out")
  delete (tempPath token "err")
  delete (tempPath token "rc")
  pure ⟨match intOf (strip rcRaw) with
    | some n => n
    | none => exitCode, stdout, stderr⟩

/-- `_execute`, where `timeout` is in milliseconds and `cwd` is empty when there is none. -/
def execute (vm : String) (argv : List String) (timeout : ℕ) (cwd : String) : Act ExecResult := do
  let start ← op .monotonic
  let token ← op .tokenHex
  let pid ← wrapped
    (op (.startProgram "/bin/sh" ("-c " ++ Shell.quote (wrapper argv token)) cwd)) (.execFailed vm)
  let exitCode ← Prog.poll (wrapped (op (.listProcesses pid)) (.pollFailed vm)) (op .monotonic)
    (op (.sleep pollInterval)) (.timedOut argv timeout vm) .spins (start + timeout)
    (timeout / pollInterval + 2)
  collect vm token exitCode

/-- `_read_file` -/
def readFile (vm path : String) : Act Shell.Bytes := wrapped (download path) (.readFailed path vm)

/-- `_write_file` -/
def writeFile (vm path : String) (data : Shell.Bytes) : Act Unit :=
  wrapped (do
      let url ← op (.initiateTo path data.length)
      op (.guestFilePut url data))
    (.writeFailed path vm)

/-- A request that is bound to a VM, for which there must be a credential. -/
def make {α : Type} (request : String → α) (vm : String) (credential : Option Credential) :
    Except Fault α := (auth credential vm).map fun _ => request vm

/-- A request can be made for a credential with a password, and for no other. -/
theorem make_ok {α : Type} {request : String → α} {vm : String} {credential : Option Credential} {r : α} :
    make request vm credential = .ok r ↔ r = request vm ∧
      ∃ username password, credential = some ⟨username, some password⟩ ∧ password ≠ "" := by
  unfold make auth
  constructor
  · intro h
    split at h
    · cases h
    · cases h
    · rename_i username password
      split_ifs at h with hempty
      · cases h
      · cases h
        exact ⟨rfl, username, password, rfl, hempty⟩
  · rintro ⟨rfl, username, password, rfl, hne⟩
    simp only [if_neg hne]
    rfl

def makeExecute := make execute

def makeReadFile := make readFile

def makeWriteFile := make writeFile

/-! ### Tools -/

structure World where
  machine : Machine
  /-- The files behind the addresses of transfers. -/
  tickets : String → Option String
  clock : ℕ

/-- The words of the arguments of a program, as a shell reads them. -/
def argumentsOf (arguments : String) : Option (List String) := do
  let ts ← Shell.lex arguments
  ts.mapM fun
    | .word w => some (w.text 0)
    | _ => none

/-- Where a program is started. -/
def workDir (A : Agent) (workingDirectory : String) : String :=
  if workingDirectory = "" then A.dir else resolve A.dir workingDirectory

/-- What a call does, at its time. -/
def Answer (A : Agent) (T : Trust) : (o : Op) → World → Except Fault (sig.Res o) → World → Prop
  | .tokenHex, w, r, w' =>
    (∃ token, r = .ok token ∧ token.toList.all Char.isAlphanum ∧
      ∀ ext ∈ ["out", "err", "rc"], w.machine.files (tempPath token ext) = none) ∧
      w'.machine = w.machine
  | .startProgram path arguments dir, w, r, w' =>
    ∀ args, argumentsOf arguments = some args →
      Spawned T (path :: args) (workDir A dir) w.machine r.toOption w'.machine
  | .listProcesses pid, w, r, w' =>
    (match r.toOption with
      | some exitCode => ∃ said, Polled T pid w.machine said ∧
          exitCode = said.map fun e => (e.status : ℤ)
      | none => T.raises) ∧ w'.machine = w.machine
  | .initiateFrom path, w, r, w' =>
    (match r.toOption with
      | some url => w'.tickets url = some (resolve A.dir path)
      | none => T.raises ∨ w.machine.files (resolve A.dir path) = none) ∧ w'.machine = w.machine
  | .guestFileGet url, w, r, w' =>
    (match r.toOption with
      | some bytes => ∃ path, w.tickets url = some path ∧ w.machine.files path = some bytes
      | none => T.raises ∨ ∀ path, w.tickets url = some path → w.machine.files path = none) ∧
      w'.machine = w.machine
  | .initiateTo path _, w, r, w' =>
    (match r.toOption with
      | some url => w'.tickets url = some (resolve A.dir path)
      | none => T.raises ∨ A.host.writable (resolve A.dir path) w.machine.files = false) ∧
      w'.machine = w.machine
  | .guestFilePut url data, w, r, w' =>
    (match r.toOption with
      | some _ => ∃ path, w.tickets url = some path ∧
          w'.machine.files = Function.update w.machine.files path (some data)
      | none => T.raises ∧ ∀ k, w.tickets url ≠ some k → w'.machine.files k = w.machine.files k) ∧
      w'.machine.processes = w.machine.processes
  | .deleteFile path, w, r, w' =>
    (match r.toOption with
      | some _ => w'.machine.files = Function.update w.machine.files (resolve A.dir path) none
      | none => T.raises ∧
          ∀ k, k ≠ resolve A.dir path → w'.machine.files k = w.machine.files k) ∧
      w'.machine.processes = w.machine.processes
  | .monotonic, w, r, w' =>
    (∃ t, r = .ok t ∧ w.clock ≤ t ∧ t ≤ w'.clock) ∧ w'.machine = w.machine
  | .sleep ms, w, r, w' => r = .ok () ∧ w.clock + ms ≤ w'.clock ∧ w'.machine = w.machine

/-- Between two calls processes may end, and a call takes its time. -/
def sem (A : Agent) (T : Trust) : Prog.Sem sig Fault World := fun o w r w' =>
  (∃ m, w.machine.Settles A.host m ∧ Answer A T o { w with machine := m } r w') ∧
    w.clock ≤ w'.clock ∧ ∀ e, r = .error e → e = .raw

/-! ### The line -/

section Wrapper

variable {host : Shell.Host} {name token dir : String} {args : List String} {files files' : Files} {e : Ended}

/-- The temporary files of a command. -/
def temps (token : String) : List String :=
  [tempPath token "out", tempPath token "err", tempPath token "rc"]

theorem toList_tempPath (token ext : String) : (tempPath token ext).toList =
    "/tmp/tr-exec-".toList ++ (token.toList ++ '.' :: ext.toList) := by
  simp [tempPath]

theorem resolve_tempPath (dir token ext : String) :
    resolve dir (tempPath token ext) = tempPath token ext := by
  rw [resolve, if_pos]
  rw [toList_tempPath]
  rfl

theorem isPlain_tempPath {ext : String} (htoken : token.toList.all Char.isAlphanum = true)
    (hext : ext.toList.all Shell.isPlain = true) :
    ∀ c ∈ (tempPath token ext).toList, Shell.isPlain c = true := by
  intro c hc
  rw [toList_tempPath, List.mem_append, List.mem_append, List.mem_cons] at hc
  rcases hc with hc | hc | rfl | hc
  · have hall : "/tmp/tr-exec-".toList.all Shell.isPlain = true := rfl
    exact List.all_eq_true.mp hall c hc
  · have halnum := List.all_eq_true.mp htoken c hc
    rw [Shell.isPlain, halnum, Bool.true_or]
  · rfl
  · exact List.all_eq_true.mp hext c hc

theorem tempPath_injective {ext ext' : String} (h : tempPath token ext = tempPath token ext') :
    ext = ext' := by
  have hlists := congrArg String.toList h
  rw [toList_tempPath, toList_tempPath, List.append_cancel_left_eq, List.append_cancel_left_eq,
    List.cons.injEq] at hlists
  exact String.toList_injective hlists.2

/-- A plain word, and what follows it. -/
theorem lexFrom_word {s : String} {rest : List Char} (hne : s ≠ "")
    (hplain : ∀ c ∈ s.toList, Shell.isPlain c = true) (hrest : Shell.Ends rest) :
    Shell.lexFrom .bare none (s.toList ++ rest) =
      (Shell.lexFrom .bare none rest).map (Shell.Token.word (Shell.bare s) :: ·) := by
  rw [Shell.lexFrom_plain (Shell.toList_ne_nil hne) hplain]
  exact hrest _

theorem tempPath_ne (token ext : String) : tempPath token ext ≠ "" := by
  intro heq
  have hlist := congrArg String.toList heq
  rw [toList_tempPath] at hlist
  cases hlist

theorem lex_wrapper (hnul : ∀ a ∈ name :: args, Shell.nul ∉ a.toList)
    (htoken : token.toList.all Char.isAlphanum = true) :
    Shell.lex (wrapper (name :: args) token) = some ((Shell.words (name :: args) ++
      [.redirect 1, .word (Shell.bare (tempPath token "out")), .redirect 2,
        .word (Shell.bare (tempPath token "err"))]) ++ .semi ::
      [.word (Shell.bare "echo"), .word [.status], .redirect 1,
        .word (Shell.bare (tempPath token "rc"))]) := by
  have hline : (wrapper (name :: args) token).toList = (Shell.join (name :: args)).toList ++
      ' ' :: '>' :: ((tempPath token "out").toList ++ ' ' :: '2' :: '>' ::
      ((tempPath token "err").toList ++ ';' :: ' ' :: ("echo".toList ++ ' ' :: '$' :: '?' :: ' ' ::
      '>' :: ((tempPath token "rc").toList ++ [])))) := by
    simp [wrapper, Shell.join]
  rw [Shell.lex, hline, Shell.lexFrom_join hnul (Shell.ends_blank _), Shell.lexFrom_blank,
    Shell.lexFrom_redirect,
    lexFrom_word (tempPath_ne _ _) (isPlain_tempPath htoken rfl) (Shell.ends_blank _),
    Shell.lexFrom_blank, Shell.lexFrom_redirect_two,
    lexFrom_word (tempPath_ne _ _) (isPlain_tempPath htoken rfl) (Shell.ends_semi _),
    Shell.lexFrom_semi, Shell.lexFrom_blank,
    lexFrom_word (by decide) (List.all_eq_true.mp rfl) (Shell.ends_blank _),
    Shell.lexFrom_blank, Shell.lexFrom_status, Shell.ends_blank, Shell.lexFrom_blank,
    Shell.lexFrom_redirect,
    lexFrom_word (tempPath_ne _ _) (isPlain_tempPath htoken rfl) Shell.ends_nil]
  simp [Shell.lexFrom, Shell.ended]

/-- The line is two commands: the one that was asked for, and an `echo` of its status. -/
theorem parse_wrapper (hnul : ∀ a ∈ name :: args, Shell.nul ∉ a.toList)
    (htoken : token.toList.all Char.isAlphanum = true)
    (hname : Shell.CommandWord host.reserved name) (hecho : host.reserved "echo" = false) :
    Shell.parse host.reserved (wrapper (name :: args) token) = some
      [[⟨[], (name :: args).map Shell.quoted, [(1, Shell.bare (tempPath token "out")),
          (2, Shell.bare (tempPath token "err"))]⟩],
        [⟨[], [Shell.bare "echo", [.status]], [(1, Shell.bare (tempPath token "rc"))]⟩]] := by
  have hfirst : ∀ t : Shell.Token, (∀ w, t ≠ .word w) → (∀ fd, t ≠ .redirect fd) →
      t ∉ Shell.words (name :: args) ++ [.redirect 1, .word (Shell.bare (tempPath token "out")),
        .redirect 2, .word (Shell.bare (tempPath token "err"))] := by
    intro t hword hredirect
    simp [Shell.notMem_words hword, hword, hredirect]
  have hsecond : Shell.simpleCommand host.reserved [.word (Shell.bare "echo"), .word [.status],
      .redirect 1, .word (Shell.bare (tempPath token "rc"))] =
      some ⟨[], [Shell.bare "echo", [.status]], [(1, Shell.bare (tempPath token "rc"))]⟩ := by
    refine Shell.simpleCommand_eq rfl rfl fun h => ?_
    have hecho' : host.reserved "echo" = true := h.2
    rw [hecho] at hecho'
    cases hecho'
  rw [Shell.parse, lex_wrapper hnul htoken, Option.bind_eq_bind, Option.bind_some,
    List.splitOn_append_cons_self_of_not_mem (hfirst .semi (by simp) (by simp)),
    List.splitOn_eq_singleton (by simp), List.mapM_cons,
    List.splitOn_eq_singleton (hfirst .andIf (by simp) (by simp)), Shell.mapM_singleton,
    Shell.mapM_singleton, List.splitOn_eq_singleton (by simp), Shell.mapM_singleton,
    Shell.simpleCommand_words args hname rfl, hsecond]
  rfl

/-- The bytes of a number in decimal. -/
def digits (n : ℕ) : Shell.Bytes := (toString n).toList.map fun c => UInt8.ofNat c.toNat

/-- `echo` writes a number. -/
structure Echoes (host : Shell.Host) : Prop where
  names : Shell.Names host "echo"
  echo : ∀ n dir files, host.spawn ["echo", toString n] dir files = (⟨0, digits n ++ [10], []⟩, files)

/-- A command that can be put into a line: a utility, which leaves the temporary files alone. -/
structure Runnable (host : Shell.Host) (name : String) (args : List String) : Prop where
  names : Shell.Names host name
  nul : ∀ a ∈ name :: args, Shell.nul ∉ a.toList
  temps : ∀ dir files token, ∀ path ∈ temps token,
    (host.spawn (name :: args) dir files).2 path = files path

/-- The files that the command finds: its output is redirected, and the files for it are empty. -/
def opened (token : String) (files : Files) : Files :=
  Function.update (Function.update files (tempPath token "out") (some [])) (tempPath token "err") (some [])

/-- The files that the line leaves behind. -/
def closed (token : String) (r : Ended × Files) : Files :=
  Function.update (Function.update (Function.update r.2 (tempPath token "out") (some r.1.stdout))
    (tempPath token "err") (some r.1.stderr)) (tempPath token "rc") (some (digits r.1.status ++ [10]))

theorem out_ne_err : tempPath token "out" ≠ tempPath token "err" :=
  fun h => absurd (tempPath_injective h) (by decide)

theorem out_ne_rc : tempPath token "out" ≠ tempPath token "rc" :=
  fun h => absurd (tempPath_injective h) (by decide)

theorem err_ne_rc : tempPath token "err" ≠ tempPath token "rc" :=
  fun h => absurd (tempPath_injective h) (by decide)

/-- The second command of the line. -/
theorem echo_run (token : String) (D : Echoes host) (s : Shell.State) :
    Shell.Command.run host ⟨[], [Shell.bare "echo", [.status]],
        [(1, Shell.bare (tempPath token "rc"))]⟩ s =
      if host.writable (tempPath token "rc") s.files then
        some (s.after ⟨0, [], []⟩
          (Function.update s.files (tempPath token "rc") (some (digits s.status ++ [10]))))
      else some (s.fail host) := by
  have hstatus : Shell.Word.text s.status [.status] = toString s.status := by
    show String.ofList ((toString s.status).toList ++ []) = _
    rw [List.append_nil, String.ofList_toList]
  have hwords : [Shell.bare "echo", [.status]].map (Shell.Word.text s.status) =
      ["echo", toString s.status] := by
    rw [List.map_cons, List.map_singleton, hstatus]
    rfl
  have hpath : (Shell.bare (tempPath token "rc")).text s.status = tempPath token "rc" := by
    simp [Shell.Word.text, Shell.bare, List.flatMap_map]
  have hredirects : [(1, Shell.bare (tempPath token "rc"))].map
      (fun p => (p.1, resolve s.dir (Shell.Word.text s.status p.2))) = [(1, tempPath token "rc")] := by
    simp [hpath, resolve_tempPath]
  rw [Shell.Command.run_utility rfl hwords hredirects (by decide) (by decide)
      D.names.notSpecial, Shell.utility_one _ _ rfl rfl, D.echo]
  dsimp only
  rw [Function.update_self, if_pos rfl, Function.update_idem]

/-- One of the temporary files cannot be written. -/
def Unwritable (host : Shell.Host) : Prop :=
  ∃ token ext files, host.writable (tempPath token ext) files = false

/-- The first command of the line, where its output can be redirected or not. -/
theorem command_run (token : String) (args : List String) (dir : String) (files : Files)
    (hrun : Runnable host name args) :
    ∃ s, Shell.Command.run host ⟨[], (name :: args).map Shell.quoted,
        [(1, Shell.bare (tempPath token "out")), (2, Shell.bare (tempPath token "err"))]⟩
        (.start dir files) = some s ∧ s.gone = false ∧
      ((s.files = files ∨ s.files = Function.update files (tempPath token "out") (some [])) ∧
          Unwritable host ∨
        let r := host.spawn (name :: args) dir (opened token files)
        s.status = r.1.status ∧
          s.files = Function.update (Function.update r.2 (tempPath token "out") (some r.1.stdout))
            (tempPath token "err") (some r.1.stderr)) := by
  have hpath (ext : String) : (Shell.bare (tempPath token ext)).text 0 = tempPath token ext := by
    simp [Shell.Word.text, Shell.bare, List.flatMap_map]
  have hkept : ∀ ext ∈ ["out", "err", "rc"],
      (host.spawn (name :: args) dir (opened token files)).2 (tempPath token ext) =
        opened token files (tempPath token ext) := by
    intro ext hext
    refine hrun.temps _ _ token _ ?_
    have hmem := List.mem_map_of_mem (f := tempPath token) hext
    exact hmem
  have hutility : Shell.Command.run host ⟨[], (name :: args).map Shell.quoted,
      [(1, Shell.bare (tempPath token "out")), (2, Shell.bare (tempPath token "err"))]⟩
      (.start dir files) = Shell.utility host (name :: args)
        [(1, tempPath token "out"), (2, tempPath token "err")] (.start dir files) :=
    Shell.Command.run_utility rfl (Shell.map_text_quoted 0 _)
      (by simp [Shell.State.start, hpath, resolve_tempPath]) hrun.names.ne_cd hrun.names.ne_exec
      hrun.names.notSpecial
  rw [hutility, Shell.utility_two _ out_ne_err (Shell.dir_start dir files) (Shell.files_start dir files)]
  split_ifs with hout herr
  · have hout' := hkept "out" (by simp)
    have herr' := hkept "err" (by simp)
    rw [show opened token files (tempPath token "out") = some [] by
      rw [opened, Function.update_of_ne out_ne_err, Function.update_self]] at hout'
    rw [show opened token files (tempPath token "err") = some [] from Function.update_self ..] at herr'
    show ∃ s, (if (host.spawn (name :: args) dir (opened token files)).2 (tempPath token "out") = some [] ∧
      (host.spawn (name :: args) dir (opened token files)).2 (tempPath token "err") = some [] then _
      else none) = some s ∧ _
    rw [if_pos ⟨hout', herr'⟩]
    exact ⟨_, rfl, rfl, .inr ⟨rfl, rfl⟩⟩
  · exact ⟨_, rfl, rfl, .inl ⟨.inr rfl, _, _, _, Bool.eq_false_iff.mpr herr⟩⟩
  · exact ⟨_, rfl, rfl, .inl ⟨.inl rfl, _, _, _, Bool.eq_false_iff.mpr hout⟩⟩

/-- **What the line leaves behind**: the output of the command, its status, and the files that it has
left.  Where there is no writing to the temporary directory some of that is missing, and the command
may not have run. -/
theorem wrapper_ends (D : Echoes host) (hrun : Runnable host name args)
    (htoken : token.toList.all Char.isAlphanum = true)
    (h : Ends host ["/bin/sh", "-c", wrapper (name :: args) token] dir files e files') :
    let r := host.spawn (name :: args) dir (opened token files)
    files' = closed token r ∨ Unwritable host ∧
      (∀ k, k ∉ temps token → files' k = files k ∨ files' k = r.2 k) ∧
      ((∀ path ∈ temps token, files path = none) → ∃ path ∈ temps token, files' path = none) := by
  have hparse := parse_wrapper hrun.nul htoken hrun.names.command (Bool.eq_false_iff.mpr fun hreserved =>
    D.names.command.2 ⟨rfl, hreserved⟩)
  obtain ⟨s, hfirst, hgone, hcase⟩ := command_run token args dir files hrun
  have hsecond := echo_run token D s
  have hall := (Shell.runAll_two hfirst hgone).trans hsecond
  have hstart : start host ["/bin/sh", "-c", wrapper (name :: args) token] dir files =
      Shell.run host (wrapper (name :: args) token) dir files := by
    rw [start, if_pos (.inr rfl)]
  -- The files after the first command, off the temporary ones and where the errors should be.
  have hbase : ∀ k, k ∉ temps token → s.files k = files k ∨
      s.files k = (host.spawn (name :: args) dir (opened token files)).2 k := by
    intro k hk
    simp only [temps, List.mem_cons, List.not_mem_nil, or_false, not_or] at hk
    rcases hcase with ⟨hfiles | hfiles, -⟩ | ⟨-, hfiles⟩
    · exact .inl (by rw [hfiles])
    · exact .inl (by rw [hfiles, Function.update_of_ne hk.1])
    · exact .inr (by rw [hfiles, Function.update_of_ne hk.2.1, Function.update_of_ne hk.1])
  split_ifs at hall with hwritable
  · obtain ⟨-, rfl⟩ := h.eq (hstart.trans (Shell.run_eq hparse hall))
    rcases hcase with ⟨hfiles, hwhy⟩ | ⟨hstatus, hfiles⟩
    · refine .inr ⟨hwhy, fun k hk => ?_, fun hfresh => ⟨tempPath token "err", by simp [temps], ?_⟩⟩
      · have hrc : k ≠ tempPath token "rc" := fun heq => hk (by simp [temps, heq])
        show Function.update s.files _ _ _ = _ ∨ Function.update s.files _ _ _ = _
        rw [Function.update_of_ne hrc]
        exact hbase k hk
      · -- The errors of the command have gone nowhere.
        show Function.update s.files _ _ _ = _
        rw [Function.update_of_ne err_ne_rc]
        have herr := hfresh (tempPath token "err") (by simp [temps])
        rcases hfiles with hfiles | hfiles
        · rw [hfiles, herr]
        · rw [hfiles, Function.update_of_ne out_ne_err.symm, herr]
    · refine .inl ?_
      show Function.update s.files _ _ = _
      rw [hstatus, hfiles]
      rfl
  · obtain ⟨-, rfl⟩ := h.eq (hstart.trans (Shell.run_eq hparse hall))
    refine .inr ⟨⟨_, _, _, Bool.eq_false_iff.mpr hwritable⟩, hbase,
      fun hfresh => ⟨tempPath token "rc", by simp [temps], ?_⟩⟩
    have hrc := hfresh (tempPath token "rc") (by simp [temps])
    show s.files _ = _
    rcases hcase with ⟨hfiles | hfiles, -⟩ | ⟨-, hfiles⟩
    · rw [hfiles, hrc]
    · rw [hfiles, Function.update_of_ne out_ne_rc.symm, hrc]
    · rw [hfiles, Function.update_of_ne err_ne_rc.symm, Function.update_of_ne out_ne_rc.symm,
        hrun.temps _ _ token _ (by simp [temps]), opened, Function.update_of_ne err_ne_rc.symm,
        Function.update_of_ne out_ne_rc.symm, hrc]

/-- A utility changes no files but these. -/
def Spares (host : Shell.Host) (argv : List String) (dir : String) (F : Set String) : Prop :=
  ∀ files k, k ∉ F → (host.spawn argv dir files).2 k = files k

/-- The temporary files of every command. -/
def allTemps : Set String := {k | ∃ token, k ∈ temps token}

/-- The line changes what the command does, and its own files. -/
theorem harmless_wrapper {F : Set String} (D : Echoes host) (hrun : Runnable host name args)
    (htoken : token.toList.all Char.isAlphanum = true) (hspares : Spares host (name :: args) dir F) :
    Harmless host (F ∪ allTemps) ["/bin/sh", "-c", wrapper (name :: args) token] dir := by
  intro files e files' hends k hk
  have hF : k ∉ F := fun hmem => hk (.inl hmem)
  have htemps : k ∉ temps token := fun hmem => hk (.inr ⟨token, hmem⟩)
  have hspawn : (host.spawn (name :: args) dir (opened token files)).2 k = files k := by
    rw [hspares _ k hF]
    simp only [temps, List.mem_cons, List.not_mem_nil, or_false, not_or] at htemps
    rw [opened, Function.update_of_ne htemps.2.1, Function.update_of_ne htemps.1]
  rcases wrapper_ends D hrun htoken hends with rfl | ⟨-, hothers, -⟩
  · simp only [temps, List.mem_cons, List.not_mem_nil, or_false, not_or] at htemps
    rw [closed, Function.update_of_ne htemps.2.2, Function.update_of_ne htemps.2.1,
      Function.update_of_ne htemps.1, hspawn]
  · exact (hothers k htemps).elim id fun h => h.trans hspawn

theorem nul_notMem_wrapper (hnul : ∀ a ∈ name :: args, Shell.nul ∉ a.toList)
    (htoken : token.toList.all Char.isAlphanum = true) :
    Shell.nul ∉ (wrapper (name :: args) token).toList := by
  have htemp : ∀ ext : String, ext.toList.all Shell.isPlain = true →
      Shell.nul ∉ (tempPath token ext).toList := fun ext hext hmem =>
    (Shell.isPlain_ne (isPlain_tempPath htoken hext _ hmem)).1 rfl
  have hjoin : Shell.nul ∉ (Shell.join (name :: args)).toList := Shell.nul_notMem_join hnul
  have hline : wrapper (name :: args) token = Shell.join (name :: args) ++ " >" ++
      tempPath token "out" ++ " 2>" ++ tempPath token "err" ++ "; echo $? >" ++
      tempPath token "rc" := rfl
  rw [hline]
  intro hmem
  repeat rw [String.toList_append, List.mem_append] at hmem
  rcases hmem with (((((hmem | hmem) | hmem) | hmem) | hmem) | hmem) | hmem
  · exact hjoin hmem
  · exact absurd hmem (by decide)
  · exact htemp "out" rfl hmem
  · exact absurd hmem (by decide)
  · exact htemp "err" rfl hmem
  · exact absurd hmem (by decide)
  · exact htemp "rc" rfl hmem

/-- Tools passes the line on as it is. -/
theorem argumentsOf_wrapper {line : String} (h : Shell.nul ∉ line.toList) :
    argumentsOf ("-c " ++ Shell.quote line) = some ["-c", line] := by
  have hline : "-c " ++ Shell.quote line = Shell.join ["-c", line] := by
    refine String.toList_injective ?_
    simp [Shell.join, show Shell.quote "-c" = "-c" from rfl]
  rw [argumentsOf, hline, Shell.lex_join (by simpa using ⟨by decide, h⟩)]
  simp [Shell.words]

/-! ### The status that is read back -/

theorem digits_eq (n : ℕ) : digits n = (Nat.toDigits 10 n).map fun c => UInt8.ofNat c.toNat := by
  have htext : (toString n).toList = Nat.toDigits 10 n := Nat.toList_repr
  rw [digits, htext]

/-- A digit, as a byte. -/
theorem toNat_digit {n : ℕ} {c : Char} (hc : c ∈ Nat.toDigits 10 n) :
    (UInt8.ofNat c.toNat).toNat = c.toNat ∧ 48 ≤ c.toNat ∧ c.toNat ≤ 57 := by
  have hdigit := Nat.isDigit_of_mem_toDigits (by decide) (by decide) hc
  rw [Char.isDigit, Bool.and_eq_true, decide_eq_true_eq, decide_eq_true_eq] at hdigit
  have hlo : 48 ≤ c.toNat := UInt32.le_iff_toNat_le.mp hdigit.1
  have hhi : c.toNat ≤ 57 := UInt32.le_iff_toNat_le.mp hdigit.2
  exact ⟨UInt8.toNat_ofNat_of_lt' (show c.toNat < 256 by omega), hlo, hhi⟩

theorem isDigit_of_mem_digits {n : ℕ} {b : UInt8} (h : b ∈ digits n) :
    isDigit b = true ∧ isBlank b = false := by
  rw [digits_eq] at h
  obtain ⟨c, hc, rfl⟩ := List.mem_map.mp h
  obtain ⟨hbyte, hlo, hhi⟩ := toNat_digit hc
  have hall : ∀ b : UInt8, 48 ≤ b.toNat → b.toNat ≤ 57 → isDigit b = true ∧ isBlank b = false := by
    intro b hb hb'
    have hle : (48 : UInt8) ≤ b := UInt8.le_iff_toNat_le.mpr hb
    have hge : b ≤ 57 := UInt8.le_iff_toNat_le.mpr hb'
    refine ⟨by simp [isDigit, hle, hge], ?_⟩
    have hne : b ≠ 32 := by
      rintro rfl
      exact absurd hb (by decide)
    have hbig : ¬ b ≤ 13 := fun h => absurd (hb.trans (UInt8.le_iff_toNat_le.mp h)) (by decide)
    simp [isBlank, hne, hbig]
  exact hall _ (by omega) (by omega)

theorem digits_ne_nil (n : ℕ) : digits n ≠ [] := by
  rw [digits_eq, Ne, List.map_eq_nil_iff]
  exact Nat.toDigits_ne_nil

theorem strip_digits (n : ℕ) : strip (digits n ++ [10]) = digits n := by
  have hfront : ∀ l : Shell.Bytes, l ≠ [] → (∀ b ∈ l, isBlank b = false) → ∀ r, (l ++ r).dropWhile isBlank = l ++ r := by
    intro l hl hblank r
    obtain ⟨b, l, rfl⟩ := List.exists_cons_of_ne_nil hl
    rw [List.cons_append, List.dropWhile_cons_of_neg (by simp [hblank b List.mem_cons_self])]
  have hblank : ∀ b ∈ digits n, isBlank b = false := fun b hb => (isDigit_of_mem_digits hb).2
  rw [strip, hfront _ (digits_ne_nil n) hblank, List.reverse_append, List.reverse_singleton,
    List.singleton_append, List.dropWhile_cons_of_pos (by decide)]
  have hrev := hfront (digits n).reverse (by simpa using digits_ne_nil n)
    (fun b hb => hblank b (List.mem_reverse.mp hb)) []
  rw [List.append_nil] at hrev
  rw [hrev, List.reverse_reverse]

/-- **The status comes back as it was written.** -/
theorem intOf_digits (n : ℕ) : intOf (strip (digits n ++ [10])) = some n := by
  have hall : (digits n).all isDigit = true :=
    List.all_eq_true.mpr fun b hb => (isDigit_of_mem_digits hb).1
  rw [strip_digits, intOf, if_pos ⟨digits_ne_nil n, hall⟩]
  have hvalue : Nat.ofDigitChars 10 (Nat.toDigits 10 n) 0 = n := by
    simp [Nat.ofDigitChars_toDigits]
  rw [Nat.ofDigitChars_eq_foldl] at hvalue
  rw [digits_eq, List.foldl_map]
  refine congrArg some (Eq.trans (List.foldl_ext _ _ _ fun m c hc => ?_) hvalue)
  rw [(toNat_digit hc).1]
  rfl

end Wrapper

/-! ### What comes of the requests -/

section Laws

variable {A : Agent} {T : Trust} {P : Kind} {K : Set String} {vm path name cwd : String}
  {args : List String} {data : Shell.Bytes} {timeout pid : ℕ} {w w' : World}

/-- The clock is read while processes may end. -/
theorem monotonic_wp {R : World → Prop} {E : Fault → World → Prop}
    (hR : ∀ w', w.machine.Settles A.host w'.machine → R w') :
    (op .monotonic).wp (.ofSem (sem A T) fun _ => True)
      (fun t w' => R w' ∧ w.clock ≤ t ∧ t ≤ w'.clock) E w := by
  refine Prog.wp_answered trivial fun r w' hsem => ?_
  obtain ⟨⟨m, hsettles, ⟨t, rfl, hlo, hhi⟩, hm⟩, -, -⟩ := hsem
  exact ⟨t, rfl, hR w' (by rw [hm]; exact hsettles), hlo, hhi⟩

theorem sleep_wp {ms : ℕ} {R : World → Prop} {E : Fault → World → Prop}
    (hR : ∀ w', w.machine.Settles A.host w'.machine → R w') :
    (op (.sleep ms)).wp (.ofSem (sem A T) fun _ => True)
      (fun _ w' => R w' ∧ w.clock + ms ≤ w'.clock) E w := by
  refine Prog.wp_answered trivial fun r w' hsem => ?_
  obtain ⟨⟨m, hsettles, rfl, hclock, hm⟩, -, -⟩ := hsem
  exact ⟨_, rfl, hR w' (by rw [hm]; exact hsettles), hclock⟩

/-- A download: what is in the file, if the processes keep off it, and nothing is changed. -/
theorem download_wp (path : String) (hP : P.Keeps A.host K) (honly : w.machine.Only P) :
    (download path).wp (.ofSem (sem A T) fun _ => True)
      (fun data w' => Steady P K w.machine w'.machine ∧
        (resolve A.dir path ∉ K → w.machine.files (resolve A.dir path) = some data))
      (fun x w' => x.isSpin = false ∧ Steady P K w.machine w'.machine ∧
        (resolve A.dir path ∉ K → T.raises ∨ w.machine.files (resolve A.dir path) = none)) w := by
  have hsteps {w₁ : World} {m : Machine} (hsteady : Steady P K w.machine w₁.machine)
      (hsettles : w₁.machine.Settles A.host m) : Steady P K w.machine m :=
    hsteady.settles hP subset_rfl hsettles
  refine Prog.wp_seq (P := fun url w₁ => w₁.tickets url = some (resolve A.dir path) ∧
    Steady P K w.machine w₁.machine) ?_ ?_
  · refine Prog.wp_perform.mpr ⟨trivial, fun url w₁ hsem => ?_, fun x w₁ hsem => ?_⟩
    · obtain ⟨⟨m, hsettles, hticket, hm⟩, -, -⟩ := hsem
      exact ⟨hticket, by rw [hm]; exact hsteps (.start honly) hsettles⟩
    · obtain ⟨⟨m, hsettles, hwhy, hm⟩, -, hraw⟩ := hsem
      have hsteady := hsteps (.start honly) hsettles
      rw [hraw x rfl]
      refine ⟨rfl, by rw [hm]; exact hsteady, fun hapart => hwhy.imp_right fun hnone => ?_⟩
      rw [← hsteady.files _ hapart]
      exact hnone
  rintro url w₁ ⟨hticket, hsteady₁⟩
  refine Prog.wp_perform.mpr ⟨trivial, fun bytes w₂ hsem => ?_, fun x w₂ hsem => ?_⟩
  · obtain ⟨⟨m, hsettles, ⟨path', hpath', hfile⟩, hm⟩, -, -⟩ := hsem
    have hsteady := hsteps hsteady₁ hsettles
    rw [show ({ w₁ with machine := m } : World).tickets = w₁.tickets from rfl, hticket] at hpath'
    cases hpath'
    exact ⟨by rw [hm]; exact hsteady, fun hapart => (hsteady.files _ hapart).symm.trans hfile⟩
  · obtain ⟨⟨m, hsettles, hwhy, hm⟩, -, hraw⟩ := hsem
    have hsteady := hsteps hsteady₁ hsettles
    rw [hraw x rfl]
    refine ⟨rfl, by rw [hm]; exact hsteady, fun hapart => hwhy.imp_right fun hnone => ?_⟩
    rw [← hsteady.files _ hapart]
    exact hnone _ hticket

/-- **A file that is read**, which the processes keep off: all of it, and nothing is changed. -/
theorem readFile_wp (hP : P.Keeps A.host K) (honly : w.machine.Only P) :
    (readFile vm path).wp (.ofSem (sem A T) fun _ => True)
      (fun data w' => Steady P K w.machine w'.machine ∧
        (resolve A.dir path ∉ K → w.machine.files (resolve A.dir path) = some data))
      (fun x w' => x.IsGuestAgentError ∧ Steady P K w.machine w'.machine ∧
        (resolve A.dir path ∉ K → T.raises ∨ w.machine.files (resolve A.dir path) = none)) w :=
  Prog.wp_reraise (Prog.wp_mono (fun _ _ h => h) (fun _ _ h => ⟨h.1, trivial, h.2⟩)
    (download_wp path hP honly))

/-- One of the files that are read back. -/
theorem read_wp (vm token ext : String) (hP : P.Keeps A.host K) (honly : w.machine.Only P) :
    (read vm (tempPath token ext)).wp (.ofSem (sem A T) fun _ => True)
      (fun data w' => Steady P K w.machine w'.machine ∧
        (tempPath token ext ∉ K → w.machine.files (tempPath token ext) = some data))
      (fun x w' => x.IsGuestAgentError ∧ Steady P K w.machine w'.machine ∧
        (tempPath token ext ∉ K → T.raises ∨ w.machine.files (tempPath token ext) = none)) w := by
  have hread := download_wp (A := A) (T := T) (tempPath token ext) hP honly
  rw [resolve_tempPath] at hread
  exact Prog.wp_reraise (Prog.wp_mono (fun _ _ h => h) (fun _ _ h => ⟨h.1, trivial, h.2⟩) hread)

/-- **A file that is written** has the data, and the others are left alone. -/
theorem writeFile_wp (hP : P.Keeps A.host K) (honly : w.machine.Only P) :
    (writeFile vm path data).wp (.ofSem (sem A T) fun _ => True)
      (fun _ w' => Steady P (K ∪ {resolve A.dir path}) w.machine w'.machine ∧
        w'.machine.files (resolve A.dir path) = some data)
      (fun x w' => x.IsGuestAgentError ∧
        (T.raises ∨ ∃ files, A.host.writable (resolve A.dir path) files = false) ∧
        Steady P (K ∪ {resolve A.dir path}) w.machine w'.machine) w := by
  have hsteps {w₁ : World} {m : Machine}
      (hsteady : Steady P (K ∪ {resolve A.dir path}) w.machine w₁.machine)
      (hsettles : w₁.machine.Settles A.host m) :
      Steady P (K ∪ {resolve A.dir path}) w.machine m :=
    hsteady.settles hP Set.subset_union_left hsettles
  refine Prog.wp_reraise (Prog.wp_seq (P := fun url w₁ => w₁.tickets url =
    some (resolve A.dir path) ∧ Steady P (K ∪ {resolve A.dir path}) w.machine w₁.machine) ?_ ?_)
  · refine Prog.wp_perform.mpr ⟨trivial, fun url w₁ hsem => ?_, fun x w₁ hsem => ?_⟩
    · obtain ⟨⟨m, hsettles, hticket, hm⟩, -, -⟩ := hsem
      exact ⟨hticket, by rw [hm]; exact hsteps (.start honly) hsettles⟩
    · obtain ⟨⟨m, hsettles, hwhy, hm⟩, -, hraw⟩ := hsem
      rw [hraw x rfl]
      exact ⟨rfl, trivial, hwhy.imp_right fun hno => ⟨_, hno⟩,
        by rw [hm]; exact hsteps (.start honly) hsettles⟩
  rintro url w₁ ⟨hticket, hsteady₁⟩
  refine Prog.wp_perform.mpr ⟨trivial, fun _ w₂ hsem => ?_, fun x w₂ hsem => ?_⟩
  · obtain ⟨⟨m, hsettles, ⟨path', hpath', hfiles⟩, hprocesses⟩, -, -⟩ := hsem
    rw [show ({ w₁ with machine := m } : World).tickets = w₁.tickets from rfl, hticket] at hpath'
    cases hpath'
    refine ⟨(hsteps hsteady₁ hsettles).change hprocesses fun k hk => ?_, ?_⟩
    · rw [hfiles, Function.update_of_ne fun heq => hk (.inr heq)]
    · rw [hfiles, Function.update_self]
  · obtain ⟨⟨m, hsettles, ⟨hraises, hfiles⟩, hprocesses⟩, -, hraw⟩ := hsem
    rw [hraw x rfl]
    refine ⟨rfl, trivial, .inl hraises, (hsteps hsteady₁ hsettles).change hprocesses fun k hk =>
      hfiles k ?_⟩
    rw [show ({ w₁ with machine := m } : World).tickets = w₁.tickets from rfl, hticket]
    exact fun heq => hk (.inr (Option.some.inj heq).symm)

/-- A temporary file is taken away, if nothing is raised. -/
theorem delete_wp {token ext : String} (hP : P.Keeps A.host K) (honly : w.machine.Only P) :
    (delete (tempPath token ext)).wp (.ofSem (sem A T) fun _ => True)
      (fun _ w' => Steady P (K ∪ {tempPath token ext}) w.machine w'.machine ∧
        (¬ T.raises → w'.machine.files (tempPath token ext) = none)) (fun _ _ => False) w := by
  show (Prog.tryCatch _ _).wp _ _ _ _
  rw [Prog.wp_tryCatch]
  refine Prog.wp_perform.mpr ⟨trivial, fun _ w₁ hsem => ?_, fun x w₁ hsem => ?_⟩
  · obtain ⟨⟨m, hsettles, hfiles, hprocesses⟩, -, -⟩ := hsem
    have hsteady : Steady P (K ∪ {tempPath token ext}) w.machine m :=
      (Steady.start honly).settles hP Set.subset_union_left hsettles
    have hfiles : w₁.machine.files = Function.update m.files (tempPath token ext) none := by
      rw [← resolve_tempPath A.dir token ext]
      exact hfiles
    refine ⟨hsteady.change hprocesses fun k hk => ?_, fun _ => ?_⟩
    · rw [hfiles, Function.update_of_ne fun heq => hk (.inr heq)]
    · rw [hfiles, Function.update_self]
  · obtain ⟨⟨m, hsettles, ⟨hraises, hfiles⟩, hprocesses⟩, -, hraw⟩ := hsem
    have hsteady : Steady P (K ∪ {tempPath token ext}) w.machine m :=
      (Steady.start honly).settles hP Set.subset_union_left hsettles
    rw [hraw x rfl]
    refine ⟨hsteady.change hprocesses fun k hk => hfiles k ?_, fun hno => absurd hraises hno⟩
    rw [resolve_tempPath]
    exact fun heq => hk (.inr heq)

/-! ### Commands -/

/-- The process of a command. -/
def shellArgv (argv : List String) (token : String) : List String :=
  ["/bin/sh", "-c", wrapper argv token]

section Execute

variable {before : Files → Prop} {after : Ended → Files → Prop}

theorem spawn_wp {line dir : String} (hnul : Shell.nul ∉ line.toList)
    (O : Outlook A.host P ["/bin/sh", "-c", line] (workDir A dir) before after)
    (honly : w.machine.Only P) (hbefore : before w.machine.files) :
    (op (.startProgram "/bin/sh" ("-c " ++ Shell.quote line) dir)).wp (.ofSem (sem A T) fun _ => True)
      (fun pid w' => Beside P ["/bin/sh", "-c", line] (workDir A dir) before after pid w'.machine ∧
        w.clock ≤ w'.clock)
      (fun x w' => x.isSpin = false ∧ T.raises ∧
        w'.machine.Launched P ["/bin/sh", "-c", line] (workDir A dir) before after) w := by
  refine Prog.wp_perform.mpr ⟨trivial, fun pid w₁ hsem => ?_, fun x w₁ hsem => ?_⟩
  · obtain ⟨⟨m, hsettles, hstarted⟩, hclock, -⟩ := hsem
    obtain ⟨hm, hfiles⟩ := honly.settles O.before hbefore hsettles
    exact ⟨Machine.With.beside (hstarted _ (argumentsOf_wrapper hnul)) hm hfiles, hclock⟩
  · obtain ⟨⟨m, hsettles, hstarted⟩, -, hraw⟩ := hsem
    obtain ⟨hm, hfiles⟩ := honly.settles O.before hbefore hsettles
    obtain ⟨hraises, hlaunched⟩ := Spawned.launched (hstarted _ (argumentsOf_wrapper hnul)) hm hfiles
    rw [hraw x rfl]
    exact ⟨rfl, hraises, hlaunched⟩

/-- A process is waited for until it has ended. -/
theorem await_wp {argv₀ argv : List String} {dir : String} {start : ℕ}
    (O : Outlook A.host P argv dir before after)
    (hbeside : Beside P argv dir before after pid w.machine) (hstart : start ≤ w.clock) :
    (Prog.poll (wrapped (op (.listProcesses pid)) (.pollFailed vm)) (op .monotonic)
      (op (.sleep pollInterval)) (.timedOut argv₀ timeout vm) .spins (start + timeout)
      (timeout / pollInterval + 2)).wp (.ofSem (sem A T) fun _ => True)
      (fun _ w' => w'.machine.Only P ∧ Beside P argv dir before after pid w'.machine ∧
        ∃ e, after e w'.machine.files)
      (fun x w' => x.IsGuestAgentError ∧ (T.raises ∨ T.lags) ∧
        w'.machine.Launched P argv dir before after) w := by
  have hwaits (w₃ : World) (hw : Beside P argv dir before after pid w₃.machine) (w₄ : World)
      (hsettles : w₃.machine.Settles A.host w₄.machine) :
      Beside P argv dir before after pid w₄.machine := hw.settles O hsettles
  refine Prog.wp_await (I := fun w₃ => Beside P argv dir before after pid w₃.machine) (p := T.lags)
    (fun w₃ hw => ?_) (fun w₃ hw => monotonic_wp (hwaits w₃ hw))
    (fun w₃ hw => sleep_wp (hwaits w₃ hw)) (fun w₃ hlags hw => ⟨trivial, .inr hlags, .inr ⟨pid, hw⟩⟩)
    hbeside (Prog.deadline_lt (by decide) hstart)
  refine Prog.wp_reraise (Prog.wp_perform.mpr ⟨trivial, fun exitCode w₄ hsem => ?_, fun x w₄ hsem => ?_⟩)
  · obtain ⟨⟨m, hsettles, ⟨said, hpolled, rfl⟩, heq⟩, hclock, -⟩ := hsem
    have hw₄ := hwaits w₃ hw w₄ (by rw [heq]; exact hsettles)
    cases said with
    | none => exact ⟨⟨hpolled, hw₄⟩, hclock⟩
    | some e =>
      rw [← heq] at hpolled
      obtain ⟨honly, hafter⟩ := hw₄.ended hpolled
      exact ⟨honly, hw₄, e, hafter⟩
  · obtain ⟨⟨m, hsettles, hraises, heq⟩, -, hraw⟩ := hsem
    rw [hraw x rfl]
    exact ⟨rfl, trivial, .inl hraises, .inr ⟨pid, hwaits w₃ hw w₄ (by rw [heq]; exact hsettles)⟩⟩

end Execute

/-- **A command in the guest, besides processes of a kind**: its line is run once, and then collected;
or it is started at most once, and a `GuestAgentError` is raised. -/
theorem executeBeside_wp {before : Files → Prop} {after : String → Ended → Files → Prop}
    {Q : ExecResult → World → Prop} {E : Fault → World → Prop}
    (hnul : ∀ a ∈ name :: args, Shell.nul ∉ a.toList)
    (O : ∀ token, token.toList.all Char.isAlphanum = true →
      Outlook A.host P (shellArgv (name :: args) token) (workDir A cwd) before (after token))
    (honly : w.machine.Only P) (hbefore : before w.machine.files)
    (hcollect : ∀ token exitCode files pid e w₁, before files →
      (∀ path ∈ temps token, files path = none) → token.toList.all Char.isAlphanum = true →
      w₁.machine.Only P → after token e w₁.machine.files →
      Beside P (shellArgv (name :: args) token) (workDir A cwd) before (after token) pid w₁.machine →
      (collect vm token exitCode).wp (.ofSem (sem A T) fun _ => True) Q E w₁)
    (hfail : ∀ token x w₁, token.toList.all Char.isAlphanum = true → x.IsGuestAgentError →
      (T.raises ∨ T.lags) →
      w₁.machine.Launched P (shellArgv (name :: args) token) (workDir A cwd) before (after token) →
      E x w₁) :
    (execute vm (name :: args) timeout cwd).wp (.ofSem (sem A T) fun _ => True) Q E w := by
  have hleaves : Leaves A.host P before := (O "" rfl).before
  unfold execute
  refine Prog.wp_seq (monotonic_wp (R := fun w₁ => w₁.machine.Only P ∧ before w₁.machine.files)
    fun w₁ hsettles => honly.settles hleaves hbefore hsettles) ?_
  rintro start w₁ ⟨⟨honly₁, hbefore₁⟩, -, hstart⟩
  refine Prog.wp_seq (P := fun token w₂ => (token.toList.all Char.isAlphanum = true ∧
    ∀ path ∈ temps token, w₂.machine.files path = none) ∧
      (w₂.machine.Only P ∧ before w₂.machine.files) ∧ start ≤ w₂.clock) ?_ ?_
  · refine Prog.wp_answered trivial fun r w₂ hsem => ?_
    obtain ⟨⟨m, hsettles, ⟨token, rfl, halnum, hfresh⟩, heq⟩, hclock, -⟩ := hsem
    have heq : w₂.machine = m := heq
    have hm := honly₁.settles hleaves hbefore₁ hsettles
    rw [← heq] at hm
    refine ⟨token, rfl, ⟨halnum, fun path hpath => ?_⟩, hm, hstart.trans hclock⟩
    obtain ⟨ext, hext, rfl⟩ : ∃ ext ∈ ["out", "err", "rc"], path = tempPath token ext := by
      simpa [temps] using hpath
    rw [heq]
    exact hfresh ext hext
  rintro token w₂ ⟨⟨htoken, hfresh⟩, ⟨honly₂, hbefore₂⟩, hstart₂⟩
  refine Prog.wp_seq (P := fun pid w₃ => Beside P (shellArgv (name :: args) token) (workDir A cwd)
    before (after token) pid w₃.machine ∧ start ≤ w₃.clock) (Prog.wp_reraise ?_) ?_
  · refine Prog.wp_mono (fun pid w₃ h => ⟨h.1, hstart₂.trans h.2⟩) (fun x w₃ h => ?_)
      (spawn_wp (nul_notMem_wrapper hnul htoken) (O token htoken) honly₂ hbefore₂)
    exact ⟨h.1, hfail token _ _ htoken trivial (.inl h.2.1) h.2.2⟩
  rintro pid w₃ ⟨hbeside, hstart₃⟩
  refine Prog.wp_seq (Prog.wp_mono (fun _ _ h => h) (fun x w₄ h => ?_)
    (await_wp (O token htoken) hbeside hstart₃)) ?_
  · exact hfail token x w₄ htoken h.1 h.2.1 h.2.2
  rintro exitCode w₄ ⟨honly₄, hbeside₄, e, hafter⟩
  exact hcollect token exitCode _ pid e w₄ hbefore₂ hfresh htoken honly₄ hafter hbeside₄

/-- The files that are taken away after the output was read. -/
theorem deletes_wp (token : String) (res : ExecResult) (hP : P.Keeps A.host K)
    (honly : w.machine.Only P) :
    (do
      delete (tempPath token "out")
      delete (tempPath token "err")
      delete (tempPath token "rc")
      pure res : Act ExecResult).wp (.ofSem (sem A T) fun _ => True)
      (fun res' w' => res' = res ∧ Steady P (K ∪ {k | k ∈ temps token}) w.machine w'.machine ∧
        (¬ T.raises → ∀ k ∈ temps token, k ∉ K → w'.machine.files k = none)) (fun _ _ => False) w := by
  refine Prog.wp_seq (delete_wp hP honly) fun _ w₁ ⟨hout, hgone⟩ => ?_
  refine Prog.wp_seq (delete_wp hP hout.only) fun _ w₂ ⟨herr, hgone₂⟩ => ?_
  refine Prog.wp_seq (delete_wp hP herr.only) fun _ w₃ ⟨hrc, hgone₃⟩ => ?_
  have hsub {ext : String} (hext : tempPath token ext ∈ temps token) :
      K ∪ {tempPath token ext} ⊆ K ∪ {k | k ∈ temps token} := by
    rintro k (hk | rfl)
    · exact .inl hk
    · exact .inr hext
  refine ⟨rfl, ⟨hrc.only, ?_⟩, fun hraises k hk hk' => ?_⟩
  · have hfirst := hout.files.mono (hsub (by simp [temps]))
    have hsecond := herr.files.mono (hsub (by simp [temps]))
    exact (hfirst.trans hsecond).trans (hrc.files.mono (hsub (by simp [temps])))
  · simp only [temps, List.mem_cons, List.not_mem_nil, or_false] at hk
    rcases hk with rfl | rfl | rfl
    · rw [hrc.files _ fun h => h.elim hk' out_ne_rc, herr.files _ fun h => h.elim hk' out_ne_err,
        hgone hraises]
    · rw [hrc.files _ fun h => h.elim hk' err_ne_rc, hgone₂ hraises]
    · exact hgone₃ hraises

/-- What is collected of a command changes its temporary files only. -/
theorem collect_keeps (vm token : String) (exitCode : ℤ) (hP : P.Keeps A.host K)
    (honly : w.machine.Only P) :
    (collect vm token exitCode).wp (.ofSem (sem A T) fun _ => True)
      (fun _ w' => Steady P (K ∪ {k | k ∈ temps token}) w.machine w'.machine)
      (fun _ w' => Steady P (K ∪ {k | k ∈ temps token}) w.machine w'.machine) w := by
  have hread (ext : String) {w₁ : World}
      (h : Steady P (K ∪ {k | k ∈ temps token}) w.machine w₁.machine) :
      (read vm (tempPath token ext)).wp (.ofSem (sem A T) fun _ => True)
        (fun _ w' => Steady P (K ∪ {k | k ∈ temps token}) w.machine w'.machine)
        (fun _ w' => Steady P (K ∪ {k | k ∈ temps token}) w.machine w'.machine) w₁ :=
    Prog.wp_mono (fun _ _ h' => ⟨h'.1.only, h.files.trans (h'.1.files.mono Set.subset_union_left)⟩)
      (fun _ _ h' => ⟨h'.2.1.only, h.files.trans (h'.2.1.files.mono Set.subset_union_left)⟩)
      (read_wp vm token ext hP h.only)
  refine Prog.wp_seq (hread "out" (.start honly)) fun _ w₁ h₁ => ?_
  refine Prog.wp_seq (hread "err" h₁) fun _ w₂ h₂ => ?_
  refine Prog.wp_seq (hread "rc" h₂) fun _ w₃ h₃ => ?_
  exact Prog.wp_mono (fun _ _ h => ⟨h.2.1.only, h₃.files.trans h.2.1.files⟩) (fun _ _ h => h.elim)
    (deletes_wp token _ hP h₃.only)

/-- **A command that is executed besides others** changes no files but those that the command may
change, and the temporary ones; and when it returns nothing of it is left to run. -/
theorem execute_keeps {F : Set String} (D : Echoes A.host) (hrun : Runnable A.host name args) (hP : P.Keeps A.host K)
    (hspares : Spares A.host (name :: args) (workDir A cwd) F) (honly : w.machine.Only P) :
    (execute vm (name :: args) timeout cwd).wp (.ofSem (sem A T) fun _ => True)
      (fun _ w' => Steady P (K ∪ (F ∪ allTemps)) w.machine w'.machine)
      (fun _ w' => Steady (fun a d => P a d ∨ Harmless A.host (F ∪ allTemps) a d)
        (K ∪ (F ∪ allTemps)) w.machine w'.machine) w := by
  have hharmless (token : String) (htoken : token.toList.all Char.isAlphanum = true) :
      Harmless A.host (F ∪ allTemps) (shellArgv (name :: args) token) (workDir A cwd) :=
    harmless_wrapper D hrun htoken hspares
  refine executeBeside_wp (P := P) hrun.nul
    (fun token htoken => outlook_sameBut hP (hharmless token htoken) w.machine.files) honly
    (.refl _ _) (fun token exitCode files pid e w₁ _ _ _ honly₁ hafter _ => ?_)
    fun token x w₁ htoken _ _ hlaunched => ?_
  · have hsub : K ∪ {k | k ∈ temps token} ⊆ K ∪ (F ∪ allTemps) := by
      rintro k (hk | hk)
      · exact .inl hk
      · exact .inr (.inr ⟨token, hk⟩)
    refine Prog.wp_mono (fun _ _ h => ?_) (fun _ _ h => ?_)
      (collect_keeps vm token exitCode hP honly₁)
    · exact ⟨h.only, SameBut.trans hafter (h.files.mono hsub)⟩
    · exact ⟨h.only.mono fun _ _ => .inl, SameBut.trans hafter (h.files.mono hsub)⟩
  · obtain ⟨hkind, hfiles⟩ := hlaunched.steady
    refine ⟨hkind.mono fun a d h => h.imp_right ?_, hfiles⟩
    rintro ⟨rfl, rfl⟩
    exact hharmless token htoken

/-- The files of the guest when the command has run, but for its temporary files. -/
structure Collected (A : Agent) (T : Trust) (argv : List String) (cwd : String) (w : World)
    (token : String) (res : ExecResult) (w' : World) : Prop where
  fresh : ∀ path ∈ temps token, w.machine.files path = none
  result : let e := (A.host.spawn argv (workDir A cwd) (opened token w.machine.files)).1
    res = ⟨e.status, e.stdout, e.stderr⟩
  files : ∀ k, k ∉ temps token → w'.machine.files k =
    (A.host.spawn argv (workDir A cwd) (opened token w.machine.files)).2 k
  clean : ¬ T.raises → ∀ k ∈ temps token, w'.machine.files k = none
  quiet : w'.machine.Quiet

/-- A command that failed was started at most once. -/
inductive Tried (A : Agent) (argv : List String) (cwd : String) (w w' : World) : Prop
  | unstarted (hquiet : w'.machine.Quiet) (hfiles : w'.machine.files = w.machine.files)
  | started (token : String) (pid : ℕ)
      (hdoing : Doing A.host (shellArgv argv token) (workDir A cwd) w.machine.files pid w'.machine)
  | ended (token : String) (hquiet : w'.machine.Quiet) (e : Ended)
      (hends : Ends A.host (shellArgv argv token) (workDir A cwd) w.machine.files e w'.machine.files)

/-- **A command that is executed in the guest** runs once, between its output files that are new; its
status and all of its output come back, and the files are taken away.  It fails only where the agent
does or where there is no writing to the temporary directory. -/
theorem execute_wp (D : Echoes A.host) (hrun : Runnable A.host name args) (hquiet : w.machine.Quiet) :
    (execute vm (name :: args) timeout cwd).wp (.ofSem (sem A T) fun _ => True)
      (fun res w' => ∃ token, Collected A T (name :: args) cwd w token res w')
      (fun x w' => x.IsGuestAgentError ∧ (T.raises ∨ T.lags ∨ Unwritable A.host) ∧
        Tried A (name :: args) cwd w w') w := by
  have houtlook (token : String) (_ : token.toList.all Char.isAlphanum = true) :
      Outlook A.host (fun _ _ => False) (shellArgv (name :: args) token) (workDir A cwd)
        (· = w.machine.files)
        (Ends A.host (shellArgv (name :: args) token) (workDir A cwd) w.machine.files) :=
    outlook_alone ..
  refine executeBeside_wp hrun.nul houtlook hquiet rfl (fun token exitCode files pid e w₄ => ?_)
    fun token x w₁ _ hx hwhy hlaunched => ⟨hx, hwhy.imp_right .inl, ?_⟩
  rotate_left
  · rcases hlaunched with ⟨hstill, hfiles⟩ | ⟨pid, hdoing⟩
    · exact .unstarted hstill hfiles
    · exact .started token pid hdoing
  rintro rfl hfresh htoken hquiet₄ hends hdoing
  have hleft := wrapper_ends D hrun htoken hends
  have hstill {w₅ : World} (hsteady : Steady (fun _ _ => False) ∅ w₄.machine w₅.machine) :
      w₅.machine.files = w₄.machine.files := funext fun k => hsteady.files k (by simp)
  -- Where one of the files is missing, reading it fails.
  have hmissing {ext : String} (hext : tempPath token ext ∈ temps token)
      (hnone : w₄.machine.files (tempPath token ext) = none) : Unwritable A.host := by
    refine hleft.elim (fun hclosed => ?_) And.left
    rw [hclosed] at hnone
    simp only [temps, List.mem_cons, List.not_mem_nil, or_false] at hext
    rcases hext with h | h | h <;> rw [h] at hnone <;>
      simp [closed, out_ne_err, out_ne_rc, err_ne_rc] at hnone
  have hread {ext : String} (hext : tempPath token ext ∈ temps token) {w₅ : World}
      (hsteady : Steady (fun _ _ => False) ∅ w₄.machine w₅.machine) :
      (read vm (tempPath token ext)).wp (.ofSem (sem A T) fun _ => True)
        (fun data w' => w₄.machine.files (tempPath token ext) = some data ∧
          Steady (fun _ _ => False) ∅ w₄.machine w'.machine)
        (fun x w' => x.IsGuestAgentError ∧ (T.raises ∨ T.lags ∨ Unwritable A.host) ∧
          Tried A (name :: args) cwd w w') w₅ := by
    refine Prog.wp_mono (fun _ _ h => ?_) (fun x w' h => ?_)
      (read_wp vm token ext (quiet_keeps A.host ∅) hsteady.only)
    · rw [hstill hsteady] at h
      exact ⟨h.2 (by simp), h.1.only, hsteady.files.trans h.1.files⟩
    · rw [hstill hsteady] at h
      refine ⟨h.1, (h.2.2 (by simp)).imp_right fun hnone => .inr (hmissing hext hnone),
        .ended token h.2.1.only e ?_⟩
      rw [hstill ⟨h.2.1.only, hsteady.files.trans h.2.1.files⟩]
      exact hends
  refine Prog.wp_seq (hread (by simp [temps]) (.start hquiet₄)) fun stdout w₅ ⟨hstdout, h₅⟩ => ?_
  refine Prog.wp_seq (hread (by simp [temps]) h₅) fun stderr w₆ ⟨hstderr, h₆⟩ => ?_
  refine Prog.wp_seq (hread (by simp [temps]) h₆) fun rcRaw w₇ ⟨hrc, h₇⟩ => ?_
  have hclosed := hleft.resolve_right (by
    rintro ⟨-, -, hsome⟩
    obtain ⟨path, hpath, hnone⟩ := hsome hfresh
    simp only [temps, List.mem_cons, List.not_mem_nil, or_false] at hpath
    rcases hpath with rfl | rfl | rfl
    · rw [hstdout] at hnone
      cases hnone
    · rw [hstderr] at hnone
      cases hnone
    · rw [hrc] at hnone
      cases hnone)
  refine Prog.wp_mono (fun res w₈ h => ?_) (fun _ _ h => h.elim)
    (deletes_wp token _ (quiet_keeps A.host ∅) h₇.only)
  obtain ⟨rfl, hspared, hclean⟩ := h
  rw [hclosed] at hstdout hstderr hrc
  refine ⟨token, hfresh, ?_, fun k hk => ?_, fun h k hk => hclean h k hk (by simp), hspared.only⟩
  · simp only [closed, Function.update_of_ne out_ne_rc, Function.update_of_ne out_ne_err,
      Function.update_of_ne err_ne_rc, Function.update_self, Option.some.injEq] at hstdout hstderr hrc
    subst hstdout hstderr hrc
    rw [intOf_digits]
  · rw [hspared.files k fun h => h.elim (by simp) hk, hstill h₇, hclosed]
    simp only [temps, List.mem_cons, List.not_mem_nil, or_false, not_or] at hk
    rw [closed, Function.update_of_ne hk.2.2, Function.update_of_ne hk.2.1,
      Function.update_of_ne hk.1]

end Laws

/-! ### Runs -/

/-- What comes of a command in a guest where nothing else runs. -/
def Executed (A : Agent) (T : Trust) (argv : List String) (cwd : String) (w : World)
    (out : Except Fault ExecResult) (w' : World) : Prop :=
  match out with
  | .ok res => ∃ token, Collected A T argv cwd w token res w'
  | .error x => x.IsGuestAgentError ∧ (T.raises ∨ T.lags ∨ Unwritable A.host) ∧ Tried A argv cwd w w'

/-- **A command in a guest where nothing else runs**: when that returns, the command has run once, its
status and all of its output are what is returned, and of the temporary files none is left that could
be deleted.  It raises a `GuestAgentError` and nothing else, only where the agent fails or there is no
writing to the temporary directory, and has started the command at most once. -/
theorem execute_runs {A : Agent} {T : Trust} (vm : String) {name : String} {args : List String}
    (timeout : ℕ) (cwd : String) {w w' : World} {tr : List (Prog.Call sig Fault)}
    {out : Except Fault ExecResult} (D : Echoes A.host) (hrunnable : Runnable A.host name args)
    (hquiet : w.machine.Quiet)
    (hrun : Prog.Runs (sem A T) (execute vm (name :: args) timeout cwd) w tr out w') :
    Executed A T (name :: args) cwd w out w' := by
  have hwp := Prog.runs_of_wp (execute_wp D hrunnable hquiet) hrun
  rcases out with x | res
  · exact hwp.2 x rfl
  · exact hwp.1 res rfl

theorem plainHost_echoes : Echoes plainHost :=
  ⟨plainHost_names (by simp), fun _ _ _ => rfl⟩

theorem plainHost_runnable : Runnable plainHost "cat" ["a.txt", "b c.txt"] where
  names := plainHost_names (by simp)
  nul := by decide
  temps dir files token path _ := by
    rw [plainHost_cat]
    split <;> rfl

section Ends

variable {A : Agent} {T : Trust} {w : World} {name token cwd : String} {args : List String}

theorem read_live (vm path : String) : Prog.Live (sem A T) (read vm path) := by
  have hdownload : Prog.Live (sem A T) (download path) := by
    refine .bind (.perform fun w => ?_) fun url => .perform fun w => ?_
    · let w' : World := { w with tickets := Function.update w.tickets "url" (some (resolve A.dir path)) }
      have hticket : w'.tickets "url" = some (resolve A.dir path) :=
        Function.update_self "url" (some (resolve A.dir path)) w.tickets
      exact ⟨.ok "url", w', ⟨w.machine, .refl, hticket, rfl⟩, le_rfl, fun _ h => by cases h⟩
    · by_cases hthere : ∃ path bytes, w.tickets url = some path ∧ w.machine.files path = some bytes
      · obtain ⟨path, bytes, hthere⟩ := hthere
        exact ⟨.ok bytes, w, ⟨w.machine, .refl, ⟨path, hthere⟩, rfl⟩, le_rfl, fun _ h => by cases h⟩
      · refine ⟨.error .raw, w, ⟨w.machine, .refl, .inr fun path hpath => ?_, rfl⟩, le_rfl,
          fun _ h => by cases h; rfl⟩
        exact Option.eq_none_iff_forall_ne_some.mpr fun bytes hfile => hthere ⟨path, bytes, hpath, hfile⟩
  refine .tryCatch hdownload fun x => ?_
  split_ifs
  · exact .raise _
  · exact .raise _

theorem delete_live (path : String) : Prog.Live (sem A T) (delete path) := by
  refine .tryCatch (.perform fun w => ?_) fun x => ?_
  · let w' : World := { w with machine :=
      ⟨Function.update w.machine.files (resolve A.dir path) none, w.machine.processes⟩ }
    exact ⟨.ok (), w', ⟨w.machine, .refl, rfl, rfl⟩, le_rfl, fun _ h => by cases h⟩
  · cases x with
    | spins => exact .raise _
    | _ => exact .ret _

theorem collect_live (vm token : String) (exitCode : ℤ) : Prog.Live (sem A T) (collect vm token exitCode) :=
  .bind (read_live vm _) fun _ => .bind (read_live vm _) fun _ => .bind (read_live vm _) fun _ =>
    .bind (delete_live _) fun _ => .bind (delete_live _) fun _ => .bind (delete_live _) fun _ => .ret _

/-- **No command waits for an answer that may not come**: where the temporary files are new it may be
run at once. -/
theorem execute_ends (vm : String) (timeout : ℕ) (cwd : String)
    (hnul : ∀ a ∈ name :: args, Shell.nul ∉ a.toList) (htoken : token.toList.all Char.isAlphanum = true)
    (hfresh : ∀ ext ∈ ["out", "err", "rc"], w.machine.files (tempPath token ext) = none)
    (hroom : w.machine.Roomy) :
    ∃ out w', Prog.Ends (sem A T) (execute vm (name :: args) timeout cwd) w out w' := by
  obtain ⟨pid, hfree, -⟩ := hroom.fresh
  let argv := shellArgv (name :: args) token
  obtain ⟨e, files', hends⟩ := Ends.exist A.host argv (workDir A cwd) w.machine.files
  let w₁ : World := { w with machine :=
    ⟨w.machine.files, Function.update w.machine.processes pid (some (.running argv (workDir A cwd)))⟩ }
  let w₂ : World := { w with machine :=
    ⟨files', Function.update w.machine.processes pid (some (.exited e))⟩ }
  -- One round: the program has ended by the first listing.
  have hclock : sem A T .monotonic w (.ok w.clock) w :=
    ⟨⟨w.machine, .refl, ⟨_, rfl, le_rfl, le_rfl⟩, rfl⟩, le_rfl, fun _ h => by cases h⟩
  have hnew : sem A T .tokenHex w (.ok token) w :=
    ⟨⟨w.machine, .refl, ⟨token, rfl, htoken, hfresh⟩, rfl⟩, le_rfl, fun _ h => by cases h⟩
  have hstart : sem A T (.startProgram "/bin/sh"
      ("-c " ++ Shell.quote (wrapper (name :: args) token)) cwd) w (.ok pid) w₁ := by
    refine ⟨⟨w.machine, .refl, fun words hwords => ?_⟩, le_rfl, fun _ h => by cases h⟩
    rw [argumentsOf_wrapper (nul_notMem_wrapper hnul htoken)] at hwords
    cases hwords
    exact ⟨hfree, rfl⟩
  have hexited : w₂.machine.processes pid = some (.exited e) := Function.update_self ..
  have hlisted : sem A T (.listProcesses pid) w₁ (.ok (some (e.status : ℤ))) w₂ :=
    ⟨⟨w₂.machine, hends.settles w.machine.processes pid, ⟨some e, hexited, rfl⟩, rfl⟩, le_rfl,
      fun _ h => by cases h⟩
  obtain ⟨out, w', hcollect⟩ := collect_live (A := A) (T := T) vm token e.status w₂
  exact ⟨out, w', .call hclock (.call hnew (.call hstart (.call hlisted hcollect)))⟩

end Ends

def deskWorld : World := ⟨⟨deskFiles, fun _ => none⟩, fun _ => none, 0⟩

/-- A temporary file is not in that directory. -/
theorem ne_tempPath (token ext rest : String) : "/root/" ++ rest ≠ tempPath token ext := by
  intro heq
  have hlists := congrArg String.toList heq
  rw [toList_tempPath, String.toList_append] at hlists
  cases hlists

theorem opened_desk (token rest : String) :
    opened token deskFiles ("/root/" ++ rest) = deskFiles ("/root/" ++ rest) := by
  rw [opened, Function.update_of_ne (ne_tempPath token "err" rest),
    Function.update_of_ne (ne_tempPath token "out" rest)]

/-- A command in a directory, whose words have blanks in them: it returns all of its output, and
leaves the files as they were. -/
theorem execute_desk : ∃ tr w', Prog.Runs (sem plainAgent ⟨False, False⟩)
    (execute "vm" ["cat", "a.txt", "b c.txt"] 60000 "my docs") deskWorld tr
      (.ok ⟨0, [72, 105, 33], []⟩) w' ∧ w'.machine.Quiet ∧
    w'.machine.files "/root/my docs/a.txt" = some [72, 105] ∧
      ∃ token, ∀ k ∈ temps token, w'.machine.files k = none := by
  have hfresh : ∀ ext ∈ ["out", "err", "rc"], deskWorld.machine.files (tempPath "00ff" ext) = none := by
    intro ext _
    have ha : tempPath "00ff" ext ≠ "/root/my docs/a.txt" := (ne_tempPath "00ff" ext "my docs/a.txt").symm
    have hb : tempPath "00ff" ext ≠ "/root/my docs/b c.txt" := (ne_tempPath "00ff" ext "my docs/b c.txt").symm
    show deskFiles (tempPath "00ff" ext) = none
    rw [deskFiles, if_neg ha, if_neg hb]
  obtain ⟨out, w', tr, hrun⟩ := execute_ends (A := plainAgent) (T := ⟨False, False⟩) (w := deskWorld) "vm"
    60000 "my docs" plainHost_runnable.nul (show "00ff".toList.all Char.isAlphanum = true by decide) hfresh
    ⟨0, fun _ _ => rfl⟩
  have hexecuted := execute_runs "vm" 60000 "my docs" plainHost_echoes plainHost_runnable
    (fun _ _ _ h => by cases h) hrun
  rcases out with x | res
  · obtain ⟨-, hwhy | hwhy | ⟨_, _, _, hwhy⟩, -⟩ := hexecuted
    · exact hwhy.elim
    · exact hwhy.elim
    · cases hwhy
  · obtain ⟨token, hcollected⟩ := hexecuted
    -- The names with the token are fresh, so the two files are still what they were.
    have hran := cat_desk (opened_desk token "my docs/a.txt") (opened_desk token "my docs/b c.txt")
    have hdir : workDir plainAgent "my docs" = "/root/my docs" := by decide
    have hres := hcollected.result
    have hfiles := hcollected.files "/root/my docs/a.txt" ?_
    · rw [hdir, show plainAgent.host = plainHost from rfl, show deskWorld.machine.files = deskFiles from rfl,
        hran] at hres hfiles
      rw [hres] at hrun
      exact ⟨tr, w', hrun, hcollected.quiet, hfiles.trans (opened_desk token "my docs/a.txt"), token,
        hcollected.clean id⟩
    · simp only [temps, List.mem_cons, List.not_mem_nil, or_false, not_or]
      exact ⟨ne_tempPath token "out" "my docs/a.txt", ne_tempPath token "err" "my docs/a.txt",
        ne_tempPath token "rc" "my docs/a.txt"⟩

end TestRange.Guest.Esxi
