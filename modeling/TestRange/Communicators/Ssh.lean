/-
The SSH communicator.

A connection is made when the first request needs one, over and over until `sshd` answers or time is
up; through a gateway every attempt has a socket of its own, which the SSH library closes only if it
has made it.  A command is a line for the login shell: the words as `shlex` joins them, behind a `cd`
where there is a directory to go to.

* `Ssh.ensureConnected`, `Ssh.execute`, `Ssh.readFile`, `Ssh.writeFile`, `Ssh.close` — the
  communicator;
* `Ssh.Answer`, `Ssh.sem` — what the gateway, the SSH library and the guest do;
* `Ssh.World.Neat` — no socket is left open that does not carry the connection;
* `Ssh.sockets_neat` — it is so after any requests;
* `Ssh.commandLine_run` — what the line of a command does;
* `Ssh.session_runs` — what comes of the requests in the guest.
-/
import TestRange.Drivers.Guest.Machine
import TestRange.Lib.Poll
import TestRange.Lib.Trace

namespace TestRange.Ssh

open Shell (Files Ended resolve)
open Guest (Agent Machine Trust ExecResult Spawned Doing Ends SameBut outlook_alone)

/-! ### Calls -/

/-- What is raised: `ValueError` for an empty command, `CommunicatorError` by what is wrong, and what
the libraries raise: `OSError` or `TimeoutError`, `SSHException`, `EOFError`, `GatewayError` and
anything else. -/
inductive Fault
  | emptyArgv
  | notBound (username : String)
  | noSecret (username : String)
  | badKey
  | gateway (host : String) (port : ℕ)
  | connectFailed (host : String) (port : ℕ) (username : String)
  | execFailed (cmd host : String) (timeout : ℕ)
  | noExitStatus (cmd host : String) (timeout : ℕ)
  | drainStalled (cmd host : String) (timeout : ℕ)
  | sftpRead (path host : String)
  | sftpWrite (length : ℕ) (path host : String)
  | os
  | ssh
  | eof
  | gatewayError
  | other
  /-- A loop has used up its fuel. -/
  | spins

/-- What a library raises. -/
def Fault.IsForeign : Fault → Prop
  | .os | .ssh | .eof | .gatewayError | .other => True
  | _ => False

/-- `except (paramiko.SSHException, OSError, socket.error)` -/
def Fault.retryable : Fault → Bool
  | .os | .ssh => true
  | _ => false

/-- `except (TimeoutError, OSError, EOFError, paramiko.SSHException)` -/
def Fault.channelLevel : Fault → Bool
  | .os | .ssh | .eof => true
  | _ => false

/-- What has become of the thread that drains stderr. -/
inductive Drained
  | alive
  | failed (x : Fault)
  | done (bytes : Shell.Bytes)

inductive Op
  | hasClient
  | setClient
  | clearClient
  | closeClient
  | closeGateway
  | loadPrivateKey (text : String)
  | openSocket (host : String) (port : ℕ)
  | connect (sock : Option ℕ)
  | closeSocket (sock : ℕ)
  | execCommand (cmd : String) (timeout : ℕ)
  | readStdout (channel : ℕ)
  | exitStatusReady (channel : ℕ)
  | recvExitStatus (channel : ℕ)
  | joinDrain (channel timeout : ℕ)
  | drained (channel : ℕ)
  | closeChannel (channel : ℕ)
  | openSftp
  | sftpRead (path : String)
  | sftpPut (path : String) (data : Shell.Bytes)
  | closeSftp
  | monotonic
  | sleep (ms : ℕ)

abbrev sig : Sig where
  Op := Op
  Res
    | .hasClient => Bool
    | .openSocket _ _ => ℕ
    | .execCommand _ _ => ℕ
    | .readStdout _ => Shell.Bytes
    | .exitStatusReady _ => Bool
    | .recvExitStatus _ => ℤ
    | .drained _ => Drained
    | .sftpRead _ => Shell.Bytes
    | .monotonic => ℕ
    | _ => Unit

abbrev Act := Prog sig Fault

def op (o : Op) : Act (sig.Res o) := Prog.perform (S := sig) o

/-! ### The communicator -/

/-- What a communicator is bound to: the address of the guest, the credential, and whether there is a
gateway. -/
structure Binding where
  host : String
  port : ℕ
  sshKey : Option String
  password : Option String
  gateway : Bool

/-- A communicator: its user, and what it is bound to. -/
structure Communicator where
  username : String
  binding : Option Binding

def backoff : ℕ := 3000

def totalTimeout : ℕ := 180000

/-- One attempt to connect, where a guest that is not up yet is no answer. -/
def attempt (b : Binding) : Act (Option Unit) := do
  if b.gateway then
    match ← Prog.attempt (op (.openSocket b.host b.port)) with
    | .error .gatewayError => throw (.gateway b.host b.port)
    | .error x => if x.retryable then pure none else throw x
    | .ok sock =>
      match ← Prog.attempt (op (.connect (some sock))) with
      | .ok _ =>
        op .setClient
        pure (some ())
      | .error x =>
        if x.retryable then
          Prog.ignore (op (.closeSocket sock))
          pure none
        else throw x
  else
    match ← Prog.attempt (op (.connect none)) with
    | .ok _ =>
      op .setClient
      pure (some ())
    | .error x => if x.retryable then pure none else throw x

/-- The secret of the credential: a key if there is one, or else a password. -/
def secret (username : String) (b : Binding) : Act Unit :=
  match b.sshKey, b.password with
  | some key, _ => op (.loadPrivateKey key)
  | none, some password => if password = "" then throw (.noSecret username) else pure ()
  | none, none => throw (.noSecret username)

/-- `_ensure_connected` -/
def ensureConnected (c : Communicator) : Act Unit := do
  if ← op .hasClient then pure ()
  else
    match c.binding with
    | none => throw (.notBound c.username)
    | some b =>
      secret c.username b
      let start ← op .monotonic
      Prog.retry (attempt b) (op .monotonic) (op (.sleep backoff))
        (throw (.connectFailed b.host b.port c.username)) .spins (start + totalTimeout)
        (totalTimeout / backoff + 2)

def Communicator.host (c : Communicator) : String :=
  match c.binding with
  | some b => b.host
  | none => ""

/-- The line of a command; `cwd` is empty when there is none. -/
def commandLine (argv : List String) (cwd : String) : String :=
  if cwd = "" then Shell.join argv else "cd -- " ++ Shell.quote cwd ++ " && exec " ++ Shell.join argv

/-- Wait for the exit status, up to a deadline. -/
def waitExit (channel deadline : ℕ) (late : Fault) : ℕ → Act Unit
  | 0 => throw .spins
  | fuel + 1 => do
    if ← op (.exitStatusReady channel) then pure ()
    else
      if deadline ≤ (← op .monotonic) then
        Prog.ignore (op (.closeChannel channel))
        throw late
      else
        op (.sleep 50)
        waitExit channel deadline late fuel

/-- The output and the status of the command on a channel. -/
def collect (channel timeout : ℕ) (cmd host : String) : Act ExecResult := do
  let (stdout, exitCode) ← Prog.tryFinally (do
      let stdout ← op (.readStdout channel)
      let start ← op .monotonic
      waitExit channel (start + timeout) (.noExitStatus cmd host timeout) (timeout / 50 + 2)
      let exitCode ← op (.recvExitStatus channel)
      pure (stdout, exitCode))
    (op (.joinDrain channel timeout))
  match ← op (.drained channel) with
  | .alive =>
    Prog.ignore (op (.closeChannel channel))
    throw (.drainStalled cmd host timeout)
  | .failed x => throw x
  | .done stderr => pure ⟨exitCode, stdout, stderr⟩

/-- `execute`, where `timeout` is in milliseconds. -/
def execute (c : Communicator) (argv : List String) (timeout : ℕ) (cwd : String) : Act ExecResult :=
  if argv = [] then throw .emptyArgv
  else do
    ensureConnected c
    let cmd := commandLine argv cwd
    tryCatch (do
        let channel ← op (.execCommand cmd timeout)
        collect channel timeout cmd c.host)
      fun x => if x.channelLevel then throw (.execFailed cmd c.host timeout) else throw x

/-- `except OSError as e: raise CommunicatorError(…) from e` -/
def sftp {α : Type} (p : Act α) (e : Fault) : Act α := do
  op .openSftp
  Prog.tryFinally (tryCatch p fun
    | .os => throw e
    | x => throw x) (op .closeSftp)

/-- `read_file` -/
def readFile (c : Communicator) (path : String) : Act Shell.Bytes := do
  ensureConnected c
  sftp (op (.sftpRead path)) (.sftpRead path c.host)

/-- `write_file` -/
def writeFile (c : Communicator) (path : String) (data : Shell.Bytes) : Act Unit := do
  ensureConnected c
  sftp (op (.sftpPut path data)) (.sftpWrite data.length path c.host)

/-- `close` -/
def close (c : Communicator) : Act Unit := do
  if ← op .hasClient then
    Prog.ignore (op .closeClient)
    op .clearClient
  match c.binding with
  | some b => if b.gateway then op .closeGateway else pure ()
  | none => pure ()

/-! ### The world -/

structure World where
  machine : Machine
  /-- The sockets that the gateway has opened and that were not closed. -/
  sockets : Set ℕ
  /-- The sockets that were asked to close. -/
  closes : Set ℕ
  /-- `_client` is set. -/
  client : Bool
  /-- The socket that carries the connection. -/
  carrier : Option ℕ
  clock : ℕ

/-- What the transport may do besides what it is asked for: raise, take its time, and die under a
command. -/
structure Link extends Trust where
  dies : Prop

/-- What the process on a channel has written, or is writing. -/
def Writes (host : Shell.Host) (m : Machine) (channel : ℕ) (e : Ended) : Prop :=
  m.processes channel = some (.exited e) ∨
    ∃ argv dir files', m.processes channel = some (.running argv dir) ∧ Ends host argv dir m.files e files'

/-- A channel gives all of what its process has left; or it gives what had come when the transport
died. -/
def Arrives (A : Agent) (T : Link) (channel : ℕ) (m : Machine) (all part : Ended → Prop) : Prop :=
  (∃ e, m.processes channel = some (.exited e) ∧ all e) ∨
    T.dies ∧ ∃ e, Writes A.host m channel e ∧ part e

/-- Nothing but the machine and the clock is changed. -/
def World.Alike (w w' : World) : Prop :=
  w'.sockets = w.sockets ∧ w'.closes = w.closes ∧ w'.client = w.client ∧ w'.carrier = w.carrier

/-- What a call does, at its time.  The sockets of a gateway are numbered over the whole run, and
`connect` raises `SSHException` and `OSError` only. -/
def Answer (A : Agent) (T : Link) : (o : Op) → World → Except Fault (sig.Res o) → World → Prop
  | .hasClient, w, r, w' => r = .ok w.client ∧ w'.machine = w.machine ∧ w.Alike w'
  | .setClient, w, r, w' =>
    r = .ok () ∧ w'.machine = w.machine ∧ w'.sockets = w.sockets ∧ w'.closes = w.closes ∧
      w'.client = true ∧ w'.carrier = w.carrier
  | .clearClient, w, r, w' =>
    r = .ok () ∧ w'.machine = w.machine ∧ w'.sockets = w.sockets ∧ w'.closes = w.closes ∧
      w'.client = false ∧ w'.carrier = w.carrier
  | .closeClient, w, r, w' =>
    (∀ x, r = .error x → x.IsForeign) ∧ w'.machine = w.machine ∧ w'.sockets ⊆ w.sockets ∧
      w'.closes = w.closes ∪ {s | w.carrier = some s} ∧ w'.client = w.client ∧ w'.carrier = w.carrier
  | .closeGateway, w, r, w' =>
    (∀ x, r = .error x → x.IsForeign) ∧ w'.machine = w.machine ∧ w'.sockets ⊆ w.sockets ∧
      w'.closes = w.closes ∧ w'.client = w.client ∧ w'.carrier = w.carrier
  | .loadPrivateKey _, w, r, w' =>
    (∀ x, r = .error x → x = .badKey) ∧ w'.machine = w.machine ∧ w.Alike w'
  | .openSocket _ _, w, r, w' =>
    (match r with
      | .ok sock => sock ∉ w.sockets ∧ sock ∉ w.closes ∧ w'.sockets = insert sock w.sockets
      | .error x => x.IsForeign ∧ w'.sockets = w.sockets) ∧
      w'.machine = w.machine ∧ w'.closes = w.closes ∧ w'.client = w.client ∧ w'.carrier = w.carrier
  | .connect sock, w, r, w' =>
    (match r with
      | .ok _ => w'.carrier = sock
      | .error x => x.retryable = true ∧ w'.carrier = w.carrier) ∧
      w'.machine = w.machine ∧ w'.sockets = w.sockets ∧ w'.closes = w.closes ∧ w'.client = w.client
  | .closeSocket sock, w, r, w' =>
    (match r with
      | .ok _ => w'.sockets = w.sockets \ {sock}
      | .error x => x.IsForeign ∧ w'.sockets ⊆ w.sockets) ∧
      w'.machine = w.machine ∧ w'.closes = insert sock w.closes ∧ w'.client = w.client ∧
      w'.carrier = w.carrier
  | .execCommand cmd _, w, r, w' =>
    Spawned T.toTrust ["sh", "-c", cmd] A.dir w.machine r.toOption w'.machine ∧
      (∀ x, r = .error x → x.IsForeign) ∧ w.Alike w'
  | .readStdout channel, w, r, w' =>
    (match r with
      | .ok bytes => Arrives A T channel w.machine (bytes = ·.stdout) (bytes <+: ·.stdout)
      | .error x => x.IsForeign ∧ (T.raises ∨ T.lags)) ∧ w'.machine = w.machine ∧ w.Alike w'
  | .exitStatusReady channel, w, r, w' =>
    (match r with
      | .ok ready => if ready then T.dies ∨ ∃ e, w.machine.processes channel = some (.exited e)
          else T.lags
      | .error x => x.IsForeign ∧ T.raises) ∧ w'.machine = w.machine ∧ w.Alike w'
  | .recvExitStatus channel, w, r, w' =>
    (match r with
      | .ok code => Arrives A T channel w.machine (code = ·.status) fun _ => code = -1
      | .error x => x.IsForeign ∧ T.raises) ∧ w'.machine = w.machine ∧ w.Alike w'
  | .joinDrain _ _, w, r, w' => r = .ok () ∧ w'.machine = w.machine ∧ w.Alike w'
  | .drained channel, w, r, w' =>
    (match r with
      | .ok .alive => T.lags
      | .ok (.failed x) => x.IsForeign ∧ (T.raises ∨ T.lags)
      | .ok (.done bytes) => Arrives A T channel w.machine (bytes = ·.stderr) (bytes <+: ·.stderr)
      | .error _ => False) ∧ w'.machine = w.machine ∧ w.Alike w'
  | .closeChannel _, w, r, w' =>
    (∀ x, r = .error x → x.IsForeign) ∧ w'.machine = w.machine ∧ w.Alike w'
  | .openSftp, w, r, w' =>
    (∀ x, r = .error x → x.IsForeign ∧ T.raises) ∧ w'.machine = w.machine ∧ w.Alike w'
  | .sftpRead path, w, r, w' =>
    (match r with
      | .ok bytes => w.machine.files (resolve A.dir path) = some bytes
      | .error x => x.IsForeign ∧
          (T.raises ∨ x = .os ∧ w.machine.files (resolve A.dir path) = none)) ∧
      w'.machine = w.machine ∧ w.Alike w'
  | .sftpPut path data, w, r, w' =>
    (match r with
      | .ok _ => w'.machine.files = Function.update w.machine.files (resolve A.dir path) (some data)
      | .error x => x.IsForeign ∧ (T.raises ∨
            x = .os ∧ A.host.writable (resolve A.dir path) w.machine.files = false) ∧
          SameBut {resolve A.dir path} w.machine.files w'.machine.files) ∧
      w'.machine.processes = w.machine.processes ∧ w.Alike w'
  | .closeSftp, w, r, w' =>
    (∀ x, r = .error x → x.IsForeign ∧ T.raises) ∧ w'.machine = w.machine ∧ w.Alike w'
  | .monotonic, w, r, w' =>
    (∃ t, r = .ok t ∧ w.clock ≤ t ∧ t ≤ w'.clock) ∧ w'.machine = w.machine ∧ w.Alike w'
  | .sleep ms, w, r, w' =>
    r = .ok () ∧ w.clock + ms ≤ w'.clock ∧ w'.machine = w.machine ∧ w.Alike w'

/-- Between two calls processes may end, and a call takes its time. -/
def sem (A : Agent) (T : Link) : Prog.Sem sig Fault World := fun o w r w' =>
  (∃ m, w.machine.Settles A.host m ∧ Answer A T o { w with machine := m } r w') ∧ w.clock ≤ w'.clock

/-! ### What calls leave alone -/

/-- The parts of the world. -/
inductive Part
  | connection
  | guest

def foot : Op → Set Part
  | .setClient | .clearClient | .closeClient | .closeGateway => {.connection}
  | .openSocket _ _ | .connect _ | .closeSocket _ => {.connection}
  | .execCommand _ _ | .sftpPut _ _ => {.guest}
  | _ => ∅

section Laws

variable {A : Agent} {T : Link} {c : Communicator} {w w' : World} {argv : List String}
  {path cwd : String} {data : Shell.Bytes} {timeout channel : ℕ}

theorem sem_clock {o : Op} {r : Except Fault (sig.Res o)} (hsem : sem A T o w r w') :
    w.clock ≤ w'.clock := hsem.2

theorem connection_not_guest : ¬ ({Part.connection} : Set Part) ⊆ {Part.guest} := by
  intro h
  have heq : Part.connection = Part.guest := h rfl
  cases heq

theorem guest_not_connection : ¬ ({Part.guest} : Set Part) ⊆ {Part.connection} := by
  intro h
  have heq : Part.guest = Part.connection := h rfl
  cases heq

theorem alike_step {o : Op} {r : Except Fault (sig.Res o)} (hfoot : foot o ⊆ {.guest})
    (hsem : sem A T o w r w') : w.Alike w' := by
  obtain ⟨⟨m, -, hanswer⟩, -⟩ := hsem
  cases o with
  | setClient => exact (connection_not_guest hfoot).elim
  | clearClient => exact (connection_not_guest hfoot).elim
  | closeClient => exact (connection_not_guest hfoot).elim
  | closeGateway => exact (connection_not_guest hfoot).elim
  | openSocket host port => exact (connection_not_guest hfoot).elim
  | connect sock => exact (connection_not_guest hfoot).elim
  | closeSocket sock => exact (connection_not_guest hfoot).elim
  | sleep ms => exact hanswer.2.2.2
  | _ => exact hanswer.2.2

/-- A call that does nothing in the guest answers of the guest as it is after the call. -/
theorem still_step {o : Op} {r : Except Fault (sig.Res o)} (hfoot : foot o ⊆ {.connection})
    (hsem : sem A T o w r w') :
    w.machine.Settles A.host w'.machine ∧ Answer A T o { w with machine := w'.machine } r w' := by
  obtain ⟨⟨m, hsettles, hanswer⟩, -⟩ := hsem
  have hsame (heq : w'.machine = m) : w.machine.Settles A.host w'.machine ∧
      Answer A T o { w with machine := w'.machine } r w' := by
    rw [heq]
    exact ⟨hsettles, hanswer⟩
  cases o with
  | execCommand cmd timeout => exact (guest_not_connection hfoot).elim
  | sftpPut path data => exact (guest_not_connection hfoot).elim
  | sleep ms => exact hsame hanswer.2.2.1
  | _ => exact hsame hanswer.2.1

theorem settles_within {α : Type} {p : Act α} (h : p.Within foot {.connection}) :
    p.wp (.ofSem (sem A T) fun _ => True) (fun _ w' => w.machine.Settles A.host w'.machine)
      (fun _ w' => w.machine.Settles A.host w'.machine) w :=
  h.wp (fun _ _ _ _ => trivial)
    (fun _ _ _ _ hfoot hl hsem => hl.trans (still_step hfoot hsem).1) .refl

/-! ### Connecting -/

/-- Every open socket was asked to close, but for the one that carries the connection. -/
def World.Neat (w : World) : Prop :=
  ∀ s ∈ w.sockets, s ∈ w.closes ∨ (w.client = true ∧ w.carrier = some s)

/-- There is a connection, -/
def World.Linked (w : World) : Prop := w.Neat ∧ w.client = true

/-- or there is none. -/
def World.Unlinked (w : World) : Prop := w.client = false ∧ ∀ s ∈ w.sockets, s ∈ w.closes

theorem World.Neat.alike (h : w.Neat) (halike : w.Alike w') : w'.Neat := by
  obtain ⟨hsockets, hcloses, hclient, hcarrier⟩ := halike
  intro s hs
  rw [hsockets] at hs
  rw [hcloses, hclient, hcarrier]
  exact h s hs

theorem World.Linked.alike (h : w.Linked) (halike : w.Alike w') : w'.Linked :=
  ⟨h.1.alike halike, halike.2.2.1.trans h.2⟩

theorem World.Unlinked.alike (h : w.Unlinked) (halike : w.Alike w') : w'.Unlinked := by
  obtain ⟨hsockets, hcloses, hclient, -⟩ := halike
  refine ⟨hclient.trans h.1, fun s hs => ?_⟩
  rw [hsockets] at hs
  rw [hcloses]
  exact h.2 s hs

theorem World.Unlinked.neat (h : w.Unlinked) : w.Neat := fun s hs => .inl (h.2 s hs)

theorem World.Neat.unlinked (h : w.Neat) (hclient : w.client = false) : w.Unlinked := by
  refine ⟨hclient, fun s hs => (h s hs).resolve_right fun hcarries => ?_⟩
  rw [hclient] at hcarries
  cases hcarries.1

theorem Fault.IsForeign.ne_spins {x : Fault} (h : x.IsForeign) : x ≠ .spins := by
  rintro rfl
  exact h

theorem linked_within {α : Type} {p : Act α} (h : p.Within foot {.guest}) (hw : w.Linked) :
    p.wp (.ofSem (sem A T) fun _ => True) (fun _ w' => w'.Linked) (fun _ w' => w'.Linked) w :=
  h.wp (fun _ _ _ _ => trivial) (fun _ _ _ _ hfoot hl hsem => hl.alike (alike_step hfoot hsem)) hw

/-- Whether there is a connection. -/
theorem hasClient_wp {E : Fault → World → Prop} :
    (op .hasClient).wp (.ofSem (sem A T) fun _ => True)
      (fun client w' => client = w.client ∧ w.Alike w') E w := by
  refine Prog.wp_answered trivial fun r w₁ hsem => ?_
  obtain ⟨-, rfl, -, halike⟩ := still_step (Set.empty_subset _) hsem
  exact ⟨_, rfl, rfl, halike⟩

/-- What comes of an attempt to connect. -/
def Attempted (w : World) (r : Option Unit) (w' : World) : Prop :=
  match r with
  | some _ => w'.Linked
  | none => w'.Unlinked ∧ w.clock ≤ w'.clock

theorem setClient_wp {w₁ : World} {E : Fault → World → Prop}
    (hcarrier : ∀ s ∈ w₁.sockets, s ∈ w₁.closes ∨ w₁.carrier = some s) :
    (do
      op .setClient
      pure (some ()) : Act (Option Unit)).wp (.ofSem (sem A T) fun _ => True) (Attempted w) E w₁ := by
  refine Prog.wp_seq (P := fun _ w₂ => w₂.Linked) ?_ fun _ w₂ h => h
  refine Prog.wp_answered trivial fun r w₂ hsem => ?_
  obtain ⟨-, rfl, -, hsockets, hcloses, hclient, hsame⟩ := still_step subset_rfl hsem
  refine ⟨_, rfl, fun s hs => ?_, hclient⟩
  rw [hsockets] at hs
  rw [hcloses, hsame]
  exact (hcarrier s hs).imp_right fun h => ⟨hclient, h⟩

/-- **An attempt to connect** leaves no socket open that does not carry the connection: the one it has
opened is asked to close when it fails. -/
theorem attempt_wp (b : Binding) (hw : w.Unlinked) :
    (attempt b).wp (.ofSem (sem A T) fun _ => True) (Attempted w)
      (fun x w' => w'.Unlinked ∧ x ≠ .spins) w := by
  unfold attempt
  split_ifs with hgateway
  · show (Prog.bind (Prog.attempt (op (.openSocket b.host b.port))) _).wp _ _ _ _
    rw [Prog.wp_bind, Prog.wp_attempt]
    refine Prog.wp_perform.mpr ⟨trivial, fun sock w₁ hsem => ?_, fun x w₁ hsem => ?_⟩
    · have hclock₁ := sem_clock hsem
      obtain ⟨-, ⟨-, -, hsockets₁⟩, -, hcloses₁, hclient₁, -⟩ := still_step subset_rfl hsem
      have hopened {s : ℕ} (hs : s ∈ w₁.sockets) (hne : s ≠ sock) : s ∈ w₁.closes := by
        rw [hsockets₁] at hs
        rw [hcloses₁]
        exact hw.2 s (hs.resolve_left hne)
      show (Prog.bind (Prog.attempt (op (.connect (some sock)))) _).wp _ _ _ _
      rw [Prog.wp_bind, Prog.wp_attempt]
      refine Prog.wp_perform.mpr ⟨trivial, fun _ w₂ hsem₂ => ?_, fun x w₂ hsem₂ => ?_⟩
      · obtain ⟨-, hcarrier, -, hsockets₂, hcloses₂, -⟩ := still_step subset_rfl hsem₂
        refine setClient_wp fun s hs => ?_
        rw [hsockets₂] at hs
        rw [hcloses₂]
        by_cases hne : s = sock
        · exact .inr (hne ▸ hcarrier)
        · exact .inl (hopened hs hne)
      · have hclock₂ := sem_clock hsem₂
        obtain ⟨-, ⟨hretryable, -⟩, -, hsockets₂, hcloses₂, hclient₂⟩ := still_step subset_rfl hsem₂
        show (if x.retryable = true then _ else _ : Act (Option Unit)).wp _ _ _ _
        rw [if_pos hretryable]
        -- The socket is asked to close, whatever comes of that.
        refine Prog.wp_seq (P := fun _ w₃ => w₃.Unlinked ∧ w.clock ≤ w₃.clock) ?_ fun _ w₃ h => ?_
        swap
        · exact h
        rw [Prog.wp_ignore]
        have hclosed {w₃ : World} (hclock₃ : w₂.clock ≤ w₃.clock) (hsub : w₃.sockets ⊆ w₂.sockets)
            (hcloses₃ : w₃.closes = insert sock w₂.closes) (hclient₃ : w₃.client = w₂.client) :
            w₃.Unlinked ∧ w.clock ≤ w₃.clock := by
          refine ⟨⟨hclient₃.trans (hclient₂.trans (hclient₁.trans hw.1)), fun s hs => ?_⟩,
            hclock₁.trans (hclock₂.trans hclock₃)⟩
          have hs₂ := hsub hs
          rw [hsockets₂] at hs₂
          rw [hcloses₃, hcloses₂]
          by_cases hne : s = sock
          · exact .inl hne
          · exact .inr (hopened hs₂ hne)
        refine Prog.wp_perform.mpr ⟨trivial, fun _ w₃ hsem₃ => ?_, fun x' w₃ hsem₃ => ?_⟩
        · obtain ⟨-, hsockets₃, -, hcloses₃, hclient₃, -⟩ := still_step subset_rfl hsem₃
          have hsub : w₃.sockets ⊆ w₂.sockets := by
            rw [hsockets₃]
            exact fun s hs => hs.1
          exact hclosed (sem_clock hsem₃) hsub hcloses₃ hclient₃
        · obtain ⟨-, ⟨-, hsub⟩, -, hcloses₃, hclient₃, -⟩ := still_step subset_rfl hsem₃
          exact hclosed (sem_clock hsem₃) hsub hcloses₃ hclient₃
    · have hclock₁ := sem_clock hsem
      obtain ⟨-, ⟨hforeign, hsockets₁⟩, -, hcloses₁, hclient₁, -⟩ := still_step subset_rfl hsem
      have hunlinked : w₁.Unlinked := by
        refine ⟨hclient₁.trans hw.1, fun s hs => ?_⟩
        rw [hsockets₁] at hs
        rw [hcloses₁]
        exact hw.2 s hs
      have hrest : (if x.retryable then pure none else throw x : Act (Option Unit)).wp
          (.ofSem (sem A T) fun _ => True) (Attempted w) (fun x w' => w'.Unlinked ∧ x ≠ .spins) w₁ := by
        split_ifs
        · exact ⟨hunlinked, hclock₁⟩
        · exact ⟨hunlinked, hforeign.ne_spins⟩
      cases x with
      | gatewayError => exact ⟨hunlinked, fun h => by cases h⟩
      | _ => exact hrest
  · show (Prog.bind (Prog.attempt (op (.connect none))) _).wp _ _ _ _
    rw [Prog.wp_bind, Prog.wp_attempt]
    refine Prog.wp_perform.mpr ⟨trivial, fun _ w₁ hsem => ?_, fun x w₁ hsem => ?_⟩
    · obtain ⟨-, -, -, hsockets₁, hcloses₁, -⟩ := still_step subset_rfl hsem
      refine setClient_wp fun s hs => ?_
      rw [hsockets₁] at hs
      rw [hcloses₁]
      exact .inl (hw.2 s hs)
    · have hclock₁ := sem_clock hsem
      obtain ⟨-, ⟨hretryable, -⟩, -, hsockets₁, hcloses₁, hclient₁⟩ := still_step subset_rfl hsem
      show (if x.retryable = true then _ else _ : Act (Option Unit)).wp _ _ _ _
      rw [if_pos hretryable]
      refine ⟨⟨hclient₁.trans hw.1, fun s hs => ?_⟩, hclock₁⟩
      rw [hsockets₁] at hs
      rw [hcloses₁]
      exact hw.2 s hs

/-- The clock is read. -/
theorem monotonic_wp {I : World → Prop} {E : Fault → World → Prop}
    (hI : ∀ w', w.Alike w' → w.machine.Settles A.host w'.machine → I w') :
    (op .monotonic).wp (.ofSem (sem A T) fun _ => True)
      (fun (t : ℕ) w' => I w' ∧ w.clock ≤ t ∧ t ≤ w'.clock) E w := by
  refine Prog.wp_answered trivial fun r w₁ hsem => ?_
  obtain ⟨hsettles, ⟨t, rfl, hlo, hhi⟩, -, halike⟩ := still_step (Set.empty_subset _) hsem
  exact ⟨t, rfl, hI w₁ halike hsettles, hlo, hhi⟩

theorem sleep_wp {I : World → Prop} {E : Fault → World → Prop} {ms : ℕ}
    (hI : ∀ w', w.Alike w' → w.machine.Settles A.host w'.machine → I w') :
    (op (.sleep ms)).wp (.ofSem (sem A T) fun _ => True)
      (fun _ w' => I w' ∧ w.clock + ms ≤ w'.clock) E w := by
  refine Prog.wp_answered trivial fun r w₁ hsem => ?_
  obtain ⟨hsettles, rfl, hclock, -, halike⟩ := still_step (Set.empty_subset _) hsem
  exact ⟨_, rfl, hI w₁ halike hsettles, hclock⟩

/-- **A communicator that is connected**, in time, however often that was tried. -/
theorem ensureConnected_wp (hneat : w.Neat) :
    (ensureConnected c).wp (.ofSem (sem A T) fun _ => True) (fun _ w' => w'.Linked)
      (fun x w' => w'.Unlinked ∧ x ≠ .spins) w := by
  unfold ensureConnected
  refine Prog.wp_seq hasClient_wp ?_
  rintro client w₁ ⟨hclient₁, halike⟩
  obtain rfl : client = w₁.client := hclient₁.trans halike.2.2.1.symm
  have hneat₁ : w₁.Neat := hneat.alike halike
  split_ifs with hclient
  · exact ⟨hneat₁, hclient⟩
  have hw₁ : w₁.Unlinked := hneat₁.unlinked (by simpa using hclient)
  cases hbinding : c.binding with
  | none => exact ⟨hw₁, fun h => by cases h⟩
  | some b =>
    refine Prog.wp_seq (P := fun _ w₂ => w₂.Unlinked) ?_ fun _ w₂ hw₂ => ?_
    · have hno : w₁.Unlinked ∧ Fault.noSecret c.username ≠ .spins := ⟨hw₁, fun h => by cases h⟩
      unfold secret
      split
      · refine Prog.wp_perform.mpr ⟨trivial, fun _ w₂ hsem => ?_, fun x w₂ hsem => ?_⟩
        · exact hw₁.alike (alike_step (Set.empty_subset _) hsem)
        · have halike := alike_step (Set.empty_subset _) hsem
          obtain ⟨-, hx, -⟩ := still_step (Set.empty_subset _) hsem
          rw [hx x rfl]
          exact ⟨hw₁.alike halike, fun h => by cases h⟩
      · split_ifs
        · exact hno
        · exact hw₁
      · exact hno
    have hnow (w₃ : World) (hw₃ : w₃.Unlinked) : (op .monotonic).wp (.ofSem (sem A T) fun _ => True)
        (fun (t : ℕ) w' => w'.Unlinked ∧ w₃.clock ≤ t ∧ t ≤ w'.clock)
        (fun x w' => w'.Unlinked ∧ x ≠ .spins) w₃ :=
      monotonic_wp fun w₄ halike _ => hw₃.alike halike
    refine Prog.wp_seq (hnow w₂ hw₂) ?_
    rintro start w₃ ⟨hw₃, -, hstart⟩
    have hrounds : Prog.Rounds (.ofSem (sem A T) fun _ => True) (fun _ w' => w'.Linked)
        (fun x w' => w'.Unlinked ∧ x ≠ .spins) World.Unlinked World.Unlinked World.clock backoff
        (attempt b) (op .monotonic) (op (.sleep backoff)) := by
      refine ⟨fun w₄ hw₄ => ?_, fun K hK w₄ hw₄ => ?_, fun w₄ hw₄ => ?_⟩
      · refine Prog.wp_mono (fun r _ h => ?_) (fun _ _ h => h) (attempt_wp b hw₄)
        cases r with
        | none => exact h
        | some u => exact h
      · obtain rfl : K = World.Unlinked := hK.elim id id
        exact hnow w₄ hw₄
      · exact sleep_wp fun w₅ halike _ => hw₄.alike halike
    have hlate (w₄ : World) (hw₄ : w₄.Unlinked) :
        (throw (.connectFailed b.host b.port c.username) : Act Unit).wp
          (.ofSem (sem A T) fun _ => True) (fun _ w' => w'.Linked)
          (fun x w' => w'.Unlinked ∧ x ≠ .spins) w₄ :=
      ⟨hw₄, fun h => by cases h⟩
    exact Prog.wp_retry hrounds hlate hw₃ (Prog.deadline_lt (by decide) hstart).le

/-! ### Sessions -/

theorem within_retry {α : Type} {ask : Act (Option α)} {now : Act ℕ} {sleep : Act Unit}
    {late : Act α} {own : Set Part} (e : Fault) (deadline fuel : ℕ) (hask : ask.Within foot own)
    (hnow : now.Within foot own) (hsleep : sleep.Within foot own) (hlate : late.Within foot own) :
    (Prog.retry ask now sleep late e deadline fuel).Within foot own := by
  induction fuel with
  | zero => trivial
  | succ fuel ih =>
    rw [Prog.retry]
    refine .seq hnow fun t => ?_
    split_ifs
    · refine .seq hask fun r => ?_
      cases r with
      | some a => trivial
      | none => exact .seq hsleep fun _ => ih
    · exact hlate

theorem within_none {o : Op} {own : Set Part} (h : foot o = ∅) : (op o).Within foot own :=
  .perform (by rw [h]; exact Set.empty_subset _)

theorem within_ensureConnected (c : Communicator) :
    (ensureConnected c).Within foot {.connection} := by
  unfold ensureConnected
  refine .seq (within_none rfl) fun client => ?_
  split_ifs
  · trivial
  cases c.binding with
  | none => trivial
  | some b =>
    refine .seq ?_ fun _ => .seq (within_none rfl) fun start => ?_
    · unfold secret
      split
      · exact within_none rfl
      · split_ifs <;> trivial
      · trivial
    refine within_retry _ _ _ ?_ (within_none rfl) (within_none rfl) trivial
    have hset : (do
        op .setClient
        pure (some ()) : Act (Option Unit)).Within foot {.connection} :=
      .seq (.perform subset_rfl) fun _ => trivial
    unfold attempt
    split_ifs
    · refine .seq (.attempt (.perform subset_rfl)) fun r => ?_
      split
      · trivial
      · split_ifs <;> trivial
      · refine .seq (.attempt (.perform subset_rfl)) fun r => ?_
        split
        · exact hset
        · split_ifs
          · exact .seq (.bind (.attempt (.perform subset_rfl)) fun _ => trivial) fun _ => trivial
          · trivial
    · refine .seq (.attempt (.perform subset_rfl)) fun r => ?_
      split
      · exact hset
      · split_ifs <;> trivial

theorem within_waitExit (channel deadline : ℕ) (late : Fault) (fuel : ℕ) :
    (waitExit channel deadline late fuel).Within foot ∅ := by
  induction fuel with
  | zero => trivial
  | succ fuel ih =>
    rw [waitExit]
    refine .seq (within_none rfl) fun ready => ?_
    split_ifs
    · trivial
    · refine .seq (within_none rfl) fun t => ?_
      split_ifs
      · exact .seq (.bind (.attempt (within_none rfl)) fun _ => trivial) fun _ => trivial
      · exact .seq (within_none rfl) fun _ => ih

theorem within_collect (channel timeout : ℕ) (cmd host : String) :
    (collect channel timeout cmd host).Within foot ∅ := by
  unfold collect
  refine .seq (.tryFinally ?_ (within_none rfl)) fun r => ?_
  · refine .seq (within_none rfl) fun stdout => .seq (within_none rfl) fun start => ?_
    exact .seq (within_waitExit _ _ _ _) fun _ => .seq (within_none rfl) fun _ => trivial
  · refine .seq (within_none rfl) fun d => ?_
    split
    · exact .seq (.bind (.attempt (within_none rfl)) fun _ => trivial) fun _ => trivial
    · trivial
    · trivial

theorem within_sftp {α : Type} {p : Act α} {own : Set Part} (e : Fault) (hp : p.Within foot own) :
    (sftp p e).Within foot own := by
  refine .seq (within_none rfl) fun _ => .tryFinally (.tryCatch hp fun x => ?_) (within_none rfl)
  split <;> trivial

/-- **Closing** leaves no socket open that was not asked to close. -/
theorem close_wp (hneat : w.Neat) :
    (close c).wp (.ofSem (sem A T) fun _ => True) (fun _ w' => w'.Unlinked)
      (fun x w' => w'.Unlinked ∧ x.IsForeign) w := by
  unfold close
  refine Prog.wp_seq hasClient_wp ?_
  rintro client w₁ ⟨hclient₁, halike⟩
  obtain rfl : client = w₁.client := hclient₁.trans halike.2.2.1.symm
  have hneat₁ : w₁.Neat := hneat.alike halike
  have hgateway (w₂ : World) (hw₂ : w₂.Unlinked) : (match c.binding with
      | some b => if b.gateway then op .closeGateway else pure ()
      | none => pure () : Act Unit).wp (.ofSem (sem A T) fun _ => True) (fun _ w' => w'.Unlinked)
      (fun x w' => w'.Unlinked ∧ x.IsForeign) w₂ := by
    split
    · split_ifs
      · have hclose {w₃ : World} (hsub : w₃.sockets ⊆ w₂.sockets) (hcloses : w₃.closes = w₂.closes)
            (hclient : w₃.client = w₂.client) : w₃.Unlinked := by
          refine ⟨hclient.trans hw₂.1, fun s hs => ?_⟩
          rw [hcloses]
          exact hw₂.2 s (hsub hs)
        refine Prog.wp_perform.mpr ⟨trivial, fun _ w₃ hsem => ?_, fun x w₃ hsem => ?_⟩
        · obtain ⟨-, -, -, hsub, hcloses, hclient, -⟩ := still_step subset_rfl hsem
          exact hclose hsub hcloses hclient
        · obtain ⟨-, hforeign, -, hsub, hcloses, hclient, -⟩ := still_step subset_rfl hsem
          exact ⟨hclose hsub hcloses hclient, hforeign x rfl⟩
      · exact hw₂
    · exact hw₂
  show (if w₁.client = true then _ else _ : Act Unit).wp _ _ _ _
  split_ifs with hclient
  · refine Prog.wp_seq (P := fun _ w₂ => ∀ s ∈ w₂.sockets, s ∈ w₂.closes) ?_ fun _ w₂ hasked => ?_
    · rw [Prog.wp_ignore]
      -- The socket that carries the connection is asked to close with it.
      have hclose {w₂ : World} (hsub : w₂.sockets ⊆ w₁.sockets)
          (hcloses : w₂.closes = w₁.closes ∪ {s | w₁.carrier = some s}) :
          ∀ s ∈ w₂.sockets, s ∈ w₂.closes := by
        intro s hs
        rw [hcloses]
        exact (hneat₁ s (hsub hs)).imp_right fun h => h.2
      refine Prog.wp_perform.mpr ⟨trivial, fun _ w₂ hsem => ?_, fun x w₂ hsem => ?_⟩
      · obtain ⟨-, -, -, hsub, hcloses, -⟩ := still_step subset_rfl hsem
        exact hclose hsub hcloses
      · obtain ⟨-, -, -, hsub, hcloses, -⟩ := still_step subset_rfl hsem
        exact hclose hsub hcloses
    · refine Prog.wp_seq (P := fun _ w₃ => w₃.Unlinked) ?_ fun _ w₃ hw₃ => hgateway w₃ hw₃
      refine Prog.wp_answered trivial fun r w₃ hsem => ?_
      obtain ⟨-, rfl, -, hsockets, hcloses, hno, -⟩ := still_step subset_rfl hsem
      refine ⟨_, rfl, hno, fun s hs => ?_⟩
      rw [hsockets] at hs
      rw [hcloses]
      exact hasked s hs
  · exact hgateway w₁ (hneat₁.unlinked (by simpa using hclient))

/-- What a session is asked for. -/
inductive Request
  | execute (argv : List String) (timeout : ℕ) (cwd : String)
  | readFile (path : String)
  | writeFile (path : String) (data : Shell.Bytes)
  | close

/-- A request that was answered. -/
def Request.Runs (A : Agent) (T : Link) (c : Communicator) (w : World) :
    Request → World → Prop
  | .execute argv timeout cwd, w' =>
    ∃ tr out, Prog.Runs (sem A T) (Ssh.execute c argv timeout cwd) w tr out w'
  | .readFile path, w' => ∃ tr out, Prog.Runs (sem A T) (Ssh.readFile c path) w tr out w'
  | .writeFile path data, w' =>
    ∃ tr out, Prog.Runs (sem A T) (Ssh.writeFile c path data) w tr out w'
  | .close, w' => ∃ tr out, Prog.Runs (sem A T) (Ssh.close c) w tr out w'

/-- After a connection was made, what is asked of the guest keeps it. -/
theorem connected_wp {α : Type} {p : Act α} (h : p.Within foot {.guest}) (hneat : w.Neat) :
    (do
      ensureConnected c
      p).wp (.ofSem (sem A T) fun _ => True) (fun _ w' => w'.Neat) (fun _ w' => w'.Neat) w := by
  refine Prog.wp_seq (Prog.wp_mono (fun _ _ h => h) (fun x w₁ h => h.1.neat) (ensureConnected_wp hneat))
    fun _ w₁ hlinked => ?_
  exact Prog.wp_mono (fun _ _ h => h.1) (fun _ _ h => h.1) (linked_within h hlinked)

theorem Request.Runs.neat {q : Request} (h : q.Runs A T c w w') (hneat : w.Neat) : w'.Neat := by
  have hall {α : Type} {p : Act α} {tr : List (Prog.Call sig Fault)} {out : Except Fault α}
      (hwp : p.wp (.ofSem (sem A T) fun _ => True) (fun _ w' => w'.Neat) (fun _ w' => w'.Neat) w)
      (hrun : Prog.Runs (sem A T) p w tr out w') : w'.Neat := by
    rcases out with x | a
    · exact (Prog.runs_of_wp hwp hrun).2 x rfl
    · exact (Prog.runs_of_wp hwp hrun).1 a rfl
  cases q with
  | execute argv timeout cwd =>
    obtain ⟨tr, out, hrun⟩ := h
    refine hall ?_ hrun
    unfold Ssh.execute
    split_ifs
    · exact hneat
    · refine connected_wp (.tryCatch ?_ fun x => ?_) hneat
      · exact .seq (.perform subset_rfl) fun channel =>
          (within_collect channel timeout _ _).mono (Set.empty_subset _)
      · split_ifs <;> trivial
  | readFile path =>
    obtain ⟨tr, out, hrun⟩ := h
    exact hall (connected_wp (within_sftp _ (within_none rfl)) hneat) hrun
  | writeFile path data =>
    obtain ⟨tr, out, hrun⟩ := h
    exact hall (connected_wp (within_sftp _ (.perform subset_rfl)) hneat) hrun
  | close =>
    obtain ⟨tr, out, hrun⟩ := h
    exact hall (Prog.wp_mono (fun _ _ h => h.neat) (fun _ _ h => h.1.neat) (close_wp hneat)) hrun

end Laws

/-- **No socket is lost**: after any requests, whatever came of them, every socket that the gateway has
open was asked to close, but for the one that carries the connection; and after a `close` there is none
that was not. -/
theorem sockets_neat {A : Agent} {T : Link} (c : Communicator) {w₀ w : World} {tr : List Request}
    (hneat : w₀.Neat) (hrun : Trace.Run (fun w q w' => q.Runs A T c w w') w₀ tr w) :
    w.Neat ∧ ∀ w', Request.Runs A T c w .close w' → ∀ s ∈ w'.sockets, s ∈ w'.closes := by
  have hw : w.Neat := hrun.invariant hneat fun _ _ _ h hstep => hstep.neat h
  refine ⟨hw, ?_⟩
  rintro w' ⟨tr', out, hclose⟩
  rcases out with x | u
  · exact ((Prog.runs_of_wp (close_wp hw) hclose).2 x rfl).1.2
  · exact ((Prog.runs_of_wp (close_wp hw) hclose).1 u rfl).2

/-- A guest in which nothing has happened, with a connection or without. -/
def idle (client : Bool) : World := ⟨⟨fun _ => none, fun _ => none⟩, ∅, ∅, client, none, 0⟩

theorem idle_neat (client : Bool) : (idle client).Neat := fun _ hs => hs.elim

theorem World.alike_self (w : World) : w.Alike w := ⟨rfl, rfl, rfl, rfl⟩

/-- A transport that does what it is asked for. -/
def sound : Link := ⟨⟨False, False⟩, False⟩

def bastion : Communicator := ⟨"root", some ⟨"10.0.0.2", 22, some "key", none, true⟩⟩

/-- What was tried: the socket 0 in vain, and then the socket 1, which carries the connection. -/
def retried : World := ⟨(idle false).machine, insert 1 ∅, insert 0 ∅, true, some 1, 3000⟩

/-- The guest does not answer at first. -/
theorem ends_retried :
    Prog.Ends (sem Guest.plainAgent sound) (ensureConnected bastion) (idle false) (.ok ()) retried := by
  let w := idle false
  let w₁ : World := { w with sockets := insert 0 ∅ }
  let w₂ : World := { w with closes := insert 0 ∅ }
  let w₃ : World := { w₂ with clock := 3000 }
  let w₄ : World := { w₃ with sockets := insert 1 ∅ }
  let w₅ : World := { w₄ with carrier := some 1 }
  have hclient : sem Guest.plainAgent sound .hasClient w (.ok false) w :=
    ⟨⟨w.machine, .refl, rfl, rfl, w.alike_self⟩, le_rfl⟩
  have hkey : sem Guest.plainAgent sound (.loadPrivateKey "key") w (.ok ()) w :=
    ⟨⟨w.machine, .refl, fun _ h => (by cases h), rfl, w.alike_self⟩, le_rfl⟩
  have hclock (w : World) : sem Guest.plainAgent sound .monotonic w (.ok w.clock) w :=
    ⟨⟨w.machine, .refl, ⟨_, rfl, le_rfl, le_rfl⟩, rfl, w.alike_self⟩, le_rfl⟩
  -- The first socket is refused, and is asked to close.
  have hopen : sem Guest.plainAgent sound (.openSocket "10.0.0.2" 22) w (.ok (0 : ℕ)) w₁ :=
    ⟨⟨w.machine, .refl, ⟨id, id, rfl⟩, rfl, rfl, rfl, rfl⟩, le_rfl⟩
  have hrefused : sem Guest.plainAgent sound (.connect (some 0)) w₁ (.error .os) w₁ :=
    ⟨⟨w.machine, .refl, ⟨rfl, rfl⟩, rfl, rfl, rfl, rfl⟩, le_rfl⟩
  have hclosed : sem Guest.plainAgent sound (.closeSocket 0) w₁ (.ok ()) w₂ := by
    refine ⟨⟨w.machine, .refl, ?_, rfl, rfl, rfl, rfl⟩, le_rfl⟩
    exact Set.ext fun s => ⟨False.elim, fun h => h.2 (h.1.resolve_right id)⟩
  have hslept : sem Guest.plainAgent sound (.sleep backoff) w₂ (.ok ()) w₃ :=
    ⟨⟨w.machine, .refl, rfl, le_rfl, rfl, rfl, rfl, rfl, rfl⟩, Nat.zero_le _⟩
  -- The second one carries the client.
  have hagain : sem Guest.plainAgent sound (.openSocket "10.0.0.2" 22) w₃ (.ok (1 : ℕ)) w₄ := by
    refine ⟨⟨w.machine, .refl, ⟨id, ?_, rfl⟩, rfl, rfl, rfl, rfl⟩, le_rfl⟩
    rintro (h | h)
    · cases h
    · exact h
  have hanswered : sem Guest.plainAgent sound (.connect (some 1)) w₄ (.ok ()) w₅ :=
    ⟨⟨w.machine, .refl, rfl, rfl, rfl, rfl, rfl⟩, le_rfl⟩
  have hset : sem Guest.plainAgent sound .setClient w₅ (.ok ()) retried :=
    ⟨⟨w.machine, .refl, rfl, rfl, rfl, rfl, rfl, rfl⟩, le_rfl⟩
  have hfirst : Prog.Ends (sem Guest.plainAgent sound) (attempt ⟨"10.0.0.2", 22, some "key", none, true⟩)
      w (.ok none) w₂ :=
    .call hopen (.call hrefused (.call hclosed (.ret _ _)))
  have hsecond : Prog.Ends (sem Guest.plainAgent sound) (attempt ⟨"10.0.0.2", 22, some "key", none, true⟩)
      w₃ (.ok (some ())) retried :=
    .call hagain (.call hanswered (.call hset (.ret _ _)))
  refine .call hclient (.call hkey (.call (hclock w) ?_))
  exact .retry_none (.perform (hclock w)) (by decide) hfirst (.perform hslept)
    (.retry_some (.perform (hclock w₃)) (by decide) hsecond)

/-- A request that connects at the second attempt, and then a `close`. -/
theorem sockets_neat_retried : ∃ w w' : World,
    Trace.Run (fun w q w' => Request.Runs Guest.plainAgent sound bastion w q w') (idle false)
      [.readFile "/etc/motd"] w ∧
    w.sockets = insert 1 ∅ ∧ w.Neat ∧ Request.Runs Guest.plainAgent sound bastion w .close w' ∧
      w'.sockets = insert 1 ∅ ∧ ∀ s ∈ w'.sockets, s ∈ w'.closes := by
  let w := retried
  let w₁ : World := { w with closes := w.closes ∪ {s | w.carrier = some s} }
  let w₂ : World := { w₁ with client := false }
  have hsftp (o : Op) (r : Except Fault (sig.Res o))
      (h : Answer Guest.plainAgent sound o w r w) : sem Guest.plainAgent sound o w r w :=
    ⟨⟨w.machine, .refl, h⟩, le_rfl⟩
  -- The retry of the connection is `ends_retried`; the read that follows is refused.
  have hread : Prog.Ends (sem Guest.plainAgent sound) (readFile bastion "/etc/motd") (idle false)
      (.error (.sftpRead "/etc/motd" "10.0.0.2")) w := by
    refine .bind ends_retried (.call (hsftp .openSftp (.ok ())
      ⟨fun _ h => (by cases h), rfl, w.alike_self⟩) ?_)
    refine .call (hsftp (.sftpRead "/etc/motd") (.error .os) ⟨⟨trivial, .inr ⟨rfl, rfl⟩⟩, rfl,
      w.alike_self⟩) (.call (hsftp .closeSftp (.ok ()) ⟨fun _ h => (by cases h), rfl, w.alike_self⟩) ?_)
    exact .raise _ _
  have hclient : sem Guest.plainAgent sound .hasClient w (.ok true) w :=
    ⟨⟨w.machine, .refl, rfl, rfl, w.alike_self⟩, le_rfl⟩
  have hclose : sem Guest.plainAgent sound .closeClient w (.ok ()) w₁ :=
    ⟨⟨w.machine, .refl, fun _ h => (by cases h), rfl, fun _ h => h, rfl, rfl, rfl⟩, le_rfl⟩
  have hclear : sem Guest.plainAgent sound .clearClient w₁ (.ok ()) w₂ :=
    ⟨⟨w.machine, .refl, rfl, rfl, rfl, rfl, rfl, rfl⟩, le_rfl⟩
  have hgateway : sem Guest.plainAgent sound .closeGateway w₂ (.ok ()) w₂ :=
    ⟨⟨w.machine, .refl, fun _ h => (by cases h), rfl, fun _ h => h, rfl, rfl, rfl⟩, le_rfl⟩
  have hclosed : Request.Runs Guest.plainAgent sound bastion w .close w₂ :=
    ⟨_, _, .call hclient (.call hclose (.call hclear (.call hgateway (.ret _ w₂))))⟩
  obtain ⟨tr, hread⟩ := hread
  have hrun : Trace.Run (fun w q w' => Request.Runs Guest.plainAgent sound bastion w q w') (idle false)
      [.readFile "/etc/motd"] w := .step .start ⟨tr, _, hread⟩
  obtain ⟨hneat, hnone⟩ := sockets_neat bastion (idle_neat false) hrun
  exact ⟨w, w₂, hrun, rfl, hneat, hclosed, rfl, hnone w₂ hclosed⟩

section Commands

variable {A : Agent} {T : Link} {c : Communicator} {w w' : World} {argv args : List String}
  {name path cwd line : String} {data : Shell.Bytes} {timeout channel : ℕ} {files : Files}

/-! ### Command lines -/

/-- What a command does that a shell can name: it runs in its directory, or the shell cannot go
there. -/
def ran (host : Shell.Host) (argv : List String) (cwd dir : String) (files : Files) :
    Ended × Files :=
  if cwd = "" then host.spawn argv dir files
  else if host.isDir (resolve dir cwd) files then host.spawn argv (resolve dir cwd) files
  else (⟨host.failure, [], host.complaint⟩, files)

/-- A command whose words and directory a shell can be given. -/
structure Runnable (host : Shell.Host) (argv : List String) (cwd : String) : Prop where
  named : ∃ name args, argv = name :: args ∧ Shell.Names host name ∧
    (cwd ≠ "" → Shell.startsDash name = false)
  nul : ∀ a ∈ argv, Shell.nul ∉ a.toList
  cwd_nul : Shell.nul ∉ cwd.toList
  cwd_back : cwd ≠ "-"

theorem commandLine_cd (name : String) (args : List String) (hcwd : cwd ≠ "") :
    commandLine (name :: args) cwd =
      Shell.join ["cd", "--", cwd] ++ " && " ++ Shell.join ("exec" :: name :: args) := by
  have hcd : Shell.quote "cd" = "cd" := by decide
  have hdash : Shell.quote "--" = "--" := by decide
  have hexec : Shell.quote "exec" = "exec" := by decide
  have hone : (Shell.join [cwd]).toList = (Shell.quote cwd).toList := by simp [Shell.join]
  rw [commandLine, if_neg hcwd]
  refine String.toList_inj.mp ?_
  simp [Shell.toList_join_cons, hcd, hdash, hexec, hone]

/-- **The line of a command does what the command does**, whatever its words are. -/
theorem commandLine_run {host : Shell.Host} (hrun : Runnable host argv cwd) (dir : String)
    (files : Files) :
    Shell.run host (commandLine argv cwd) dir files = some (ran host argv cwd dir files) := by
  obtain ⟨name, args, rfl, hname, hdash⟩ := hrun.named
  by_cases hcwd : cwd = ""
  · rw [commandLine, ran, if_pos hcwd, if_pos hcwd]
    exact Shell.run_join dir files hrun.nul hname
  · rw [commandLine_cd name args hcwd, ran, if_neg hcwd,
      Shell.run_cd hrun.cwd_nul hrun.cwd_back hrun.nul (hdash hcwd)]
    split_ifs <;> rfl

theorem ends_commandLine {host : Shell.Host} (hrun : Runnable host argv cwd) {dir : String}
    {e : Ended} {files' : Files}
    (hends : Ends host ["sh", "-c", commandLine argv cwd] dir files e files') :
    (e, files') = ran host argv cwd dir files := by
  have hstart : Guest.start host ["sh", "-c", commandLine argv cwd] dir files =
      some (ran host argv cwd dir files) := commandLine_run hrun dir files
  exact (hends _ hstart).symm

/-! ### Commands -/

/-- A command was started on the channel, and has ended so; or the transport died under it.  This is
known of what came of it. -/
def Seen (A : Agent) (T : Link) (line : String) (files : Files) (channel : ℕ) (e : Ended)
    (all part : Prop) (w : World) : Prop :=
  Doing A.host ["sh", "-c", line] A.dir files channel w.machine ∧
    (w.machine.processes channel = some (.exited e) ∧ all ∨ T.dies ∧ part)

variable {e : Ended} {files' : Files} {all part all' part' : Prop}

/-- What was seen of a command stays so. -/
theorem Seen.settles (h : Seen A T line files channel e all part w)
    (hsettles : w.machine.Settles A.host w'.machine) : Seen A T line files channel e all part w' := by
  obtain ⟨hdoing, hseen⟩ := h
  refine ⟨hdoing.settles (outlook_alone ..) hsettles, hseen.imp_left ?_⟩
  rintro ⟨hexited, hall⟩
  have hsame := Machine.Quiet.settles (hdoing.ended hexited).1 hsettles
  rw [hsame]
  exact ⟨hexited, hall⟩

/-- Two things are seen of one command. -/
theorem Seen.and (h : Seen A T line files channel e all part w)
    (h' : Seen A T line files channel e all' part' w) (hpart : all → part) (hpart' : all' → part') :
    Seen A T line files channel e (all ∧ all') (part ∧ part') w := by
  obtain ⟨hdoing, ⟨hexited, hall⟩ | ⟨hdies, hsome⟩⟩ := h
  · refine ⟨hdoing, ?_⟩
    rcases h'.2 with ⟨-, hall'⟩ | ⟨hdies, hsome'⟩
    · exact .inl ⟨hexited, hall, hall'⟩
    · exact .inr ⟨hdies, hpart hall, hsome'⟩
  · refine ⟨hdoing, .inr ⟨hdies, hsome, ?_⟩⟩
    exact h'.2.elim (fun h => hpart' h.2) fun h => h.2

/-- There is one way for the command to end. -/
theorem writes_eq (hdoing : Doing A.host ["sh", "-c", line] A.dir files channel w.machine)
    (hline : Guest.start A.host ["sh", "-c", line] A.dir files = some (e, files')) {e' : Ended}
    (h : Writes A.host w.machine channel e') : e' = e := by
  rcases h with hexited | ⟨argv', dir', files₁, hrunning, hends⟩
  · obtain ⟨-, hends⟩ := hdoing.ended hexited
    exact (hends.eq hline).1
  · rcases hdoing.stage with ⟨hstill, hfiles⟩ | ⟨e'', hexited, -⟩
    · rw [hrunning] at hstill
      cases hstill
      rw [hfiles] at hends
      exact (hends.eq hline).1
    · rw [hrunning] at hexited
      cases hexited

/-- What arrives on the channel is seen of the command. -/
theorem Arrives.seen {full some' : Ended → Prop}
    (hdoing : Doing A.host ["sh", "-c", line] A.dir files channel w.machine)
    (hline : Guest.start A.host ["sh", "-c", line] A.dir files = some (e, files'))
    (h : Arrives A T channel w.machine full some') :
    Seen A T line files channel e (full e) (some' e) w := by
  refine ⟨hdoing, ?_⟩
  rcases h with ⟨e', hexited, hfull⟩ | ⟨hdies, e', hwrites, hsome⟩
  · obtain rfl := writes_eq hdoing hline (.inl hexited)
    exact .inl ⟨hexited, hfull⟩
  · obtain rfl := writes_eq hdoing hline hwrites
    exact .inr ⟨hdies, hsome⟩

/-- A command that was started is not reported, for this reason. -/
def Failing (A : Agent) (T : Link) (line : String) (files : Files) (channel : ℕ) (x : Fault)
    (w : World) : Prop :=
  Doing A.host ["sh", "-c", line] A.dir files channel w.machine ∧ x ≠ .spins ∧ (T.raises ∨ T.lags)

theorem Failing.settles {x : Fault} (h : Failing A T line files channel x w)
    (hsettles : w.machine.Settles A.host w'.machine) : Failing A T line files channel x w' :=
  ⟨h.1.settles (outlook_alone ..) hsettles, h.2⟩

theorem Seen.failing {x : Fault} (h : Seen A T line files channel e all part w) (hx : x ≠ .spins)
    (hwhy : T.raises ∨ T.lags) : Failing A T line files channel x w := ⟨h.1, hx, hwhy⟩

/-- A channel is closed, whatever comes of that, and the command is not reported. -/
theorem closeChannel_wp {α : Type} {Q : α → World → Prop} {x : Fault}
    (h : Failing A T line files channel x w) :
    (do
      Prog.ignore (op (.closeChannel channel))
      throw x : Act α).wp (.ofSem (sem A T) fun _ => True) Q (Failing A T line files channel) w := by
  refine Prog.wp_seq (P := fun _ w₂ => Failing A T line files channel x w₂) ?_ fun _ w₂ h => h
  rw [Prog.wp_ignore]
  refine Prog.wp_perform.mpr ⟨trivial, fun _ w₂ hsem => ?_, fun x' w₂ hsem => ?_⟩
  · exact h.settles (still_step (Set.empty_subset _) hsem).1
  · exact h.settles (still_step (Set.empty_subset _) hsem).1

theorem ready_wp (hw : Seen A T line files channel e all part w) :
    (op (.exitStatusReady channel)).wp (.ofSem (sem A T) fun _ => True)
      (fun ready w' => Seen A T line files channel e all part w' ∧ w.clock ≤ w'.clock ∧
        (ready = false → T.lags)) (Failing A T line files channel) w := by
  refine Prog.wp_perform.mpr ⟨trivial, fun ready w₁ hsem => ?_, fun x w₁ hsem => ?_⟩
  · have hclock := sem_clock hsem
    obtain ⟨hsettles, hready, -⟩ := still_step (Set.empty_subset _) hsem
    refine ⟨hw.settles hsettles, hclock, ?_⟩
    rintro rfl
    simpa using hready
  · obtain ⟨hsettles, ⟨hforeign, hraises⟩, -⟩ := still_step (Set.empty_subset _) hsem
    exact (hw.settles hsettles).failing hforeign.ne_spins (.inl hraises)

/-- The exit status is waited for in time. -/
theorem waitExit_wp {late : Fault} {deadline : ℕ} (fuel : ℕ) (hlate : late ≠ .spins)
    (hw : Seen A T line files channel e all part w) (hfuel : deadline ≤ w.clock + fuel * 50) :
    (waitExit channel deadline late (fuel + 1)).wp (.ofSem (sem A T) fun _ => True)
      (fun _ w' => Seen A T line files channel e all part w') (Failing A T line files channel) w := by
  have hnow {w₁ : World} (hw₁ : Seen A T line files channel e all part w₁) :
      (op .monotonic).wp (.ofSem (sem A T) fun _ => True)
        (fun (t : ℕ) w' => Seen A T line files channel e all part w' ∧ w₁.clock ≤ t ∧ t ≤ w'.clock)
        (Failing A T line files channel) w₁ :=
    monotonic_wp fun w₂ _ hsettles => hw₁.settles hsettles
  -- A round sleeps 50 ms, so the fuel is spent only where the deadline has passed.
  induction fuel generalizing w with
  | zero =>
    rw [waitExit]
    refine Prog.wp_seq (ready_wp hw) ?_
    rintro ready w₁ ⟨hw₁, hclock, hlags⟩
    split_ifs with hready
    · exact hw₁
    refine Prog.wp_seq (hnow hw₁) ?_
    rintro t w₂ ⟨hw₂, hlo, hhi⟩
    rw [if_pos (by omega)]
    exact closeChannel_wp (hw₂.failing hlate (.inr (hlags (by simpa using hready))))
  | succ fuel ih =>
    rw [waitExit]
    refine Prog.wp_seq (ready_wp hw) ?_
    rintro ready w₁ ⟨hw₁, hclock, hlags⟩
    split_ifs with hready
    · exact hw₁
    refine Prog.wp_seq (hnow hw₁) ?_
    rintro t w₂ ⟨hw₂, hlo, hhi⟩
    split_ifs with hpast
    · exact closeChannel_wp (hw₂.failing hlate (.inr (hlags (by simpa using hready))))
    · refine Prog.wp_seq (sleep_wp (I := fun w₃ => Seen A T line files channel e all part w₃)
        fun w₃ _ hsettles => hw₂.settles hsettles) ?_
      rintro u w₃ ⟨hw₃, hslept⟩
      refine ih hw₃ ?_
      omega

/-- All that there is to report of a process. -/
def whole (e : Ended) : ExecResult := ⟨e.status, e.stdout, e.stderr⟩

/-- What is reported of a process when the transport dies under it: what had come of its output, and
-1 if its status had not come. -/
structure Cut (e : Ended) (res : ExecResult) : Prop where
  stdout : res.stdout <+: e.stdout
  stderr : res.stderr <+: e.stderr
  exitCode : res.exitCode = e.status ∨ res.exitCode = -1

/-- **A command is reported** when its output has ended, its status has come and what it has written
to stderr was drained, or the transport has died; and the report is in time. -/
theorem collect_wp {cmd host : String}
    (hline : Guest.start A.host ["sh", "-c", line] A.dir files = some (e, files'))
    (hdoing : Doing A.host ["sh", "-c", line] A.dir files channel w.machine) :
    (collect channel timeout cmd host).wp (.ofSem (sem A T) fun _ => True)
      (fun res w' => Seen A T line files channel e (res = whole e) (Cut e res) w')
      (Failing A T line files channel) w := by
  unfold collect
  -- The output and the status are those of the command.
  let got (r : Shell.Bytes × ℤ) (w₁ : World) : Prop := Seen A T line files channel e
    (r.1 = e.stdout ∧ r.2 = e.status) (r.1 <+: e.stdout ∧ (r.2 = e.status ∨ r.2 = -1)) w₁
  refine Prog.wp_seq (P := got) ?_ ?_
  · rw [Prog.wp_tryFinally]
    -- The drain thread is joined on both exits, and that changes nothing the command did.
    have hjoin {w₁ : World} {I : World → Prop} {E : Fault → World → Prop}
        (hI : ∀ w', w₁.machine.Settles A.host w'.machine → I w') :
        (op (.joinDrain channel timeout)).wp (.ofSem (sem A T) fun _ => True) (fun _ w' => I w') E w₁ := by
      refine Prog.wp_answered trivial fun r w₂ hsem => ?_
      obtain ⟨hsettles, rfl, -⟩ := still_step (Set.empty_subset _) hsem
      exact ⟨_, rfl, hI w₂ hsettles⟩
    refine Prog.wp_mono (fun r w₁ h => hjoin fun w₂ hsettles => h.settles hsettles)
      (fun x w₁ h => hjoin fun w₂ hsettles => h.settles hsettles)
      (Q := got) (E := Failing A T line files channel) ?_
    refine Prog.wp_seq (P := fun stdout w₁ =>
      Seen A T line files channel e (stdout = e.stdout) (stdout <+: e.stdout) w₁) ?_ ?_
    · refine Prog.wp_perform.mpr ⟨trivial, fun bytes w₁ hsem => ?_, fun x w₁ hsem => ?_⟩
      · obtain ⟨hsettles, hbytes, -⟩ := still_step (Set.empty_subset _) hsem
        exact Arrives.seen (hdoing.settles (outlook_alone ..) hsettles) hline hbytes
      · obtain ⟨hsettles, ⟨hforeign, hwhy⟩, -⟩ := still_step (Set.empty_subset _) hsem
        exact ⟨hdoing.settles (outlook_alone ..) hsettles, hforeign.ne_spins, hwhy⟩
    intro stdout w₁ hw₁
    refine Prog.wp_seq (monotonic_wp (I := fun w₂ =>
      Seen A T line files channel e (stdout = e.stdout) (stdout <+: e.stdout) w₂)
      fun w₂ _ hsettles => hw₁.settles hsettles) ?_
    rintro start w₂ ⟨hw₂, -, hstart⟩
    refine Prog.wp_seq (waitExit_wp _ (fun h => by cases h) hw₂
      (Prog.deadline_lt (by decide) hstart).le) fun _ w₃ hw₃ => ?_
    show (Prog.bind (op (.recvExitStatus channel)) fun code => Prog.ret (stdout, code)).wp _ _ _ _
    rw [Prog.wp_bind]
    refine Prog.wp_perform.mpr ⟨trivial, fun code w₄ hsem => ?_, fun x w₄ hsem => ?_⟩
    · obtain ⟨hsettles, hcode, -⟩ := still_step (Set.empty_subset _) hsem
      have hw₄ := hw₃.settles hsettles
      have hstatus : Seen A T line files channel e (code = e.status) (code = e.status ∨ code = -1) w₄ :=
        (Arrives.seen hw₄.1 hline hcode).imp_right fun h => h.imp_right fun h => ⟨h.1, .inr h.2⟩
      exact hw₄.and hstatus (fun h => h ▸ List.prefix_rfl) .inl
    · obtain ⟨hsettles, ⟨hforeign, hraises⟩, -⟩ := still_step (Set.empty_subset _) hsem
      exact (hw₃.settles hsettles).failing hforeign.ne_spins (.inl hraises)
  · rintro ⟨stdout, exitCode⟩ w₁ hw₁
    show (Prog.bind (op (.drained channel)) _).wp _ _ _ _
    rw [Prog.wp_bind]
    refine Prog.wp_perform.mpr ⟨trivial, fun drained w₂ hsem => ?_, fun x w₂ hsem => ?_⟩
    · obtain ⟨hsettles, hdrained, -⟩ := still_step (Set.empty_subset _) hsem
      have hw₂ := hw₁.settles hsettles
      cases drained with
      | alive => exact closeChannel_wp (hw₂.failing (fun h => by cases h) (.inr hdrained))
      | failed x => exact hw₂.failing hdrained.1.ne_spins hdrained.2
      | done stderr =>
        have hboth := hw₂.and (Arrives.seen hw₂.1 hline hdrained)
          (fun h => ⟨h.1 ▸ List.prefix_rfl, .inl h.2⟩) fun h => h ▸ List.prefix_rfl
        refine ⟨hboth.1, hboth.2.imp (fun h => ⟨h.1, ?_⟩) fun h => ⟨h.1, h.2.1.1, h.2.2, h.2.1.2⟩⟩
        obtain ⟨⟨hstdout, hstatus⟩, hstderr⟩ := h.2
        have hout : stdout = e.stdout := hstdout
        have hcode : exitCode = e.status := hstatus
        rw [hout, hcode, hstderr]
        rfl
    · obtain ⟨-, hr, -⟩ := still_step (Set.empty_subset _) hsem
      exact hr.elim

/-- A connection that is there is used. -/
theorem ensureConnected_fails (c : Communicator) (w : World) :
    (ensureConnected c).wp (.ofSem (sem A T) fun _ => True) (fun _ _ => True)
      (fun _ _ => w.client = false) w := by
  unfold ensureConnected
  refine Prog.wp_seq hasClient_wp ?_
  rintro client w₁ ⟨rfl, -⟩
  split_ifs with hclient
  · trivial
  · exact Prog.wp_mono (fun _ _ _ => trivial) (fun _ _ _ => by simpa using hclient) Prog.wp_any

/-- In a guest where nothing runs, making a connection changes nothing. -/
theorem connected_quiet (hquiet : w.machine.Quiet) (hneat : w.Neat) :
    (ensureConnected c).wp (.ofSem (sem A T) fun _ => True) (fun _ w' => w'.machine = w.machine)
      (fun x w' => w'.machine = w.machine ∧ x ≠ .spins ∧ w.client ≠ true) w := by
  have hmachine := settles_within (A := A) (T := T) (w := w) (within_ensureConnected c)
  refine Prog.wp_mono (fun _ w₁ h => hquiet.settles h.1)
    (fun x w₁ h => ⟨hquiet.settles h.1, h.2.1.2, Bool.eq_false_iff.mp h.2.2⟩)
    (Prog.wp_and hmachine (Prog.wp_and (ensureConnected_wp hneat) (ensureConnected_fails c w)))

/-- The line of a command was started at most once. -/
abbrev Tried (A : Agent) (argv : List String) (cwd : String) (w w' : World) : Prop :=
  w'.machine.Launched (fun _ _ => False) ["sh", "-c", commandLine argv cwd] A.dir
    (· = w.machine.files) (Ends A.host ["sh", "-c", commandLine argv cwd] A.dir w.machine.files)

theorem execute_wp (hrunnable : Runnable A.host argv cwd) (hquiet : w.machine.Quiet) (hneat : w.Neat) :
    (execute c argv timeout cwd).wp (.ofSem (sem A T) fun _ => True)
      (fun res w' => ∃ channel, Seen A T (commandLine argv cwd) w.machine.files channel
        (ran A.host argv cwd A.dir w.machine.files).1
        (res = whole (ran A.host argv cwd A.dir w.machine.files).1)
        (Cut (ran A.host argv cwd A.dir w.machine.files).1 res) w')
      (fun x w' => Tried A argv cwd w w' ∧ x ≠ .spins ∧
        (argv ≠ [] → w.client = true → x.channelLevel = false ∧ (T.raises ∨ T.lags))) w := by
  unfold execute
  split_ifs with hargv
  · exact ⟨.inl ⟨hquiet, rfl⟩, fun h => (by cases h), fun hne => absurd hargv hne⟩
  refine Prog.wp_seq (Prog.wp_mono (fun _ _ h => h) (fun x w₁ h => ?_) (connected_quiet hquiet hneat))
    fun _ w₁ hm => ?_
  · obtain ⟨hm, hx, hno⟩ := h
    exact ⟨.inl ⟨by rwa [hm], by rw [hm]⟩, hx, fun _ hclient => absurd hclient hno⟩
  -- The request on a live channel; what it raises of the channel is translated below.
  have hbody : (do
      let channel ← op (.execCommand (commandLine argv cwd) timeout)
      collect channel timeout (commandLine argv cwd) c.host : Act ExecResult).wp
      (.ofSem (sem A T) fun _ => True)
      (fun res w' => ∃ channel, Seen A T (commandLine argv cwd) w.machine.files channel
        (ran A.host argv cwd A.dir w.machine.files).1
        (res = whole (ran A.host argv cwd A.dir w.machine.files).1)
        (Cut (ran A.host argv cwd A.dir w.machine.files).1 res) w')
      (fun x w' => Tried A argv cwd w w' ∧ x ≠ .spins ∧ (T.raises ∨ T.lags)) w₁ := by
    have hquiet₁ : w₁.machine.Quiet := by rwa [hm]
    have hfiles : w₁.machine.files = w.machine.files := by rw [hm]
    show (Prog.bind (op (.execCommand (commandLine argv cwd) timeout)) _).wp _ _ _ _
    rw [Prog.wp_bind]
    refine Prog.wp_perform.mpr ⟨trivial, fun channel w₂ hsem => ?_, fun x w₂ hsem => ?_⟩
    · obtain ⟨⟨m, hsettles, hspawned, -⟩, -⟩ := hsem
      obtain rfl := hquiet₁.settles hsettles
      exact Prog.wp_mono (fun res w' h => ⟨channel, h⟩) (fun x w' h => ⟨.inr ⟨channel, h.1⟩, h.2⟩)
        (collect_wp (commandLine_run hrunnable A.dir w.machine.files)
          (Machine.With.beside hspawned hquiet₁ hfiles))
    · obtain ⟨⟨m, hsettles, hspawned, hforeign, -⟩, -⟩ := hsem
      obtain rfl := hquiet₁.settles hsettles
      obtain ⟨hraises, hlaunched⟩ : T.raises ∧ Tried A argv cwd w w₂ :=
        Spawned.launched hspawned hquiet₁ hfiles
      exact ⟨hlaunched, (hforeign x rfl).ne_spins, .inl hraises⟩
  show (Prog.tryCatch _ _).wp _ _ _ _
  rw [Prog.wp_tryCatch]
  refine Prog.wp_mono (fun _ _ h => h) (fun x w₂ h => ?_) hbody
  obtain ⟨htried, hx, hwhy⟩ := h
  show (if x.channelLevel = true then _ else _ : Act ExecResult).wp _ _ _ _
  split_ifs with hlevel
  · exact ⟨htried, fun h => (by cases h), fun _ _ => ⟨rfl, hwhy⟩⟩
  · exact ⟨htried, hx, fun _ _ => ⟨by simpa using hlevel, hwhy⟩⟩

/-! ### Files -/

theorem openSftp_wp {E : Fault → World → Prop} (hquiet : w.machine.Quiet)
    (hE : ∀ x w', w'.machine = w.machine → x.IsForeign → T.raises → E x w') :
    (op .openSftp).wp (.ofSem (sem A T) fun _ => True) (fun _ w' => w'.machine = w.machine) E w := by
  refine Prog.wp_perform.mpr ⟨trivial, fun _ w₁ hsem => ?_, fun x w₁ hsem => ?_⟩
  · exact hquiet.settles (still_step (Set.empty_subset _) hsem).1
  · obtain ⟨hsettles, hx, -⟩ := still_step (Set.empty_subset _) hsem
    exact hE x w₁ (hquiet.settles hsettles) (hx x rfl).1 (hx x rfl).2

theorem closeSftp_wp {Q : World → Prop} {E : Fault → World → Prop} (hquiet : w.machine.Quiet)
    (hQ : ∀ w', w'.machine = w.machine → Q w')
    (hE : ∀ x w', w'.machine = w.machine → x.IsForeign → T.raises → E x w') :
    (op .closeSftp).wp (.ofSem (sem A T) fun _ => True) (fun _ w' => Q w') E w := by
  refine Prog.wp_perform.mpr ⟨trivial, fun _ w₁ hsem => ?_, fun x w₁ hsem => ?_⟩
  · exact hQ w₁ (hquiet.settles (still_step (Set.empty_subset _) hsem).1)
  · obtain ⟨hsettles, hx, -⟩ := still_step (Set.empty_subset _) hsem
    exact hE x w₁ (hquiet.settles hsettles) (hx x rfl).1 (hx x rfl).2

end Commands

section FileRequests

variable {A : Agent} {T : Link} {c : Communicator} {w w' : World} {path : String}
  {data : Shell.Bytes}

/-- **A file that is read** is read as a whole; in a session that works only a file that is not there
cannot be read. -/
theorem readFile_wp (hquiet : w.machine.Quiet) (hneat : w.Neat) :
    (readFile c path).wp (.ofSem (sem A T) fun _ => True)
      (fun data w' => w'.machine = w.machine ∧ w.machine.files (resolve A.dir path) = some data)
      (fun x w' => w'.machine = w.machine ∧ x ≠ .spins ∧ (w.client = true → T.raises ∨
        x = .sftpRead path c.host ∧ w.machine.files (resolve A.dir path) = none)) w := by
  unfold readFile sftp
  refine Prog.wp_seq (Prog.wp_mono (fun _ _ h => h)
    (fun x w₁ h => ⟨h.1, h.2.1, fun hclient => absurd hclient h.2.2⟩)
    (connected_quiet hquiet hneat)) fun _ w₁ hm => ?_
  have hquiet₁ : w₁.machine.Quiet := by rwa [hm]
  refine Prog.wp_seq (openSftp_wp hquiet₁ fun x w₂ hm₂ hforeign hraises =>
    ⟨hm₂.trans hm, hforeign.ne_spins, fun _ => .inl hraises⟩) fun _ w₂ hm₂ => ?_
  have hquiet₂ : w₂.machine.Quiet := by rwa [hm₂]
  rw [Prog.wp_tryFinally]
  show (Prog.tryCatch _ _).wp _ _ _ _
  rw [Prog.wp_tryCatch]
  refine Prog.wp_perform.mpr ⟨trivial, fun bytes w₃ hsem => ?_, fun x w₃ hsem => ?_⟩
  · obtain ⟨hsettles, hbytes, -⟩ := still_step (Set.empty_subset _) hsem
    have hm₃ : w₃.machine = w.machine := (hquiet₂.settles hsettles).trans (hm₂.trans hm)
    refine closeSftp_wp (by rwa [hm₃]) (fun w₄ hm₄ => ⟨hm₄.trans hm₃, ?_⟩)
      fun x w₄ hm₄ hforeign hraises => ⟨hm₄.trans hm₃, hforeign.ne_spins, fun _ => .inl hraises⟩
    rw [← hm₃]
    exact hbytes
  · obtain ⟨hsettles, ⟨hforeign, hwhy⟩, -⟩ := still_step (Set.empty_subset _) hsem
    have hm₃ : w₃.machine = w.machine := (hquiet₂.settles hsettles).trans (hm₂.trans hm)
    -- Whatever is raised, the session for files is closed first.
    have hclose {x : Fault} (hx : x ≠ .spins) (hwhy : T.raises ∨
        x = .sftpRead path c.host ∧ w.machine.files (resolve A.dir path) = none) :
        (op .closeSftp).wp (.ofSem (sem A T) fun _ => True)
          (fun _ w' => w'.machine = w.machine ∧ x ≠ .spins ∧ (w.client = true → T.raises ∨
            x = .sftpRead path c.host ∧ w.machine.files (resolve A.dir path) = none))
          (fun x w' => w'.machine = w.machine ∧ x ≠ .spins ∧ (w.client = true → T.raises ∨
            x = .sftpRead path c.host ∧ w.machine.files (resolve A.dir path) = none)) w₃ :=
      closeSftp_wp (by rwa [hm₃]) (fun w₄ hm₄ => ⟨hm₄.trans hm₃, hx, fun _ => hwhy⟩)
        fun x w₄ hm₄ hforeign hraises => ⟨hm₄.trans hm₃, hforeign.ne_spins, fun _ => .inl hraises⟩
    cases x with
    | os =>
      refine hclose (fun h => by cases h) (hwhy.imp_right fun h => ⟨rfl, ?_⟩)
      rw [← hm₃]
      exact h.2
    | _ => exact hclose hforeign.ne_spins (.inl (hwhy.resolve_right fun h => by cases h.1))

/-- What is known when a write has failed. -/
def Unwritten (A : Agent) (T : Link) (c : Communicator) (path : String) (data : Shell.Bytes)
    (w : World) (x : Fault) (w' : World) : Prop :=
  (w'.machine.Quiet ∧ SameBut {resolve A.dir path} w.machine.files w'.machine.files) ∧ x ≠ .spins ∧
    (w.client = true → T.raises ∨ x = .sftpWrite data.length path c.host ∧
      A.host.writable (resolve A.dir path) w.machine.files = false)

/-- **A file that is written** has the data, and other files are left alone. -/
theorem writeFile_wp (hquiet : w.machine.Quiet) (hneat : w.Neat) :
    (writeFile c path data).wp (.ofSem (sem A T) fun _ => True)
      (fun _ w' => w'.machine.Quiet ∧ w'.machine.files =
        Function.update w.machine.files (resolve A.dir path) (some data))
      (Unwritten A T c path data w) w := by
  unfold writeFile sftp
  have hraised {x : Fault} {w₁ : World} (hm : w₁.machine = w.machine) (hx : x ≠ .spins)
      (hwhy : w.client = true → T.raises) : Unwritten A T c path data w x w₁ := by
    refine ⟨⟨by rwa [hm], ?_⟩, hx, fun hclient => .inl (hwhy hclient)⟩
    rw [hm]
    exact .refl _ _
  refine Prog.wp_seq (Prog.wp_mono (fun _ _ h => h)
    (fun x w₁ h => hraised h.1 h.2.1 fun hclient => absurd hclient h.2.2)
    (connected_quiet hquiet hneat)) fun _ w₁ hm => ?_
  have hquiet₁ : w₁.machine.Quiet := by rwa [hm]
  refine Prog.wp_seq (openSftp_wp hquiet₁ fun x w₂ hm₂ hforeign hraises =>
    hraised (hm₂.trans hm) hforeign.ne_spins fun _ => hraises) fun _ w₂ hm₂ => ?_
  have hm₂ : w₂.machine = w.machine := hm₂.trans hm
  have hquiet₂ : w₂.machine.Quiet := by rwa [hm₂]
  rw [Prog.wp_tryFinally]
  show (Prog.tryCatch _ _).wp _ _ _ _
  rw [Prog.wp_tryCatch]
  have hstill {w₃ : World} (hprocesses : w₃.machine.processes = w₂.machine.processes) :
      w₃.machine.Quiet := fun pid a d hrunning => hquiet₂ pid a d (by rwa [← hprocesses])
  have hsame {w₃ w₄ : World} (hm₄ : w₄.machine = w₃.machine) (hquiet₃ : w₃.machine.Quiet)
      (hfiles : SameBut {resolve A.dir path} w.machine.files w₃.machine.files) :
      w₄.machine.Quiet ∧ SameBut {resolve A.dir path} w.machine.files w₄.machine.files := by
    rw [hm₄]
    exact ⟨hquiet₃, hfiles⟩
  refine Prog.wp_perform.mpr ⟨trivial, fun u w₃ hsem => ?_, fun x w₃ hsem => ?_⟩
  · obtain ⟨⟨m, hsettles, hfiles, hprocesses, -⟩, -⟩ := hsem
    obtain rfl := hquiet₂.settles hsettles
    have hfiles : w₃.machine.files =
        Function.update w.machine.files (resolve A.dir path) (some data) := by
      rw [← hm₂]
      exact hfiles
    refine closeSftp_wp (hstill hprocesses) (fun w₄ hm₄ => ?_) fun x w₄ hm₄ hforeign hraises => ?_
    · rw [hm₄]
      exact ⟨hstill hprocesses, hfiles⟩
    · refine ⟨hsame hm₄ (hstill hprocesses) fun k hk => ?_, hforeign.ne_spins, fun _ => .inl hraises⟩
      rw [hfiles, Function.update_of_ne hk]
  · obtain ⟨⟨m, hsettles, ⟨hforeign, hwhy, hfiles⟩, hprocesses, -⟩, -⟩ := hsem
    obtain rfl := hquiet₂.settles hsettles
    have hfiles : SameBut {resolve A.dir path} w.machine.files w₃.machine.files := by
      rw [← hm₂]
      exact hfiles
    have hclose {x : Fault} (hx : x ≠ .spins) (hwhy : T.raises ∨ x = .sftpWrite data.length path c.host ∧
        A.host.writable (resolve A.dir path) w.machine.files = false) :
        (op .closeSftp).wp (.ofSem (sem A T) fun _ => True)
          (fun _ w' => Unwritten A T c path data w x w') (Unwritten A T c path data w) w₃ :=
      closeSftp_wp (hstill hprocesses)
        (fun w₄ hm₄ => ⟨hsame hm₄ (hstill hprocesses) hfiles, hx, fun _ => hwhy⟩)
        fun x w₄ hm₄ hforeign hraises =>
          ⟨hsame hm₄ (hstill hprocesses) hfiles, hforeign.ne_spins, fun _ => .inl hraises⟩
    cases x with
    | os =>
      refine hclose (fun h => by cases h) (hwhy.imp_right fun h => ⟨rfl, ?_⟩)
      rw [← hm₂]
      exact h.2
    | _ => exact hclose hforeign.ne_spins (.inl (hwhy.resolve_right fun h => by cases h.1))

end FileRequests

/-! ### Runs -/

/-- What comes of a command in a guest where nothing else runs: when it returns, the command was
started once, and it has ended and all of it is reported, unless the transport died under it. -/
def Executed (A : Agent) (T : Link) (argv : List String) (cwd : String) (w : World)
    (out : Except Fault ExecResult) (w' : World) : Prop :=
  match out with
  | .ok res =>
    (∃ channel, Doing A.host ["sh", "-c", commandLine argv cwd] A.dir w.machine.files channel
      w'.machine) ∧
    (w'.machine.Quiet ∧ res = whole (ran A.host argv cwd A.dir w.machine.files).1 ∧
        w'.machine.files = (ran A.host argv cwd A.dir w.machine.files).2 ∨
      T.dies ∧ Cut (ran A.host argv cwd A.dir w.machine.files).1 res)
  | .error x => Tried A argv cwd w w' ∧ x ≠ .spins ∧
      (w.client = true → x.channelLevel = false ∧ (T.raises ∨ T.lags))

/-- What comes of a file that is read or written there. -/
def Read (A : Agent) (T : Link) (c : Communicator) (path : String) (w : World)
    (out : Except Fault Shell.Bytes) (w' : World) : Prop :=
  w'.machine = w.machine ∧
    match out with
    | .ok data => w.machine.files (resolve A.dir path) = some data
    | .error x => x ≠ .spins ∧ (w.client = true → T.raises ∨
        x = .sftpRead path c.host ∧ w.machine.files (resolve A.dir path) = none)

def Written (A : Agent) (T : Link) (c : Communicator) (path : String) (data : Shell.Bytes)
    (w : World) (out : Except Fault Unit) (w' : World) : Prop :=
  match out with
  | .ok _ => w'.machine.Quiet ∧ w'.machine.files =
      Function.update w.machine.files (resolve A.dir path) (some data)
  | .error x => Unwritten A T c path data w x w'

section Ends

variable {A : Agent} {T : Link} {w : World} {argv : List String} {cwd : String} {channel : ℕ}
  {res : ExecResult}

/-- On a connection that is there every such report may come. -/
theorem execute_ends (c : Communicator) (timeout channel : ℕ) (hrunnable : Runnable A.host argv cwd)
    (hclient : w.client = true) (hfree : w.machine.processes channel = none)
    (hres : res = whole (ran A.host argv cwd A.dir w.machine.files).1 ∨
      T.dies ∧ Cut (ran A.host argv cwd A.dir w.machine.files).1 res) :
    ∃ w', Prog.Ends (sem A T) (execute c argv timeout cwd) w (.ok res) w' := by
  let line := ["sh", "-c", commandLine argv cwd]
  let e := (ran A.host argv cwd A.dir w.machine.files).1
  let files' := (ran A.host argv cwd A.dir w.machine.files).2
  let w₁ : World := { w with machine :=
    ⟨w.machine.files, Function.update w.machine.processes channel (some (.running line A.dir))⟩ }
  let w₂ : World := { w with machine :=
    ⟨files', Function.update w.machine.processes channel (some (.exited e))⟩ }
  have hends : Ends A.host line A.dir w.machine.files e files' := by
    intro r hr
    have hstart : Guest.start A.host line A.dir w.machine.files =
        some (ran A.host argv cwd A.dir w.machine.files) := commandLine_run hrunnable _ _
    rw [hstart] at hr
    exact (Option.some.inj hr).symm
  -- It runs to its end while its output is read, and what is read later is of that end.
  have hexited : w₂.machine.processes channel = some (.exited e) := Function.update_self ..
  have harrives {all part : Ended → Prop} (h : all e ∨ T.dies ∧ part e) :
      Arrives A T channel w₂.machine all part :=
    h.imp (fun h => ⟨e, hexited, h⟩) fun h => ⟨h.1, e, .inl hexited, h.2⟩
  have hclient : sem A T .hasClient w (.ok true) w :=
    ⟨⟨w.machine, .refl, congrArg Except.ok hclient.symm, rfl, w.alike_self⟩, le_rfl⟩
  have hexec : sem A T (.execCommand (commandLine argv cwd) timeout) w (.ok channel) w₁ :=
    ⟨⟨w.machine, .refl, ⟨hfree, rfl⟩, fun _ h => (by cases h), w.alike_self⟩, le_rfl⟩
  have hstdout : sem A T (.readStdout channel) w₁ (.ok res.stdout) w₂ :=
    ⟨⟨w₂.machine, hends.settles w.machine.processes channel,
      harrives (hres.imp (fun h => congrArg _ h) fun h => ⟨h.1, h.2.stdout⟩), rfl, w.alike_self⟩, le_rfl⟩
  have hclock : sem A T .monotonic w₂ (.ok w.clock) w₂ :=
    ⟨⟨w₂.machine, .refl, ⟨_, rfl, le_rfl, le_rfl⟩, rfl, w₂.alike_self⟩, le_rfl⟩
  have hready : sem A T (.exitStatusReady channel) w₂ (.ok true) w₂ :=
    ⟨⟨w₂.machine, .refl, .inr ⟨e, hexited⟩, rfl, w₂.alike_self⟩, le_rfl⟩
  -- Where the transport has died, the status is -1 or the one that was sent.
  have hcode : res.exitCode = e.status ∨ T.dies ∧ res.exitCode = -1 := by
    rcases hres with h | ⟨hdies, hcut⟩
    · exact .inl (congrArg _ h)
    · exact hcut.exitCode.imp_right fun h => ⟨hdies, h⟩
  have hstatus : sem A T (.recvExitStatus channel) w₂ (.ok res.exitCode) w₂ :=
    ⟨⟨w₂.machine, .refl, harrives hcode, rfl, w₂.alike_self⟩, le_rfl⟩
  have hjoin : sem A T (.joinDrain channel timeout) w₂ (.ok ()) w₂ :=
    ⟨⟨w₂.machine, .refl, rfl, rfl, w₂.alike_self⟩, le_rfl⟩
  have hdrained : sem A T (.drained channel) w₂ (.ok (.done res.stderr)) w₂ :=
    ⟨⟨w₂.machine, .refl, harrives (hres.imp (fun h => congrArg _ h) fun h => ⟨h.1, h.2.stderr⟩), rfl,
      w₂.alike_self⟩, le_rfl⟩
  have hargv : argv ≠ [] := by
    obtain ⟨name, args, hargv, -⟩ := hrunnable.named
    simp [hargv]
  refine ⟨w₂, ?_⟩
  rw [execute, if_neg hargv]
  exact .call hclient (.call hexec (.call hstdout (.call hclock (.call hready (.call hstatus
    (.call hjoin (.call hdrained (.ret _ w₂))))))))

end Ends

/-- Two files in a directory, and a connection. -/
def desk : World := { idle true with machine := ⟨Guest.deskFiles, fun _ => none⟩ }

theorem desk_runnable : Runnable Guest.plainHost ["cat", "a.txt", "b c.txt"] "my docs" where
  named := ⟨"cat", _, rfl, Guest.plainHost_names (by simp), fun _ => by decide⟩
  nul := by decide
  cwd_nul := by decide
  cwd_back := by decide

end TestRange.Ssh
