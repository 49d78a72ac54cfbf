/-
The guest behind an agent: its files, and the processes that the agent has started there.

A process takes effect at some time after it was started, whether anyone waits for it or not.
Nothing else changes the files of the guest while the agent is used.

* `Guest.start`, `Guest.Ends` — what a process does: a shell runs its line;
* `Guest.Machine.Settles` — processes come to their end between two calls to the agent;
* `Guest.Beside`, `Guest.Doing` — a process besides others or alone, before or after its end;
* `Guest.Harmless`, `Guest.Steady` — what the processes that are running may change;
* `Guest.Spawned`, `Guest.Polled` — how an agent starts a process, and tells how it ended;
* `Guest.Agent.report` — what is made of that;
* `Guest.slices` — data in pieces of a size.
-/
import TestRange.Lib.Crash
import TestRange.Lib.Shell

namespace TestRange.Guest

open Shell (Files Ended resolve)

/-! ### Processes -/

/-- A process, with its arguments in its directory. -/
inductive Process
  | running (argv : List String) (dir : String)
  | exited (e : Ended)

structure Machine where
  files : Files
  processes : ℕ → Option Process

/-- What a process does, where that is known: a shell runs the line it is given, and anything else
is a utility. -/
def start (host : Shell.Host) (argv : List String) (dir : String) (files : Files) :
    Option (Ended × Files) :=
  match argv with
  | [sh, "-c", line] =>
    if sh = "sh" ∨ sh = "/bin/sh" then Shell.run host line dir files
    else some (host.spawn argv dir files)
  | _ => some (host.spawn argv dir files)

/-- A process may end so, and leave these files. -/
def Ends (host : Shell.Host) (argv : List String) (dir : String) (files : Files) (e : Ended)
    (files' : Files) : Prop :=
  ∀ r, start host argv dir files = some r → r = (e, files')

/-- A process ends. -/
inductive Machine.Exits (host : Shell.Host) : Machine → Machine → Prop
  | mk {m : Machine} {pid : ℕ} {argv : List String} {dir : String} {e : Ended} {files : Files}
      (hrunning : m.processes pid = some (.running argv dir)) (hends : Ends host argv dir m.files e files) :
      Exits host m ⟨files, Function.update m.processes pid (some (.exited e))⟩

/-- Some of the processes end. -/
def Machine.Settles (host : Shell.Host) : Machine → Machine → Prop :=
  Relation.ReflTransGen (Machine.Exits host)

/-- Kinds of processes, by arguments and directory. -/
abbrev Kind := List String → String → Prop

/-- The processes that are running are of this kind. -/
def Machine.Only (P : Kind) (m : Machine) : Prop :=
  ∀ pid argv dir, m.processes pid = some (.running argv dir) → P argv dir

/-- No process is running. -/
abbrev Machine.Quiet (m : Machine) : Prop := m.Only fun _ _ => False

variable {host : Shell.Host} {P : Kind} {m m' : Machine} {pid : ℕ} {argv : List String} {dir : String}
  {files files' : Files} {e : Ended}

theorem Ends.eq {r : Ended × Files} (h : Ends host argv dir files e files')
    (hstart : start host argv dir files = some r) : e = r.1 ∧ files' = r.2 := by
  have heq := h r hstart
  exact ⟨congrArg Prod.fst heq.symm, congrArg Prod.snd heq.symm⟩

theorem Machine.Only.mono {P' : Kind} (h : m.Only P) (hP : ∀ a d, P a d → P' a d) : m.Only P' :=
  fun pid argv dir hrunning => hP _ _ (h pid argv dir hrunning)

/-- The processes of a kind leave this as it is. -/
def Leaves (host : Shell.Host) (P : Kind) (I : Files → Prop) : Prop :=
  ∀ a d, P a d → ∀ files e files', Ends host a d files e files' → I files → I files'

/-- What the processes leave as it is, is as it was when some of them have ended. -/
theorem Machine.Only.settles {I : Files → Prop} (h : m.Only P) (hI : Leaves host P I)
    (hm : I m.files) (hsettles : m.Settles host m') : m'.Only P ∧ I m'.files := by
  induction hsettles with
  | refl => exact ⟨h, hm⟩
  | tail _ hstep ih =>
    obtain ⟨honly, hfiles⟩ := ih
    cases hstep with
    | @mk p a d e files₁ hrunning hends =>
      refine ⟨fun q a' d' hq => ?_, hI a d (honly p a d hrunning) _ _ _ hends hfiles⟩
      dsimp only at hq
      by_cases hqp : q = p
      · rw [hqp, Function.update_self] at hq
        cases hq
      · rw [Function.update_of_ne hqp] at hq
        exact honly q a' d' hq

/-- On a quiet machine nothing happens by itself. -/
theorem Machine.Quiet.settles (h : m.Quiet) (hsettles : m.Settles host m') : m' = m := by
  rcases Relation.ReflTransGen.cases_head hsettles with rfl | ⟨m₁, hfirst, -⟩
  · rfl
  · cases hfirst with
    | mk hrunning _ => exact (h _ _ _ hrunning).elim

/-! ### A process besides others -/

/-- A process besides those of a kind: `before` holds of the files while it runs, and `after` when it
has ended. -/
structure Beside (P : Kind) (argv : List String) (dir : String) (before : Files → Prop)
    (after : Ended → Files → Prop) (pid : ℕ) (m : Machine) : Prop where
  others : ∀ p, p ≠ pid → ∀ a d, m.processes p = some (.running a d) → P a d
  stage : (m.processes pid = some (.running argv dir) ∧ before m.files) ∨
    ∃ e, m.processes pid = some (.exited e) ∧ after e m.files

/-- What holds of the files before a process ends, and after, whatever the others do. -/
structure Outlook (host : Shell.Host) (P : Kind) (argv : List String) (dir : String)
    (before : Files → Prop) (after : Ended → Files → Prop) : Prop where
  ends : ∀ files e files', before files → Ends host argv dir files e files' → after e files'
  before : Leaves host P before
  after : ∀ e, Leaves host P (after e)

variable {before : Files → Prop} {after : Ended → Files → Prop}

theorem Beside.exits (O : Outlook host P argv dir before after)
    (h : Beside P argv dir before after pid m) (hexits : m.Exits host m') :
    Beside P argv dir before after pid m' := by
  cases hexits with
  | @mk p a d e files₁ hrunning hends =>
    refine ⟨fun q hq a' d' hrun => ?_, ?_⟩
    · dsimp only at hrun
      by_cases hqp : q = p
      · rw [hqp, Function.update_self] at hrun
        cases hrun
      · rw [Function.update_of_ne hqp] at hrun
        exact h.others q hq a' d' hrun
    · by_cases hp : p = pid
      · -- It is the process itself.
        subst hp
        rcases h.stage with ⟨hstill, hbefore⟩ | ⟨e', hended, -⟩
        · rw [hstill] at hrunning
          cases hrunning
          exact .inr ⟨e, Function.update_self .., O.ends _ _ _ hbefore hends⟩
        · rw [hended] at hrunning
          cases hrunning
      · have hother := h.others p hp a d hrunning
        have hsame : Function.update m.processes p (some (.exited e)) pid = m.processes pid :=
          Function.update_of_ne (Ne.symm hp) ..
        rcases h.stage with ⟨hstill, hbefore⟩ | ⟨e', hended, hafter⟩
        · exact .inl ⟨hsame.trans hstill, O.before a d hother _ _ _ hends hbefore⟩
        · exact .inr ⟨e', hsame.trans hended, O.after e' a d hother _ _ _ hends hafter⟩

theorem Beside.settles (O : Outlook host P argv dir before after)
    (h : Beside P argv dir before after pid m) (hsettles : m.Settles host m') :
    Beside P argv dir before after pid m' := by
  induction hsettles with
  | refl => exact h
  | tail _ hstep ih => exact ih.exits O hstep

/-- When the process has ended, the others are left. -/
theorem Beside.ended (h : Beside P argv dir before after pid m)
    (hexited : m.processes pid = some (.exited e)) : m.Only P ∧ after e m.files := by
  refine ⟨fun p a d hrunning => ?_, ?_⟩
  · by_cases hp : p = pid
    · rw [hp, hexited] at hrunning
      cases hrunning
    · exact h.others p hp a d hrunning
  · rcases h.stage with ⟨hrunning, -⟩ | ⟨e', hended, hafter⟩
    · rw [hexited] at hrunning
      cases hrunning
    · rw [hexited] at hended
      cases hended
      exact hafter

/-- A process that was started on a quiet machine with these files, and nothing since. -/
abbrev Doing (host : Shell.Host) (argv : List String) (dir : String) (files : Files) (pid : ℕ)
    (m : Machine) : Prop :=
  Beside (fun _ _ => False) argv dir (· = files) (Ends host argv dir files) pid m

/-- Alone, a process ends as it would with the files that it found. -/
theorem outlook_alone (host : Shell.Host) (argv : List String) (dir : String) (files : Files) :
    Outlook host (fun _ _ => False) argv dir (· = files) (Ends host argv dir files) where
  ends := by
    rintro _ e files' rfl hends
    exact hends
  before := fun _ _ hfalse => hfalse.elim
  after := fun _ _ _ hfalse => hfalse.elim

/-! ### Processes that keep to some files -/

/-- A process changes no files but these, whenever it ends. -/
def Harmless (host : Shell.Host) (K : Set String) : Kind := fun argv dir =>
  ∀ files e files', Ends host argv dir files e files' → ∀ k, k ∉ K → files' k = files k

/-- The processes of a kind keep to these files. -/
def Kind.Keeps (P : Kind) (host : Shell.Host) (K : Set String) : Prop :=
  ∀ a d, P a d → Harmless host K a d

/-- The files are the same, but for some. -/
def SameBut (K : Set String) (files files' : Files) : Prop := ∀ k, k ∉ K → files' k = files k

variable {K F : Set String}

theorem Harmless.mono (h : Harmless host K argv dir) (hK : K ⊆ F) : Harmless host F argv dir :=
  fun files e files' hends k hk => h files e files' hends k fun hmem => hk (hK hmem)

theorem SameBut.refl (K : Set String) (files : Files) : SameBut K files files := fun _ _ => rfl

theorem SameBut.trans {files₁ files₂ files₃ : Files} (h : SameBut K files₁ files₂)
    (h' : SameBut K files₂ files₃) : SameBut K files₁ files₃ :=
  fun k hk => (h' k hk).trans (h k hk)

theorem SameBut.mono (h : SameBut K files files') (hK : K ⊆ F) : SameBut F files files' :=
  fun k hk => h k fun hmem => hk (hK hmem)

theorem Kind.Keeps.sameBut (hP : P.Keeps host K) (hK : K ⊆ F) (files : Files) :
    Leaves host P (SameBut F files) := by
  intro a d ha files₁ e files₂ hends h
  exact h.trans fun k hk => hP a d ha files₁ e files₂ hends k fun hmem => hk (hK hmem)

theorem quiet_keeps (host : Shell.Host) (K : Set String) : Kind.Keeps (fun _ _ => False) host K :=
  fun _ _ hfalse => hfalse.elim

theorem harmless_keeps (host : Shell.Host) (K : Set String) : Kind.Keeps (Harmless host K) host K :=
  fun _ _ h => h

/-- A file that the processes of a kind keep off. -/
theorem Kind.Keeps.file (hP : P.Keeps host K) {k : String} (hk : k ∉ K) (content : Option Shell.Bytes) :
    Leaves host P fun files => files k = content :=
  fun a d ha _ _ _ hends h => (hP a d ha _ _ _ hends k hk).trans h

/-- Besides processes that keep to `K`, one that keeps to `F` changes no other files. -/
theorem outlook_sameBut (hP : P.Keeps host K) (hargv : Harmless host F argv dir) (files : Files) :
    Outlook host P argv dir (SameBut (K ∪ F) files) fun _ => SameBut (K ∪ F) files where
  ends := fun files₁ e files₂ h hends => h.trans fun k hk =>
    hargv files₁ e files₂ hends k fun hmem => hk (.inr hmem)
  before := hP.sameBut Set.subset_union_left files
  after := fun _ => hP.sameBut Set.subset_union_left files

/-- The processes are still of the kind, and the files are the same but for some. -/
structure Steady (P : Kind) (K : Set String) (m m' : Machine) : Prop where
  only : m'.Only P
  files : SameBut K m.files m'.files

variable {m'' : Machine}

theorem Steady.start (h : m.Only P) : Steady P K m m := ⟨h, .refl K m.files⟩

theorem Steady.settles (h : Steady P F m m') (hP : P.Keeps host K) (hK : K ⊆ F)
    (hsettles : m'.Settles host m'') : Steady P F m m'' := by
  obtain ⟨honly, hfiles⟩ := h.only.settles (hP.sameBut hK m.files) h.files hsettles
  exact ⟨honly, hfiles⟩

theorem Steady.change (h : Steady P F m m') (hprocesses : m''.processes = m'.processes)
    (hfiles : SameBut F m'.files m''.files) : Steady P F m m'' := by
  refine ⟨fun pid argv dir hrunning => ?_, h.files.trans hfiles⟩
  rw [hprocesses] at hrunning
  exact h.only pid argv dir hrunning

theorem Steady.mono {P' : Kind} (h : Steady P K m m') (hP : ∀ a d, P a d → P' a d) (hK : K ⊆ F) :
    Steady P' F m m' :=
  ⟨h.only.mono hP, h.files.mono hK⟩

/-! ### What an agent does with processes -/

/-- What an agent may do besides what it is asked for: raise, and take its time. -/
structure Trust where
  raises : Prop
  lags : Prop

variable {T : Trust}

/-- The process is new. -/
def Machine.With (m : Machine) (argv : List String) (dir : String) (pid : ℕ) (m' : Machine) : Prop :=
  m.processes pid = none ∧ m' = ⟨m.files, Function.update m.processes pid (some (.running argv dir))⟩

/-- A process is started; a start that raises may have done so as well. -/
def Spawned (T : Trust) (argv : List String) (dir : String) (m : Machine) (r : Option ℕ)
    (m' : Machine) : Prop :=
  match r with
  | some pid => m.With argv dir pid m'
  | none => T.raises ∧ (m' = m ∨ ∃ pid, m.With argv dir pid m')

/-- What an agent says of a process: how it has ended, or that it has not. -/
def Polled (T : Trust) (pid : ℕ) (m : Machine) : Option Ended → Prop
  | some e => m.processes pid = some (.exited e)
  | none => T.lags

theorem Machine.With.only {P' : Kind} (h : m.With argv dir pid m') (hm : m.Only P)
    (hP : ∀ a d, P a d → P' a d) (hargv : P' argv dir) : m'.Only P' := by
  obtain ⟨-, rfl⟩ := h
  intro q a d hq
  dsimp only at hq
  by_cases hqp : q = pid
  · rw [hqp, Function.update_self] at hq
    cases hq
    exact hargv
  · rw [Function.update_of_ne hqp] at hq
    exact hP _ _ (hm q a d hq)

theorem Machine.With.beside (h : m.With argv dir pid m') (hm : m.Only P) (hfiles : before m.files) :
    Beside P argv dir before after pid m' := by
  obtain ⟨-, rfl⟩ := h
  refine ⟨fun p hp a d hrunning => ?_, .inl ⟨Function.update_self .., hfiles⟩⟩
  dsimp only at hrunning
  rw [Function.update_of_ne hp] at hrunning
  exact hm p a d hrunning

/-- All but some first numbers of processes are free. -/
def Machine.Roomy (m : Machine) : Prop := ∃ n, ∀ pid, n ≤ pid → m.processes pid = none

theorem Machine.Roomy.fresh (h : m.Roomy) : ∃ pid, m.processes pid = none ∧
    ∀ files p, Machine.Roomy ⟨files, Function.update m.processes pid p⟩ := by
  obtain ⟨n, hn⟩ := h
  refine ⟨n, hn n (Nat.le_refl n), fun files p => ⟨n + 1, fun pid hpid => ?_⟩⟩
  have hne : pid ≠ n := by omega
  exact (Function.update_of_ne hne ..).trans (hn pid (by omega))

/-- A process may end in some way. -/
theorem Ends.exist (host : Shell.Host) (argv : List String) (dir : String) (files : Files) :
    ∃ e files', Ends host argv dir files e files' := by
  rcases hstart : start host argv dir files with _ | r
  · exact ⟨⟨0, [], []⟩, files, fun r hr => by rw [hstart] at hr; cases hr⟩
  · refine ⟨r.1, r.2, fun r' hr' => ?_⟩
    rw [hstart] at hr'
    exact (Option.some.inj hr').symm

/-- A process that is started may end before the agent is asked for it. -/
theorem Ends.settles (h : Ends host argv dir files e files') (processes : ℕ → Option Process) (pid : ℕ) :
    Machine.Settles host ⟨files, Function.update processes pid (some (.running argv dir))⟩
      ⟨files', Function.update processes pid (some (.exited e))⟩ := by
  have hexits : Machine.Exits host ⟨files, Function.update processes pid (some (.running argv dir))⟩
      ⟨files', Function.update (Function.update processes pid (some (.running argv dir))) pid
        (some (.exited e))⟩ := .mk (Function.update_self ..) h
  rw [Function.update_idem] at hexits
  exact .single hexits

/-- A process that was asked for is not there, or it is. -/
def Machine.Launched (P : Kind) (argv : List String) (dir : String) (before : Files → Prop)
    (after : Ended → Files → Prop) (m : Machine) : Prop :=
  (m.Only P ∧ before m.files) ∨ ∃ pid, Beside P argv dir before after pid m

/-- A start that fails may still have started the process. -/
theorem Spawned.launched (h : Spawned T argv dir m none m') (hm : m.Only P) (hfiles : before m.files) :
    T.raises ∧ m'.Launched P argv dir before after := by
  refine ⟨h.1, ?_⟩
  rcases h.2 with rfl | ⟨pid, hwith⟩
  · exact .inl ⟨hm, hfiles⟩
  · exact .inr ⟨pid, hwith.beside hm hfiles⟩

/-- What may still be running after a process was asked for in vain. -/
theorem Machine.Launched.kind (h : m.Launched P argv dir before after) :
    m.Only fun a d => P a d ∨ a = argv ∧ d = dir := by
  rcases h with ⟨honly, -⟩ | ⟨pid, hbeside⟩
  · exact honly.mono fun _ _ => .inl
  · intro p a d hrunning
    by_cases hp : p = pid
    · subst hp
      rcases hbeside.stage with ⟨hstill, -⟩ | ⟨e, hended, -⟩
      · rw [hstill] at hrunning
        cases hrunning
        exact .inr ⟨rfl, rfl⟩
      · rw [hended] at hrunning
        cases hrunning
    · exact .inl (hbeside.others p hp a d hrunning)

theorem Machine.Launched.steady {files : Files}
    (h : m.Launched P argv dir (SameBut F files) fun _ => SameBut F files) :
    m.Only (fun a d => P a d ∨ a = argv ∧ d = dir) ∧ SameBut F files m.files := by
  refine ⟨h.kind, ?_⟩
  rcases h with ⟨-, hfiles⟩ | ⟨pid, hbeside⟩
  · exact hfiles
  · rcases hbeside.stage with ⟨-, hfiles⟩ | ⟨-, -, hfiles⟩
    · exact hfiles
    · exact hfiles

/-- The agent of a guest: where it runs, and how much output it keeps of a process. -/
structure Agent where
  host : Shell.Host
  dir : String
  capture : ℕ

/-- `ExecResult`, but for the duration. -/
structure ExecResult where
  exitCode : ℤ
  stdout : Shell.Bytes
  stderr : Shell.Bytes

/-- What is reported of a process that ends so. -/
def Agent.report (A : Agent) (e : Ended) : ExecResult :=
  ⟨e.status, e.stdout.take A.capture, e.stderr.take A.capture⟩

/-! ### Data in pieces -/

/-- `data[start : start + size]` for every `start` in `range(0, len(data), size)`. -/
def slices (size : ℕ) (data : Shell.Bytes) : List Shell.Bytes :=
  (List.range ((data.length + size - 1) / size)).map fun i => (data.drop (size * i)).take size

theorem length_of_mem_slices {size : ℕ} {data piece : Shell.Bytes} (h : piece ∈ slices size data) :
    piece.length ≤ size := by
  obtain ⟨i, -, rfl⟩ := List.mem_map.mp h
  exact List.length_take_le _ _

/-- The first pieces are the first bytes. -/
theorem flatten_take_slices (size : ℕ) (data : Shell.Bytes) (n : ℕ) :
    ((List.range n).map fun i => (data.drop (size * i)).take size).flatten =
      data.take (size * n) := by
  induction n with
  | zero => simp
  | succ n ih =>
    rw [List.range_succ, List.map_append, List.flatten_append, ih, List.map_singleton,
      List.flatten_singleton, Nat.mul_succ, List.take_add]

theorem flatten_slices {size : ℕ} (hsize : 0 < size) (data : Shell.Bytes) :
    (slices size data).flatten = data := by
  rw [slices, flatten_take_slices]
  refine List.take_of_length_le ?_
  have hlast := Nat.div_add_mod (data.length + size - 1) size
  have hmod := Nat.mod_lt (data.length + size - 1) hsize
  omega

/-! ### A host -/

/-- A host with `cat`, `rm` and `echo`, and nothing else. -/
def plainHost : Shell.Host where
  reserved name := name ∈ ["if", "while", "for", "case", "until"]
  reserved_cd := rfl
  reserved_exec := rfl
  special name := name ∈ ["set", "export", "exit"]
  spawn argv dir files :=
    match argv with
    | "cat" :: names =>
      match names.mapM fun name => files (resolve dir name) with
      | some contents => (⟨0, contents.flatten, []⟩, files)
      | none => (⟨1, [], []⟩, files)
    | "rm" :: "-f" :: names =>
      (⟨0, [], []⟩, fun k => if k ∈ names.map (resolve dir) then none else files k)
    | ["echo", word] => (⟨0, (word.toList.map fun c => UInt8.ofNat c.toNat) ++ [10], []⟩, files)
    | _ => (⟨127, [], []⟩, files)
  writable _ _ := true
  isDir _ _ := true
  failure := 2
  failure_ne := by decide
  complaint := []

theorem plainHost_names {name : String} (hname : name ∈ ["cat", "rm", "echo"]) :
    Shell.Names plainHost name := by
  simp only [List.mem_cons, List.not_mem_nil, or_false] at hname
  rcases hname with rfl | rfl | rfl
  · exact ⟨⟨rfl, fun h => absurd h.2 (by decide)⟩, by decide, by decide, rfl⟩
  · exact ⟨⟨rfl, fun h => absurd h.2 (by decide)⟩, by decide, by decide, rfl⟩
  · exact ⟨⟨rfl, fun h => absurd h.2 (by decide)⟩, by decide, by decide, rfl⟩

theorem plainHost_cat (names : List String) (dir : String) (files : Files) :
    plainHost.spawn ("cat" :: names) dir files =
      match names.mapM fun name => files (resolve dir name) with
      | some contents => (⟨0, contents.flatten, []⟩, files)
      | none => (⟨1, [], []⟩, files) := rfl

/-- An agent there. -/
def plainAgent : Agent := ⟨plainHost, "/root", 65536⟩

/-- Two files in a directory. -/
def deskFiles : Files := fun k =>
  if k = "/root/my docs/a.txt" then some [72, 105]
  else if k = "/root/my docs/b c.txt" then some [33] else none

theorem cat_desk {files : Files} (ha : files "/root/my docs/a.txt" = some [72, 105])
    (hb : files "/root/my docs/b c.txt" = some [33]) :
    plainHost.spawn ["cat", "a.txt", "b c.txt"] "/root/my docs" files =
      (⟨0, [72, 105, 33], []⟩, files) := by
  have hread : (["a.txt", "b c.txt"].mapM fun name => files (resolve "/root/my docs" name)) =
      some [[72, 105], [33]] := by
    have ha' : files (resolve "/root/my docs" "a.txt") = some [72, 105] := ha
    have hb' : files (resolve "/root/my docs" "b c.txt") = some [33] := hb
    simp [List.mapM_cons, ha', hb']
  rw [plainHost_cat, hread]
  rfl

end TestRange.Guest
