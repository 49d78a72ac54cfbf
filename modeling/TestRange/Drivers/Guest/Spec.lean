/-
What the drivers do with the requests that they bind to a VM.

A driver has one program each for reading a file in a guest, for writing one and for executing a
command there.  A history is any sequence of requests; each returns or raises.  A request that
raises may leave a process behind in the guest, which goes on while others are made.

* `Transport` — the requests of a driver, and what it does with them besides processes of a kind;
* `Transport.Event`, `Transport.Step` — histories;
* `Transport.only_lingering` — what may be running after a history;
* `Transport.read_brought` — what was written is read, whatever has failed in between;
* `libvirt`, `proxmox`, `esxi` — the transports of the drivers;
* `drivers_faithful` — what all of them do.
-/
import TestRange.Drivers.Guest.Esxi
import TestRange.Drivers.Guest.Libvirt
import TestRange.Drivers.Guest.Proxmox
import TestRange.Lib.Crash
import TestRange.Lib.Trace

namespace TestRange.Guest

open Shell (Files Ended resolve)

/-- The requests of a driver, bound to a VM. -/
structure Transport where
  S : Sig
  ε : Type
  W : Type
  sem : Prog.Sem S ε W
  host : Shell.Host
  machine : W → Machine
  readFile : String → Prog S ε Shell.Bytes
  writeFile : String → Shell.Bytes → Prog S ε Unit
  execute : List String → ℕ → String → Prog S ε ExecResult
  /-- The paths that a file can be written to, -/
  IsPath : String → Prop
  /-- and the commands that can be executed. -/
  IsCommand : List String → Prop
  /-- Where a file is. -/
  place : String → String
  /-- What a write may change, -/
  reach : String → Set String
  /-- and what it may still change when it has returned. -/
  rest : String → Set String
  /-- What a command may change in a directory. -/
  touches : List String → String → Set String
  place_reach : ∀ path, place path ∈ reach path
  place_rest : ∀ path, place path ∉ rest path
  rest_reach : ∀ path, rest path ⊆ reach path
  /-- A file that the processes keep off is read as it is, and reading changes nothing. -/
  reads : ∀ {P K path w}, Kind.Keeps P host K → (machine w).Only P →
    (readFile path).wp (.ofSem sem fun _ => True)
      (fun data w' => Steady P K (machine w) (machine w') ∧
        (place path ∉ K → (machine w).files (place path) = some data))
      (fun _ w' => Steady P K (machine w) (machine w')) w
  /-- A write that the processes keep off brings the data. -/
  writes : ∀ {P K path data w}, IsPath path → Kind.Keeps P host K → (machine w).Only P →
    (writeFile path data).wp (.ofSem sem fun _ => True)
      (fun _ w' => Steady (fun a d => P a d ∨ Harmless host (rest path) a d) (K ∪ reach path)
          (machine w) (machine w') ∧
        ((∀ k ∈ reach path, k ∉ K) → (machine w').files (place path) = some data))
      (fun _ w' => Steady (fun a d => P a d ∨ Harmless host (reach path) a d) (K ∪ reach path)
        (machine w) (machine w')) w
  /-- A command that returns leaves nothing running. -/
  executes : ∀ {P K argv timeout cwd w}, IsCommand argv → Kind.Keeps P host K → (machine w).Only P →
    (execute argv timeout cwd).wp (.ofSem sem fun _ => True)
      (fun _ w' => Steady P (K ∪ touches argv cwd) (machine w) (machine w'))
      (fun _ w' => Steady (fun a d => P a d ∨ Harmless host (touches argv cwd) a d)
        (K ∪ touches argv cwd) (machine w) (machine w')) w

namespace Transport

variable (B : Transport)

/-- A request, and how it ended. -/
inductive Event
  | read (path : String) (result : Option Shell.Bytes)
  | write (path : String) (data : Shell.Bytes) (returned : Bool)
  | execute (argv : List String) (timeout : ℕ) (cwd : String) (result : Option ExecResult)

/-- A run of a request. -/
def Step (w : B.W) : Event → B.W → Prop
  | .read path result, w' => ∃ tr out, Prog.Runs B.sem (B.readFile path) w tr out w' ∧
      out.toOption = result
  | .write path data returned, w' => B.IsPath path ∧ ∃ tr out,
      Prog.Runs B.sem (B.writeFile path data) w tr out w' ∧ out.toBool = returned
  | .execute argv timeout cwd result, w' => B.IsCommand argv ∧ ∃ tr out,
      Prog.Runs B.sem (B.execute argv timeout cwd) w tr out w' ∧ out.toOption = result

/-- The files that a request may change. -/
def changes : Event → Set String
  | .read _ _ => ∅
  | .write path _ _ => B.reach path
  | .execute argv _ cwd _ => B.touches argv cwd

/-- The files that it may still change when it has ended. -/
def leaves : Event → Set String
  | .read _ _ => ∅
  | .write path _ true => B.rest path
  | .write path _ false => B.reach path
  | .execute _ _ _ (some _) => ∅
  | .execute argv _ cwd none => B.touches argv cwd

/-- The files that a history may still change. -/
def lingering (tr : List Event) : Set String := {k | ∃ e ∈ tr, k ∈ B.leaves e}

variable {B} {w w' w₀ : B.W} {tr : List Event} {e : Event} {path : String} {data : Shell.Bytes}
  {K : Set String} {P : Kind}

theorem leaves_changes (e : Event) : B.leaves e ⊆ B.changes e := by
  cases e with
  | read path result => exact subset_rfl
  | write path data returned =>
    cases returned with
    | true => exact B.rest_reach path
    | false => exact subset_rfl
  | execute argv timeout cwd result =>
    cases result with
    | some r => exact Set.empty_subset _
    | none => exact subset_rfl

/-- **What a request does besides processes of a kind.** -/
theorem Step.steady (h : B.Step w e w') (hP : P.Keeps B.host K) (honly : (B.machine w).Only P) :
    Steady (fun a d => P a d ∨ Harmless B.host (B.leaves e) a d) (K ∪ B.changes e) (B.machine w)
      (B.machine w') := by
  have hmono {F : Set String} (hs : Steady P F (B.machine w) (B.machine w')) (hF : F ⊆ K ∪ B.changes e) :
      Steady (fun a d => P a d ∨ Harmless B.host (B.leaves e) a d) (K ∪ B.changes e) (B.machine w)
        (B.machine w') := hs.mono (fun _ _ => .inl) hF
  cases e with
  | read path result =>
    obtain ⟨tr, out, hrun, -⟩ := h
    have hwp := Prog.runs_of_wp (B.reads hP honly) hrun
    rcases out with x | data
    · exact hmono (hwp.2 x rfl) Set.subset_union_left
    · exact hmono (hwp.1 data rfl).1 Set.subset_union_left
  | write path data returned =>
    obtain ⟨hpath, tr, out, hrun, rfl⟩ := h
    have hwp := Prog.runs_of_wp (B.writes hpath hP honly) hrun
    rcases out with x | u
    · exact hwp.2 x rfl
    · exact (hwp.1 u rfl).1
  | execute argv timeout cwd result =>
    obtain ⟨hargv, tr, out, hrun, rfl⟩ := h
    have hwp := Prog.runs_of_wp (B.executes hargv hP honly) hrun
    rcases out with x | res
    · exact hwp.2 x rfl
    · exact hmono (hwp.1 res rfl) subset_rfl

/-- What may be running after a history keeps to the files that are lingering. -/
theorem only_lingering (hquiet : (B.machine w₀).Quiet) (hrun : Trace.Run B.Step w₀ tr w) :
    (B.machine w).Only (Harmless B.host (B.lingering tr)) := by
  refine hrun.keeps (P := fun tr w => (B.machine w).Only (Harmless B.host (B.lingering tr))) ?_ ?_
  · exact hquiet.mono fun _ _ h => h.elim
  · intro tr w e w' honly hstep
    refine (hstep.steady (harmless_keeps _ _) honly).only.mono fun a d h => ?_
    rcases h with h | h
    · exact h.mono fun k ⟨e', he', hk⟩ => ⟨e', List.mem_append_left _ he', hk⟩
    · exact h.mono fun k hk => ⟨e, List.mem_append_right _ (List.mem_singleton_self e), hk⟩

/-- A write of `data` has returned that nothing left running could reach, and no request since could
change the file. -/
def Brought (B : Transport) (tr : List Event) (path : String) (data : Shell.Bytes) : Prop :=
  ∃ tr₁ tr₂, tr = tr₁ ++ .write path data true :: tr₂ ∧
    (∀ k ∈ B.reach path, k ∉ B.lingering tr₁) ∧ ∀ e ∈ tr₂, B.place path ∉ B.changes e

theorem Brought.place_lingering (h : B.Brought tr path data) : B.place path ∉ B.lingering tr := by
  obtain ⟨tr₁, tr₂, rfl, hapart, hlater⟩ := h
  rintro ⟨e, he, hk⟩
  rcases List.mem_append.mp he with he | he
  · exact hapart _ (B.place_reach path) ⟨e, he, hk⟩
  · rcases List.mem_cons.mp he with rfl | he
    · exact B.place_rest path hk
    · exact hlater e he (leaves_changes e hk)

/-- What was brought is there. -/
theorem file_of_brought (hquiet : (B.machine w₀).Quiet) (hrun : Trace.Run B.Step w₀ tr w)
    (h : B.Brought tr path data) : (B.machine w).files (B.place path) = some data := by
  have hplace := h.place_lingering
  obtain ⟨tr₁, tr₂, rfl, hapart, hlater⟩ := h
  -- Up to the write, and from then on one request at a time.
  suffices H : ∀ tr₃, tr₃ <+: tr₂ → ∀ w, Trace.Run B.Step w₀ (tr₁ ++ .write path data true :: tr₃) w →
      (B.machine w).files (B.place path) = some data from H tr₂ (List.prefix_refl tr₂) w hrun
  intro tr₃
  induction tr₃ using List.reverseRecOn with
  | nil =>
    intro _ w hrun
    obtain ⟨w₁, hrun₁, hstep⟩ := hrun.last
    obtain ⟨hpath, tr', out, hout, hreturned⟩ := hstep
    have hwp := Prog.runs_of_wp (B.writes hpath (harmless_keeps _ _)
      (only_lingering hquiet hrun₁)) hout
    rcases out with x | u
    · cases hreturned
    · exact (hwp.1 u rfl).2 hapart
  | append_singleton tr₃ e ih =>
    intro hinit w hrun
    rw [← List.cons_append, ← List.append_assoc] at hrun
    obtain ⟨w₁, hrun₁, hstep⟩ := hrun.last
    have hsub : tr₃ <+: tr₂ := (List.prefix_append tr₃ [e]).trans hinit
    have hfile := ih hsub w₁ hrun₁
    have hsteady := hstep.steady (harmless_keeps _ _) (only_lingering hquiet hrun₁)
    rw [hsteady.files _ ?_, hfile]
    rintro (⟨e', he', hk⟩ | hk)
    · refine hplace ⟨e', ?_, hk⟩
      refine List.mem_append.mpr ((List.mem_append.mp he').imp_right fun hmem => ?_)
      exact (List.mem_cons.mp hmem).elim (fun heq => by simp [heq])
        fun hmem => List.mem_cons_of_mem _ (hsub.subset hmem)
    · exact hlater e (hinit.subset (by simp)) hk

/-- **A file that is read after it was written** is what was written. -/
theorem read_of_brought {result : Shell.Bytes} (hquiet : (B.machine w₀).Quiet)
    (hrun : Trace.Run B.Step w₀ tr w) (h : B.Brought tr path data)
    (hread : B.Step w (.read path (some result)) w') : result = data := by
  obtain ⟨tr', out, hout, hresult⟩ := hread
  have hwp := Prog.runs_of_wp (B.reads (harmless_keeps _ _)
    (only_lingering hquiet hrun)) hout
  rcases out with x | found
  · cases hresult
  · cases hresult
    have hfile := (hwp.1 _ rfl).2 h.place_lingering
    rw [file_of_brought hquiet hrun h] at hfile
    exact (Option.some.inj hfile).symm

/-- Files that no request of a history may change are as they were. -/
theorem untouched {k : String} (hquiet : (B.machine w₀).Quiet) (hrun : Trace.Run B.Step w₀ tr w)
    (hk : ∀ e ∈ tr, k ∉ B.changes e) : (B.machine w).files k = (B.machine w₀).files k := by
  induction hrun with
  | start => rfl
  | @step tr w w' e hrun hstep ih =>
    have hsteady := hstep.steady (harmless_keeps _ _) (only_lingering hquiet hrun)
    rw [hsteady.files k ?_, ih fun e' he' => hk e' (List.mem_append_left _ he')]
    rintro (⟨e', he', hleaves⟩ | hchanges)
    · exact hk e' (List.mem_append_left _ he') (leaves_changes e' hleaves)
    · exact hk e (List.mem_append_right _ (List.mem_singleton_self e)) hchanges

/-- After every history that began with nothing running: what was written and left alone is there and
is what is read, and a file that no request could change is as it was. -/
def Faithful (B : Transport) : Prop :=
  ∀ w₀ tr w, (B.machine w₀).Quiet → Trace.Run B.Step w₀ tr w →
    (∀ path data, B.Brought tr path data → (B.machine w).files (B.place path) = some data ∧
      ∀ result w', B.Step w (.read path (some result)) w' → result = data) ∧
    ∀ k, (∀ e ∈ tr, k ∉ B.changes e) → (B.machine w).files k = (B.machine w₀).files k

theorem faithful (B : Transport) : B.Faithful := by
  intro w₀ tr w hquiet hrun
  refine ⟨fun path data hbrought => ⟨file_of_brought hquiet hrun hbrought, ?_⟩,
    fun k hk => untouched hquiet hrun hk⟩
  intro result w' hread
  exact read_of_brought hquiet hrun hbrought hread

end Transport

/-! ### The drivers -/

/-- A guest with an agent in it, whose utilities do what they are for. -/
structure System where
  agent : Agent
  coreutils : Pve.Coreutils agent.host
  echoes : Esxi.Echoes agent.host

variable (G : System) (T : Trust) (vm : String)

/-- The files that a process may change. -/
def footprint (host : Shell.Host) (argv : List String) (dir : String) : Set String :=
  {k | ∃ files e files', Ends host argv dir files e files' ∧ files' k ≠ files k}

theorem harmless_footprint (host : Shell.Host) (argv : List String) (dir : String) :
    Harmless host (footprint host argv dir) argv dir := by
  intro files e files' hends k hk
  by_contra hne
  exact hk ⟨files, e, files', hends, hne⟩

/-- The files that a utility may change. -/
def spawnFootprint (host : Shell.Host) (argv : List String) (dir : String) : Set String :=
  {k | ∃ files, (host.spawn argv dir files).2 k ≠ files k}

/-- The transport of the libvirt driver, where the loop that reads a file has some fuel. -/
def libvirt (fuel : ℕ) : Transport where
  S := Lv.sig
  ε := Lv.Fault
  W := Lv.World
  sem := Lv.sem G.agent T
  host := G.agent.host
  machine := Lv.World.machine
  readFile := Lv.readFile fuel vm
  writeFile := Lv.writeFile vm
  execute argv timeout _ := Lv.execute vm argv timeout
  IsPath _ := True
  IsCommand _ := True
  place := resolve G.agent.dir
  reach path := {resolve G.agent.dir path}
  rest _ := ∅
  touches argv _ := footprint G.agent.host argv G.agent.dir
  place_reach _ := rfl
  place_rest _ := Set.notMem_empty _
  rest_reach _ := Set.empty_subset _
  reads {P K path w} hP honly := by
    by_cases hapart : resolve G.agent.dir path ∈ K
    · exact Prog.wp_mono (fun _ _ h => ⟨h, fun h' => absurd hapart h'⟩) (fun _ _ h => h)
        (Lv.readFile_keeps fuel vm path hP honly)
    · exact Prog.wp_mono (fun _ _ h => ⟨h.2.1, fun _ => h.1⟩) (fun _ _ h => h.2.1)
        (Lv.readFile_wp hP hapart honly)
  writes _ hP honly :=
    Prog.wp_mono (fun _ _ h => ⟨h.1.mono (fun _ _ => .inl) subset_rfl, fun hapart => h.2.1 (hapart _ rfl)⟩)
      (fun _ _ h => h.2.2.1.mono (fun _ _ => .inl) subset_rfl) (Lv.writeFile_wp hP honly)
  executes _ hP honly := Lv.execute_keeps hP (harmless_footprint _ _ _) honly

/-- The transport of the Proxmox driver. -/
def proxmox : Transport where
  S := Pve.sig
  ε := Pve.Fault
  W := Pve.World
  sem := Pve.sem G.agent T
  host := G.agent.host
  machine := Pve.World.machine
  readFile := Pve.readFile vm
  writeFile := Pve.writeFile vm
  execute argv timeout _ := Pve.execute vm argv timeout
  IsPath := Pve.Usable
  IsCommand _ := True
  place := resolve G.agent.dir
  reach path := {k | k = resolve G.agent.dir path ∨ ∃ n, k = resolve G.agent.dir (Pve.partName path n)}
  rest path := {k | ∃ n, k = resolve G.agent.dir (Pve.partName path n)}
  touches argv _ := footprint G.agent.host argv G.agent.dir
  place_reach _ := .inl rfl
  place_rest path := by
    rintro ⟨n, heq⟩
    exact Pve.resolve_partName_ne _ _ n heq.symm
  rest_reach _ := fun _ => .inr
  reads hP honly := Prog.wp_mono (fun _ _ h => h) (fun _ _ h => h.2.1) (Pve.readFile_wp hP honly)
  writes {P K path data w} hpath hP honly := by
    have hreach : Pve.reach G.agent path (Pve.partCount data) ⊆
        {k | k = resolve G.agent.dir path ∨ ∃ n, k = resolve G.agent.dir (Pve.partName path n)} := by
      rintro k (hk | ⟨n, -, hk⟩)
      · exact .inl hk
      · exact .inr ⟨n, hk⟩
    refine Prog.wp_mono (fun _ w' h => ⟨h.1.mono (fun a d h => h.imp_right fun h => h.mono ?_)
      (Set.union_subset_union_right K hreach), fun hapart => (h.2 ⟨?_, fun n => ?_⟩).1⟩)
      (fun _ w' h => h.1.mono (fun a d h => h.imp_right fun h => h.mono hreach)
        (Set.union_subset_union_right K hreach))
      (Pve.writeFile_wp G.coreutils hpath hP honly)
    · exact hapart _ (.inl rfl)
    · exact hapart _ (.inr ⟨n, rfl⟩)
    · rintro k ⟨n, -, hk⟩
      exact ⟨n, hk⟩
  executes _ hP honly := Pve.execute_keeps hP (harmless_footprint _ _ _) honly

/-- The transport of the ESXi driver. -/
def esxi : Transport where
  S := Esxi.sig
  ε := Esxi.Fault
  W := Esxi.World
  sem := Esxi.sem G.agent T
  host := G.agent.host
  machine := Esxi.World.machine
  readFile := Esxi.readFile vm
  writeFile := Esxi.writeFile vm
  execute := Esxi.execute vm
  IsPath _ := True
  IsCommand argv := ∃ name args, argv = name :: args ∧ Esxi.Runnable G.agent.host name args
  place := resolve G.agent.dir
  reach path := {resolve G.agent.dir path}
  rest _ := ∅
  touches argv cwd := spawnFootprint G.agent.host argv (Esxi.workDir G.agent cwd) ∪ Esxi.allTemps
  place_reach _ := rfl
  place_rest _ := Set.notMem_empty _
  rest_reach _ := Set.empty_subset _
  reads hP honly := Prog.wp_mono (fun _ _ h => h) (fun _ _ h => h.2.1) (Esxi.readFile_wp hP honly)
  writes _ hP honly :=
    Prog.wp_mono (fun _ _ h => ⟨h.1.mono (fun _ _ => .inl) subset_rfl, fun _ => h.2⟩)
      (fun _ _ h => h.2.2.mono (fun _ _ => .inl) subset_rfl) (Esxi.writeFile_wp hP honly)
  executes {P K argv timeout cwd w} hargv hP honly := by
    obtain ⟨name, args, rfl, hrun⟩ := hargv
    refine Esxi.execute_keeps G.echoes hrun hP (fun files k hk => ?_) honly
    by_contra hne
    exact hk ⟨files, hne⟩

/-- The drivers that talk to an agent in the guest. -/
inductive Driver
  | libvirt (fuel : ℕ)
  | proxmox
  | esxi

/-- What a driver binds to a VM. -/
def Driver.transport : Driver → Transport
  | .libvirt fuel => Guest.libvirt G T vm fuel
  | .proxmox => Guest.proxmox G T vm
  | .esxi => Guest.esxi G T vm

/-- **Every driver keeps to what was written in a guest**, whatever requests fail in between, and
whatever those leave running. -/
theorem drivers_faithful (d : Driver) : (d.transport G T vm).Faithful := (d.transport G T vm).faithful

/-- A guest with an agent in it. -/
def plainSystem : System := ⟨plainAgent, Pve.plainHost_coreutils, Esxi.plainHost_echoes⟩

/-- What is there when the file has been written. -/
def motdWorld : Pve.World :=
  ⟨⟨Function.update (fun _ => none) "/etc/motd" (some [72, 105, 255]), fun _ => none⟩, 0⟩

theorem run_motd : Prog.Runs (Pve.sem plainAgent ⟨False, False⟩)
    (Pve.writeFile "vm" "/etc/motd" [72, 105, 255]) Pve.bareWorld
    [⟨.fileWrite "/etc/motd" (Base64.encode [72, 105, 255]), .ok ()⟩] (.ok ()) motdWorld := by
  have hsem : Pve.sem plainAgent ⟨False, False⟩ (.fileWrite "/etc/motd" (Base64.encode [72, 105, 255]))
      Pve.bareWorld (.ok ()) motdWorld :=
    ⟨⟨Pve.bareWorld.machine, .refl, ⟨by decide, _, rfl, rfl⟩, rfl⟩, Nat.le_refl 0, fun _ h => by cases h⟩
  exact .call hsem (.ret () motdWorld)

/-- A file that is there, and is read, after it was written. -/
theorem drivers_faithful_plain :
    motdWorld.machine.files (resolve plainAgent.dir "/etc/motd") = some [72, 105, 255] ∧
      ∀ result w', (proxmox plainSystem ⟨False, False⟩ "vm").Step motdWorld
        (.read "/etc/motd" (some result)) w' → result = [72, 105, 255] := by
  have hwrite : (proxmox plainSystem ⟨False, False⟩ "vm").Step Pve.bareWorld
      (.write "/etc/motd" [72, 105, 255] true) motdWorld :=
    ⟨⟨by decide, by decide⟩, _, _, run_motd, rfl⟩
  have hfaithful := drivers_faithful plainSystem ⟨False, False⟩ "vm" .proxmox Pve.bareWorld _
    motdWorld (fun _ _ _ h => by cases h) (.step .start hwrite)
  refine hfaithful.1 "/etc/motd" [72, 105, 255] ⟨[], [], rfl, ?_, ?_⟩
  · rintro k - ⟨e, he, -⟩
    cases he
  · intro e he
    cases he

end TestRange.Guest
