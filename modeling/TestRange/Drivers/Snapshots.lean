/-
Snapshots of a VM, as the drivers take them and go back to them.

The three drivers do this alike, each over the calls of its hypervisor: a name is looked for before
anything is asked for under it, libvirt by a lookup, PVE in a listing that has the live state among
the snapshots, and ESXi in a tree.

* `Driver.createSnapshot`, `Driver.listSnapshots`, `Driver.deleteSnapshot`,
  `Driver.restoreSnapshot` — what they have in common;
* `Does` — what comes of a request, said of a VM and its snapshots;
* `Backend` — a driver with a hypervisor that does as `Does` says; `Backend.does` — a request;
* `Libvirt.backend`, `Proxmox.backend`, `Esxi.backend` — the three of them;
* `snapshots_kept` — a snapshot that was taken is there until it is deleted, and what it holds is
  what the VM goes back to;
* `snapshots_gone` — and then it is not.
-/
import TestRange.Lib.BigStep
import TestRange.Lib.Crash
import TestRange.Lib.Trace
import Mathlib.Data.List.Nodup
import Mathlib.Logic.Relation

namespace TestRange.Snapshots

/-! ### Requests -/

/-- What is raised: `DriverError` by what is wrong, and what a hypervisor raises. -/
inductive Fault
  | notRunning (vm : String)
  | duplicate (name vm : String)
  | absent (name vm : String)
  /-- `VIR_ERR_NO_DOMAIN_SNAPSHOT` -/
  | noDomainSnapshot
  /-- `can't lock file ... got timeout` -/
  | locked
  | other

/-- It comes from the hypervisor. -/
def Fault.Foreign (x : Fault) : Prop := x = .noDomainSnapshot ∨ x = .locked ∨ x = .other

theorem Fault.Foreign.ne_duplicate {x : Fault} (h : x.Foreign) (name vm : String) :
    x ≠ .duplicate name vm := by
  rcases h with rfl | rfl | rfl
  · exact fun h => by cases h
  · exact fun h => by cases h
  · exact fun h => by cases h

/-- The calls of a driver, where `H` is what it holds of a snapshot. -/
structure Driver (S : Sig) (H : Type) where
  resolve : String → Prog S Fault Unit
  isRunning : String → Prog S Fault Bool
  names : Prog S Fault (List String)
  find : String → Prog S Fault (Option H)
  create : String → String → Bool → Prog S Fault Unit
  remove : H → Prog S Fault Unit
  revert : H → Prog S Fault Unit

section
variable {S : Sig} {H : Type}

/-- A snapshot with memory is one of a VM that runs. -/
def Driver.requireRunning (d : Driver S H) (vm : String) (mem : Bool) : Prog S Fault Unit := do
  if mem then
    if ← d.isRunning vm then pure () else throw (.notRunning vm)
  else pure ()

/-- `create_snapshot` -/
def Driver.createSnapshot (d : Driver S H) (vm name description : String) (mem : Bool) :
    Prog S Fault Unit := do
  d.resolve vm
  d.requireRunning vm mem
  match ← d.find name with
  | some _ => throw (.duplicate name vm)
  | none => d.create name description mem

/-- `list_snapshots` -/
def Driver.listSnapshots (d : Driver S H) (vm : String) : Prog S Fault (List String) := do
  d.resolve vm
  d.names

/-- `delete_snapshot` -/
def Driver.deleteSnapshot (d : Driver S H) (vm name : String) : Prog S Fault Unit := do
  d.resolve vm
  match ← d.find name with
  | some h => d.remove h
  | none => pure ()

/-- `restore_snapshot` -/
def Driver.restoreSnapshot (d : Driver S H) (vm name : String) : Prog S Fault Unit := do
  d.resolve vm
  match ← d.find name with
  | some h => d.revert h
  | none => throw (.absent name vm)

end

/-! ### A VM and its snapshots -/

/-- What a VM is in: its disks, and its memory while it runs. -/
structure Live (D M : Type) where
  disk : D
  ram : Option M

/-- What a listing says of a snapshot. -/
structure Listed where
  name : String
  time : Option ℕ

/-- When it was taken, for the order. -/
def Listed.createTime (l : Listed) : ℕ := l.time.getD 0

/-- A snapshot, and what it holds. -/
structure Snap (D M : Type) extends Listed where
  saved : Live D M

structure Vm (D M : Type) where
  live : Live D M
  snaps : List (Snap D M)

variable {D M : Type} {guest : Live D M → Live D M → Prop}
  {captures : Bool → Live D M → Live D M}

def Vm.names (v : Vm D M) : List String := v.snaps.map (·.name)

/-- The names by time. -/
def oldestFirst (l : List Listed) : List String :=
  (l.mergeSort fun a b => decide (a.createTime ≤ b.createTime)).map (·.name)

/-- No snapshot is called so. -/
def Vm.Fresh (v : Vm D M) (name : String) : Prop := ∀ s ∈ v.snaps, s.name ≠ name

variable (guest) in
/-- The guest runs on. -/
def Runs (l l' : Live D M) : Prop := Relation.ReflTransGen guest l l'

variable (guest) in
/-- The snapshots are as they were. -/
def Same (v v' : Vm D M) : Prop := v'.snaps.Perm v.snaps ∧ Runs guest v.live v'.live

variable (guest) in
/-- Meanwhile it was seen to run. -/
def Ran (l l' : Live D M) : Prop :=
  ∃ m, Runs guest l m ∧ m.ram.isSome = true ∧ Runs guest m l'

variable (guest captures) in
/-- One was taken, of what the VM had come to. -/
def Added (name : String) (mem : Bool) (v v' : Vm D M) : Prop :=
  ∃ s l, s.name = name ∧ s.saved = captures mem l ∧ Runs guest v.live l ∧ Runs guest l v'.live ∧
    v'.snaps.Perm (s :: v.snaps)

variable (guest) in
/-- One has gone. -/
def Removed (name : String) (v v' : Vm D M) : Prop :=
  ∃ s, s.name = name ∧ v.snaps.Perm (s :: v'.snaps) ∧ Runs guest v.live v'.live

variable (guest) in
/-- The VM went back to one, and has run on from there. -/
def Reverted (name : String) (v v' : Vm D M) : Prop :=
  ∃ s ∈ v.snaps, s.name = name ∧ Runs guest s.saved v'.live ∧ v'.snaps.Perm v.snaps

/-- The snapshots are these, by time. -/
def Lists (names : List String) (v : Vm D M) : Prop :=
  ∃ l : List Listed, l.Perm (v.snaps.map (·.toListed)) ∧
    l.Pairwise (·.createTime ≤ ·.createTime) ∧ names = l.map (·.name)

/-- What a driver is asked for, and what has come of it. -/
inductive Event
  | create (name : String) (mem : Bool) (out : Except Fault Unit)
  | delete (name : String) (out : Except Fault Unit)
  | restore (name : String) (out : Except Fault Unit)
  | list (out : Except Fault (List String))
  /-- Time goes by. -/
  | guest

variable (guest captures) in
/-- What comes of a request. -/
inductive Does : Vm D M → Event → Vm D M → Prop
  | created {v v₁ v₂ : Vm D M} {name : String} {mem : Bool} (hsame : Same guest v v₁)
      (hran : mem = true → Ran guest v.live v₁.live) (hfresh : v₁.Fresh name)
      (h : Added guest captures name mem v₁ v₂) : Does v (.create name mem (.ok ())) v₂
  /-- It was taken, and then something went wrong. -/
  | createdFailed {v v₁ : Vm D M} {name : String} {mem : Bool} {x : Fault} (hx : x.Foreign)
      (hfresh : v.Fresh name)
      (h : Added guest captures name mem v v₁) : Does v (.create name mem (.error x)) v₁
  | notCreated {v v₁ : Vm D M} {name : String} {mem : Bool} {x : Fault}
      (hx : x.Foreign ∨ (∃ vm, x = .notRunning vm) ∨ ¬ v.Fresh name) (h : Same guest v v₁) :
      Does v (.create name mem (.error x)) v₁
  | deleted {v v₁ : Vm D M} {name : String} {out : Except Fault Unit}
      (h : Removed guest name v v₁) : Does v (.delete name out) v₁
  | notDeleted {v v₁ : Vm D M} {name : String} {out : Except Fault Unit}
      (hfresh : out = .ok () → v.Fresh name)
      (h : Same guest v v₁) : Does v (.delete name out) v₁
  | restored {v v₁ : Vm D M} {name : String} (h : Reverted guest name v v₁) :
      Does v (.restore name (.ok ())) v₁
  /-- What the VM is in then is not known. -/
  | restoreFailed {v v₁ : Vm D M} {name : String} {x : Fault} (hx : x.Foreign ∨ v.Fresh name)
      (h : v₁.snaps.Perm v.snaps) :
      Does v (.restore name (.error x)) v₁
  | listed {v v₁ : Vm D M} {names : List String} (hnames : Lists names v₁) (h : Same guest v v₁) :
      Does v (.list (.ok names)) v₁
  | notListed {v v₁ : Vm D M} {x : Fault} (h : Same guest v v₁) : Does v (.list (.error x)) v₁
  | guest {v v₁ : Vm D M} (h : Same guest v v₁) : Does v .guest v₁

variable {v v₁ v₂ : Vm D M} {name : String} {mem : Bool}

theorem Same.refl (v : Vm D M) : Same guest v v := ⟨.rfl, .refl⟩

theorem Same.trans (h₁ : Same guest v v₁) (h₂ : Same guest v₁ v₂) : Same guest v v₂ :=
  ⟨h₂.1.trans h₁.1, h₁.2.trans h₂.2⟩

theorem Vm.Fresh.perm (h : v.Fresh name) (hperm : v₁.snaps.Perm v.snaps) : v₁.Fresh name :=
  fun s hs => h s (hperm.mem_iff.mp hs)

theorem Same.fresh (h : Same guest v v₁) (hfresh : v₁.Fresh name) : v.Fresh name :=
  hfresh.perm h.1.symm

theorem Added.after (h : Same guest v v₁) (hadded : Added guest captures name mem v₁ v₂) :
    Added guest captures name mem v v₂ := by
  obtain ⟨s, l, hname, hsaved, hbefore, hafter, hperm⟩ := hadded
  exact ⟨s, l, hname, hsaved, h.2.trans hbefore, hafter, hperm.trans (h.1.cons s)⟩

theorem Removed.after (h : Same guest v v₁) (hremoved : Removed guest name v₁ v₂) :
    Removed guest name v v₂ := by
  obtain ⟨s, hname, hperm, hruns⟩ := hremoved
  exact ⟨s, hname, h.1.symm.trans hperm, h.2.trans hruns⟩

theorem Reverted.after (h : Same guest v v₁) (hreverted : Reverted guest name v₁ v₂) :
    Reverted guest name v v₂ := by
  obtain ⟨s, hs, hname, hruns, hperm⟩ := hreverted
  exact ⟨s, h.1.mem_iff.mp hs, hname, hruns, hperm.trans h.1⟩

theorem names_perm (h : v₁.snaps.Perm v.snaps) : v₁.names.Perm v.names := h.map _

theorem Vm.Fresh.not_mem (h : v.Fresh name) : name ∉ v.names := by
  intro hmem
  obtain ⟨s, hs, hname⟩ := List.mem_map.mp hmem
  exact h s hs hname

/-- What a request does to the snapshots: one is taken under its name, one of its name goes, or they
are as they were. -/
theorem Does.snaps {e : Event} (h : Does guest captures v e v₁) :
    v₁.snaps.Perm v.snaps ∨
      (∃ s mem out, e = .create s.name mem out ∧ v.Fresh s.name ∧ v₁.snaps.Perm (s :: v.snaps)) ∨
      ∃ s out, e = .delete s.name out ∧ v.snaps.Perm (s :: v₁.snaps) := by
  cases h with
  | created hsame _ hfresh h =>
    obtain ⟨s, l, rfl, -, -, -, hperm⟩ := h
    exact .inr (.inl ⟨s, _, _, rfl, hsame.fresh hfresh, hperm.trans (hsame.1.cons s)⟩)
  | createdFailed _ hfresh h =>
    obtain ⟨s, l, rfl, -, -, -, hperm⟩ := h
    exact .inr (.inl ⟨s, _, _, rfl, hfresh, hperm⟩)
  | deleted h =>
    obtain ⟨s, rfl, hperm, -⟩ := h
    exact .inr (.inr ⟨s, _, rfl, hperm⟩)
  | restored h =>
    obtain ⟨-, -, -, -, hperm⟩ := h
    exact .inl hperm
  | restoreFailed _ hperm => exact .inl hperm
  | notCreated _ h => exact .inl h.1
  | notDeleted _ h => exact .inl h.1
  | listed _ h => exact .inl h.1
  | notListed h => exact .inl h.1
  | guest h => exact .inl h.1

/-- No two snapshots are called the same. -/
theorem Does.nodup {e : Event} (h : Does guest captures v e v₁) (hnodup : v.names.Nodup) :
    v₁.names.Nodup := by
  rcases h.snaps with hperm | ⟨s, mem, out, -, hfresh, hperm⟩ | ⟨s, out, -, hperm⟩
  · exact (names_perm hperm).nodup_iff.mpr hnodup
  · have hnames : v₁.names.Perm (s.name :: v.names) := hperm.map _
    exact hnames.nodup_iff.mpr (List.nodup_cons.mpr ⟨hfresh.not_mem, hnodup⟩)
  · have hnames : v.names.Perm (s.name :: v₁.names) := hperm.map _
    exact (List.nodup_cons.mp (hnames.nodup_iff.mp hnodup)).2

/-- A snapshot of this name holds this. -/
def Holds (v : Vm D M) (name : String) (saved : Live D M) : Prop :=
  ∃ s ∈ v.snaps, s.name = name ∧ s.saved = saved

variable {saved : Live D M}

theorem Holds.perm (h : Holds v name saved) (hperm : v₁.snaps.Perm v.snaps) :
    Holds v₁ name saved := by
  obtain ⟨s, hs, hname, hsaved⟩ := h
  exact ⟨s, hperm.mem_iff.mpr hs, hname, hsaved⟩

theorem Added.holds (h : Added guest captures name mem v v₁) :
    ∃ l, Runs guest v.live l ∧ Runs guest l v₁.live ∧ Holds v₁ name (captures mem l) := by
  obtain ⟨s, l, hname, hsaved, hbefore, hafter, hperm⟩ := h
  exact ⟨l, hbefore, hafter, s, hperm.mem_iff.mpr List.mem_cons_self, hname, hsaved⟩

/-- It is there until it is deleted. -/
theorem Does.holds {e : Event} (h : Does guest captures v e v₁)
    (hkept : ∀ out, e ≠ .delete name out) (hholds : Holds v name saved) : Holds v₁ name saved := by
  obtain ⟨t, ht, rfl, hsaved⟩ := hholds
  rcases h.snaps with hperm | ⟨s, mem, out, -, -, hperm⟩ | ⟨s, out, rfl, hperm⟩
  · exact ⟨t, hperm.mem_iff.mpr ht, rfl, hsaved⟩
  · exact ⟨t, hperm.mem_iff.mpr (List.mem_cons_of_mem _ ht), rfl, hsaved⟩
  · rcases List.mem_cons.mp (hperm.mem_iff.mp ht) with rfl | ht
    · exact absurd rfl (hkept out)
    · exact ⟨t, ht, rfl, hsaved⟩

/-- One name is one snapshot. -/
theorem Holds.unique {s : Snap D M} (h : Holds v name saved) (hnodup : v.names.Nodup)
    (hs : s ∈ v.snaps) (hname : s.name = name) : s.saved = saved := by
  obtain ⟨t, ht, htname, rfl⟩ := h
  rw [List.inj_on_of_nodup_map hnodup hs ht (hname.trans htname.symm)]

theorem Holds.not_fresh (h : Holds v name saved) : ¬ v.Fresh name := by
  obtain ⟨s, hs, hname, -⟩ := h
  exact fun hfresh => hfresh s hs hname

theorem Lists.perm {names : List String} (h : Lists names v) : names.Perm v.names := by
  obtain ⟨l, hperm, -, rfl⟩ := h
  have hnames := hperm.map (·.name)
  rwa [List.map_map] at hnames

theorem Lists.mem_names {names : List String} (h : Lists names v) :
    name ∈ names ↔ name ∈ v.names := h.perm.mem_iff

theorem Lists.nodup {names : List String} (h : Lists names v) (hnodup : v.names.Nodup) :
    names.Nodup := h.perm.nodup_iff.mpr hnodup

theorem Holds.listed {names : List String} (h : Holds v name saved) (hnames : Lists names v) :
    name ∈ names := by
  obtain ⟨s, hs, hname, -⟩ := h
  exact hnames.mem_names.mpr (List.mem_map.mpr ⟨s, hs, hname⟩)

/-- A snapshot that was deleted is gone, -/
theorem Does.gone (h : Does guest captures v (.delete name (.ok ())) v₁) (hnodup : v.names.Nodup) :
    v₁.Fresh name := by
  cases h with
  | deleted h =>
    obtain ⟨t, rfl, hperm, -⟩ := h
    have hnames : v.names.Perm (t.name :: v₁.names) := hperm.map _
    have hnone := (List.nodup_cons.mp (hnames.nodup_iff.mp hnodup)).1
    exact fun s hs hname => hnone (List.mem_map.mpr ⟨s, hs, hname⟩)
  | notDeleted hfresh h => exact (hfresh rfl).perm h.1

/-- and stays so until its name is taken again. -/
theorem Does.fresh {e : Event} (h : Does guest captures v e v₁)
    (hgone : ∀ mem out, e ≠ .create name mem out) (hfresh : v.Fresh name) : v₁.Fresh name := by
  rcases h.snaps with hperm | ⟨s, mem, out, rfl, -, hperm⟩ | ⟨s, out, -, hperm⟩
  · exact hfresh.perm hperm
  · intro t ht
    rcases List.mem_cons.mp (hperm.mem_iff.mp ht) with rfl | ht
    · rintro rfl
      exact hgone mem out rfl
    · exact hfresh t ht
  · exact fun t ht => hfresh t (hperm.mem_iff.mpr (List.mem_cons_of_mem _ ht))

/-- What is to be said of requests under a name that no snapshot has. -/
def Refuses (name : String) : Event → Prop
  | .restore n (.ok _) => n ≠ name
  | .list (.ok names) => name ∉ names
  | .create n _ (.error x) => n = name → ∀ vm, x ≠ .duplicate name vm
  | _ => True

theorem Does.refuses {e : Event} (h : Does guest captures v e v₁) (hfresh : v.Fresh name) :
    Refuses name e := by
  cases h with
  | restored h =>
    rintro rfl
    obtain ⟨s, hs, hname, -, -⟩ := h
    exact hfresh s hs hname
  | listed hnames h => exact fun hmem => (hfresh.perm h.1).not_mem (hnames.mem_names.mp hmem)
  | created => trivial
  | createdFailed hx _ _ =>
    rintro rfl
    exact hx.ne_duplicate _
  | notCreated hx _ =>
    rintro rfl vm
    rcases hx with hx | ⟨vm', rfl⟩ | hmem
    · exact hx.ne_duplicate _ vm
    · exact fun h => by cases h
    · exact absurd hfresh hmem
  | deleted => trivial
  | notDeleted => trivial
  | restoreFailed => trivial
  | notListed => trivial
  | guest => trivial

/-- What is to be said of requests under the name of a snapshot that is there. -/
def Serves (guest : Live D M → Live D M → Prop) (name : String) (saved : Live D M) (v' : Vm D M) :
    Event → Prop
  | .restore n (.ok _) => n = name → Runs guest saved v'.live
  | .restore n (.error x) => n = name → x.Foreign
  | .create n _ (.ok _) => n ≠ name
  | .list (.ok names) => name ∈ names ∧ names.Nodup ∧ Lists names v'
  | _ => True

/-- What a snapshot was taken of. -/
theorem Does.taken (h : Does guest captures v (.create name mem (.ok ())) v₁) :
    ∃ l, Runs guest v.live l ∧ (mem = true → Ran guest v.live l) ∧
      Holds v₁ name (captures mem l) := by
  cases h with
  | created hsame hran hfresh h =>
    obtain ⟨l, hbefore, -, hholds⟩ := h.holds
    refine ⟨l, hsame.2.trans hbefore, fun hmem => ?_, hholds⟩
    obtain ⟨m, hm, hram, hafter⟩ := hran hmem
    exact ⟨m, hm, hram, hafter.trans hbefore⟩

theorem Does.serves {e : Event} (h : Does guest captures v e v₁) (hnodup : v.names.Nodup)
    (hholds : Holds v name saved) : Serves guest name saved v₁ e := by
  cases h with
  | created hsame _ hfresh _ =>
    rintro rfl
    exact hholds.not_fresh (hsame.fresh hfresh)
  | restored h =>
    rintro rfl
    obtain ⟨s, hs, hname, hruns, -⟩ := h
    rwa [← hholds.unique hnodup hs hname]
  | restoreFailed hx _ =>
    rintro rfl
    exact hx.resolve_right hholds.not_fresh
  | listed hnames h =>
    exact ⟨(hholds.perm h.1).listed hnames,
      hnames.nodup ((names_perm h.1).nodup_iff.mpr hnodup), hnames⟩
  | createdFailed => trivial
  | notCreated => trivial
  | deleted => trivial
  | notDeleted => trivial
  | notListed => trivial
  | guest => trivial

theorem pairwise_sort {α : Type} (f : α → ℕ) (l : List α) :
    (l.mergeSort fun a b => decide (f a ≤ f b)).Pairwise fun a b => f a ≤ f b := by
  have hsorted : (l.mergeSort fun a b => decide (f a ≤ f b)).Pairwise
      fun a b => decide (f a ≤ f b) = true := List.pairwise_mergeSort
    (fun a b c hab hbc => by simp only [decide_eq_true_eq] at hab hbc ⊢; omega)
    (fun a b => by simp only [Bool.or_eq_true, decide_eq_true_eq]; omega) l
  exact hsorted.imp fun h => by simpa using h

theorem lists_oldestFirst {l : List Listed} (h : l.Perm (v.snaps.map (·.toListed))) :
    Lists (oldestFirst l) v :=
  ⟨_, (List.mergeSort_perm l _).trans h, pairwise_sort Listed.createTime l, rfl⟩

/-! ### Drivers over their hypervisors -/

/-- How a call ends. -/
def Ends {α : Type} (r : Except Fault α) (ok : α → Prop) (bad : Fault → Prop) : Prop :=
  match r with
  | .ok a => ok a
  | .error x => bad x

theorem wp_op {S : Sig} {W : Type} {sem : Prog.Sem S Fault W} {o : S.Op} {w : W}
    {Q : S.Res o → W → Prop} {E : Fault → W → Prop}
    (h : ∀ r w', sem o w r w' → Ends r (fun a => Q a w') fun x => E x w') :
    (Prog.perform o).wp (.ofSem sem fun _ => True) Q E w :=
  Prog.wp_perform.mpr ⟨trivial, fun a w' hsem => h (.ok a) w' hsem,
    fun x w' hsem => h (.error x) w' hsem⟩

/-- A driver over a hypervisor that does what it is asked for, or raises. -/
structure Backend (guest : Live D M → Live D M → Prop) where
  S : Sig
  H : Type
  W : Type
  driver : Driver S H
  sem : Prog.Sem S Fault W
  vm : W → Vm D M
  /-- What is saved of what a VM is in, with memory or without. -/
  captures : Bool → Live D M → Live D M
  /-- This is held of a snapshot of this name. -/
  At : H → String → W → Prop
  at_mem : ∀ {h name w}, At h name w → ¬ (vm w).Fresh name
  resolve_wp : ∀ name w, (driver.resolve name).wp (.ofSem sem fun _ => True)
    (fun _ w' => Same guest (vm w) (vm w')) (fun x w' => x.Foreign ∧ Same guest (vm w) (vm w')) w
  isRunning_wp : ∀ name w, (driver.isRunning name).wp (.ofSem sem fun _ => True)
    (fun b w' => Same guest (vm w) (vm w') ∧ (b = true → Ran guest (vm w).live (vm w').live))
    (fun x w' => x.Foreign ∧ Same guest (vm w) (vm w')) w
  names_wp : ∀ w, driver.names.wp (.ofSem sem fun _ => True)
    (fun names w' => Same guest (vm w) (vm w') ∧ Lists names (vm w'))
    (fun x w' => x.Foreign ∧ Same guest (vm w) (vm w')) w
  find_wp : ∀ name w, (driver.find name).wp (.ofSem sem fun _ => True)
    (fun r w' => Same guest (vm w) (vm w') ∧ (∀ h, r = some h → At h name w') ∧
      (r = none → (vm w').Fresh name))
    (fun x w' => x.Foreign ∧ Same guest (vm w) (vm w')) w
  create_wp : ∀ name description mem w, (driver.create name description mem).wp
    (.ofSem sem fun _ => True) (fun _ w' => Added guest captures name mem (vm w) (vm w'))
    (fun x w' => x.Foreign ∧
      (Same guest (vm w) (vm w') ∨ Added guest captures name mem (vm w) (vm w'))) w
  remove_wp : ∀ h name w, At h name w → (driver.remove h).wp (.ofSem sem fun _ => True)
    (fun _ w' => Removed guest name (vm w) (vm w'))
    (fun x w' => x.Foreign ∧
      (Same guest (vm w) (vm w') ∨ Removed guest name (vm w) (vm w'))) w
  revert_wp : ∀ h name w, At h name w → (driver.revert h).wp (.ofSem sem fun _ => True)
    (fun _ w' => Reverted guest name (vm w) (vm w'))
    (fun x w' => x.Foreign ∧ (vm w').snaps.Perm (vm w).snaps) w

namespace Backend

variable (b : Backend guest) {w w' : b.W}

theorem requireRunning_wp (vm : String) (mem : Bool) (w : b.W) :
    (b.driver.requireRunning vm mem).wp (.ofSem b.sem fun _ => True)
      (fun _ w' => Same guest (b.vm w) (b.vm w') ∧
        (mem = true → Ran guest (b.vm w).live (b.vm w').live))
      (fun x w' => (x.Foreign ∨ ∃ vm, x = .notRunning vm) ∧ Same guest (b.vm w) (b.vm w')) w := by
  unfold Driver.requireRunning
  split_ifs with hmem
  · refine Prog.wp_seq (Prog.wp_mono (fun _ _ h => h) (fun _ _ h => ⟨.inl h.1, h.2⟩)
      (b.isRunning_wp vm w)) ?_
    intro running w₁ h
    split_ifs with hrunning
    · exact ⟨h.1, fun _ => h.2 hrunning⟩
    · exact ⟨.inr ⟨vm, rfl⟩, h.1⟩
  · exact ⟨.refl _, fun h => absurd h hmem⟩

theorem createSnapshot_wp (vm name description : String) (mem : Bool) (w : b.W) :
    (b.driver.createSnapshot vm name description mem).wp (.ofSem b.sem fun _ => True)
      (fun u w' => Does guest b.captures (b.vm w) (.create name mem (.ok u)) (b.vm w'))
      (fun x w' => Does guest b.captures (b.vm w) (.create name mem (.error x)) (b.vm w')) w := by
  unfold Driver.createSnapshot
  refine Prog.wp_seq (Prog.wp_mono (fun _ _ h => h) (fun _ _ h => .notCreated (.inl h.1) h.2)
    (b.resolve_wp vm w)) fun _ w₁ h₁ => ?_
  refine Prog.wp_seq (Prog.wp_mono (fun _ _ h => h)
    (fun _ _ h => .notCreated (h.1.imp id .inl) (h₁.trans h.2)) (b.requireRunning_wp vm mem w₁))
    fun _ w₂ h₂ => ?_
  have hsame : Same guest (b.vm w) (b.vm w₂) := h₁.trans h₂.1
  refine Prog.wp_seq (Prog.wp_mono (fun _ _ h => h)
    (fun _ _ h => .notCreated (.inl h.1) (hsame.trans h.2)) (b.find_wp name w₂))
    fun r w₃ h₃ => ?_
  have hsame₃ : Same guest (b.vm w) (b.vm w₃) := hsame.trans h₃.1
  cases r with
  | some h =>
    have hmem : ¬ (b.vm w₃).Fresh name := b.at_mem (h₃.2.1 h rfl)
    exact .notCreated (.inr (.inr fun hfresh => hmem (hfresh.perm hsame₃.1))) hsame₃
  | none =>
    have hfresh : (b.vm w₃).Fresh name := h₃.2.2 rfl
    refine Prog.wp_mono (fun _ w₄ h => ?_) (fun x w₄ h => ?_)
      (b.create_wp name description mem w₃)
    · refine .created hsame₃ (fun hmem => ?_) hfresh h
      obtain ⟨l, hbefore, hram, hafter⟩ := h₂.2 hmem
      exact ⟨l, h₁.2.trans hbefore, hram, hafter.trans h₃.1.2⟩
    · rcases h.2 with hstill | hadded
      · exact .notCreated (.inl h.1) (hsame₃.trans hstill)
      · exact .createdFailed h.1 (hsame₃.fresh hfresh) (hadded.after hsame₃)

theorem listSnapshots_wp (vm : String) (w : b.W) :
    (b.driver.listSnapshots vm).wp (.ofSem b.sem fun _ => True)
      (fun names w' => Does guest b.captures (b.vm w) (.list (.ok names)) (b.vm w'))
      (fun x w' => Does guest b.captures (b.vm w) (.list (.error x)) (b.vm w')) w := by
  unfold Driver.listSnapshots
  refine Prog.wp_seq (Prog.wp_mono (fun _ _ h => h) (fun _ _ h => .notListed h.2)
    (b.resolve_wp vm w)) fun _ w₁ h₁ => ?_
  exact Prog.wp_mono (fun _ _ h => .listed h.2 (h₁.trans h.1))
    (fun _ _ h => .notListed (h₁.trans h.2)) (b.names_wp w₁)

theorem deleteSnapshot_wp (vm name : String) (w : b.W) :
    (b.driver.deleteSnapshot vm name).wp (.ofSem b.sem fun _ => True)
      (fun u w' => Does guest b.captures (b.vm w) (.delete name (.ok u)) (b.vm w'))
      (fun x w' => Does guest b.captures (b.vm w) (.delete name (.error x)) (b.vm w')) w := by
  have hfailed {x : Fault} {w' : b.W} (h : Same guest (b.vm w) (b.vm w')) :
      Does guest b.captures (b.vm w) (.delete name (.error x)) (b.vm w') :=
    .notDeleted (fun hout => by cases hout) h
  unfold Driver.deleteSnapshot
  refine Prog.wp_seq (Prog.wp_mono (fun _ _ h => h) (fun _ _ h => hfailed h.2)
    (b.resolve_wp vm w)) fun _ w₁ h₁ => ?_
  refine Prog.wp_seq (Prog.wp_mono (fun _ _ h => h) (fun _ _ h => hfailed (h₁.trans h.2))
    (b.find_wp name w₁)) fun r w₂ h₂ => ?_
  have hsame : Same guest (b.vm w) (b.vm w₂) := h₁.trans h₂.1
  cases r with
  | none => exact .notDeleted (fun _ => hsame.fresh (h₂.2.2 rfl)) hsame
  | some h =>
    refine Prog.wp_mono (fun _ w₃ h => .deleted (h.after hsame)) (fun x w₃ h => ?_)
      (b.remove_wp h name w₂ (h₂.2.1 h rfl))
    rcases h.2 with hstill | hremoved
    · exact hfailed (hsame.trans hstill)
    · exact .deleted (hremoved.after hsame)

theorem restoreSnapshot_wp (vm name : String) (w : b.W) :
    (b.driver.restoreSnapshot vm name).wp (.ofSem b.sem fun _ => True)
      (fun u w' => Does guest b.captures (b.vm w) (.restore name (.ok u)) (b.vm w'))
      (fun x w' => Does guest b.captures (b.vm w) (.restore name (.error x)) (b.vm w')) w := by
  unfold Driver.restoreSnapshot
  refine Prog.wp_seq (Prog.wp_mono (fun _ _ h => h) (fun _ _ h => .restoreFailed (.inl h.1) h.2.1)
    (b.resolve_wp vm w)) fun _ w₁ h₁ => ?_
  refine Prog.wp_seq (Prog.wp_mono (fun _ _ h => h)
    (fun _ _ h => .restoreFailed (.inl h.1) (h₁.trans h.2).1) (b.find_wp name w₁))
    fun r w₂ h₂ => ?_
  have hsame : Same guest (b.vm w) (b.vm w₂) := h₁.trans h₂.1
  cases r with
  | none => exact .restoreFailed (.inr (hsame.fresh (h₂.2.2 rfl))) hsame.1
  | some h =>
    exact Prog.wp_mono (fun _ w₃ h => .restored (h.after hsame))
      (fun x w₃ h => .restoreFailed (.inl h.1) (h.2.trans hsame.1)) (b.revert_wp h name w₂
        (h₂.2.1 h rfl))

/-- A request to the driver that came to its end. -/
def Step (vm : String) (w : b.W) : Event → b.W → Prop
  | .create name mem out, w' => ∃ description tr,
    Prog.Runs b.sem (b.driver.createSnapshot vm name description mem) w tr out w'
  | .delete name out, w' => ∃ tr, Prog.Runs b.sem (b.driver.deleteSnapshot vm name) w tr out w'
  | .restore name out, w' => ∃ tr, Prog.Runs b.sem (b.driver.restoreSnapshot vm name) w tr out w'
  | .list out, w' => ∃ tr, Prog.Runs b.sem (b.driver.listSnapshots vm) w tr out w'
  | .guest, w' => Same guest (b.vm w) (b.vm w')

/-- **A request does what is said of it.** -/
theorem does {vm : String} {e : Event} (h : b.Step vm w e w') :
    Does guest b.captures (b.vm w) e (b.vm w') := by
  cases e with
  | create name mem out =>
    obtain ⟨description, tr, hrun⟩ := h
    have hruns := Prog.runs_of_wp (b.createSnapshot_wp vm name description mem w) hrun
    cases out with
    | ok u => exact hruns.1 u rfl
    | error x => exact hruns.2 x rfl
  | delete name out =>
    obtain ⟨tr, hrun⟩ := h
    have hruns := Prog.runs_of_wp (b.deleteSnapshot_wp vm name w) hrun
    cases out with
    | ok u => exact hruns.1 u rfl
    | error x => exact hruns.2 x rfl
  | restore name out =>
    obtain ⟨tr, hrun⟩ := h
    have hruns := Prog.runs_of_wp (b.restoreSnapshot_wp vm name w) hrun
    cases out with
    | ok u => exact hruns.1 u rfl
    | error x => exact hruns.2 x rfl
  | list out =>
    obtain ⟨tr, hrun⟩ := h
    have hruns := Prog.runs_of_wp (b.listSnapshots_wp vm w) hrun
    cases out with
    | ok names => exact hruns.1 names rfl
    | error x => exact hruns.2 x rfl
  | guest => exact .guest h

end Backend

/-! ### libvirt -/

namespace Libvirt

/-- The calls of a domain, where a snapshot that was looked up goes by its name. -/
inductive Op
  | resolveDomain (vm : String)
  | isActive
  | snapshotLookupByName (name : String)
  | snapshotCreateXml (name description : String)
  | listAllSnapshots
  | delete (snap : String)
  | revertToSnapshot (snap : String)

abbrev sig : Sig where
  Op := Op
  Res
    | .isActive => Bool
    | .snapshotLookupByName _ => String
    | .listAllSnapshots => List Listed
    | _ => Unit

def op (o : Op) : Prog sig Fault (sig.Res o) := Prog.perform (S := sig) o

/-- `_lookup_snapshot` -/
def lookupSnapshot (name : String) : Prog sig Fault (Option String) := do
  match ← Prog.attempt (op (.snapshotLookupByName name)) with
  | .ok snap => pure (some snap)
  | .error .noDomainSnapshot => pure none
  | .error x => throw x

/-- It is libvirt that decides whether memory is saved, and `mem` goes nowhere. -/
def driver : Driver sig String where
  resolve vm := op (.resolveDomain vm)
  isRunning _ := op .isActive
  names := do
    let snaps ← op .listAllSnapshots
    pure (oldestFirst snaps)
  find := lookupSnapshot
  create name description _ := op (.snapshotCreateXml name description)
  remove snap := op (.delete snap)
  revert snap := op (.revertToSnapshot snap)

def createSnapshot (vm name description : String) (mem : Bool) : Prog sig Fault Unit :=
  driver.createSnapshot vm name description mem

def listSnapshots (vm : String) : Prog sig Fault (List String) := driver.listSnapshots vm

def deleteSnapshot (vm name : String) : Prog sig Fault Unit := driver.deleteSnapshot vm name

def restoreSnapshot (vm name : String) : Prog sig Fault Unit := driver.restoreSnapshot vm name

/-- All that a VM is in. -/
def checkpoint (_ : Bool) (l : Live D M) : Live D M := l

variable (guest) in
/-- What a call does. -/
def sem : Prog.Sem sig Fault (Vm D M)
  | .resolveDomain _, v, r, v' =>
    Ends r (fun _ => Same guest v v') fun x => x.Foreign ∧ Same guest v v'
  | .isActive, v, r, v' =>
    Ends r (fun b => Same guest v v' ∧
      ∃ l, Runs guest v.live l ∧ b = l.ram.isSome ∧ Runs guest l v'.live)
      fun x => x.Foreign ∧ Same guest v v'
  | .snapshotLookupByName name, v, r, v' =>
    Ends r (fun snap => Same guest v v' ∧ snap = name ∧ ¬ v'.Fresh name) fun x =>
      x.Foreign ∧ Same guest v v' ∧ (x = .noDomainSnapshot → v'.Fresh name)
  | .snapshotCreateXml name _, v, r, v' =>
    Ends r (fun _ => Added guest checkpoint name false v v') fun x =>
      x.Foreign ∧ (Same guest v v' ∨ Added guest checkpoint name false v v')
  | .listAllSnapshots, v, r, v' =>
    Ends r (fun l => Same guest v v' ∧ l.Perm (v'.snaps.map (·.toListed))) fun x =>
      x.Foreign ∧ Same guest v v'
  | .delete snap, v, r, v' =>
    Ends r (fun _ => Removed guest snap v v') fun x =>
      x.Foreign ∧ (Same guest v v' ∨ Removed guest snap v v')
  | .revertToSnapshot snap, v, r, v' =>
    Ends r (fun _ => Reverted guest snap v v') fun x => x.Foreign ∧ v'.snaps.Perm v.snaps

theorem lookupSnapshot_wp (name : String) (v : Vm D M) :
    (lookupSnapshot name).wp (.ofSem (sem guest) fun _ => True)
      (fun r v' => Same guest v v' ∧ (∀ snap, r = some snap → snap = name ∧ ¬ v'.Fresh name) ∧
        (r = none → v'.Fresh name))
      (fun x v' => x.Foreign ∧ Same guest v v') v := by
  unfold lookupSnapshot
  refine Prog.wp_seq (P := fun r v' => Ends r
    (fun snap => Same guest v v' ∧ snap = name ∧ ¬ v'.Fresh name)
    fun x => x.Foreign ∧ Same guest v v' ∧ (x = .noDomainSnapshot → v'.Fresh name)) ?_
    fun r v' h => ?_
  · rw [Prog.wp_attempt]
    exact wp_op fun _ _ h => h
  · rcases r with x | snap
    · obtain ⟨hx, hsame, hfresh⟩ := h
      cases x with
      | noDomainSnapshot => exact ⟨hsame, fun _ h => (by cases h), fun _ => hfresh rfl⟩
      | _ => exact ⟨hx, hsame⟩
    · refine ⟨h.1, fun snap' hsnap => ?_, fun hnone => by cases hnone⟩
      cases hsnap
      exact h.2

variable (guest) in
def backend : Backend guest where
  S := sig
  H := String
  W := Vm D M
  driver := driver
  sem := sem guest
  vm v := v
  captures := checkpoint
  At snap name v := snap = name ∧ ¬ v.Fresh name
  at_mem h := h.2
  resolve_wp vm v := wp_op fun _ _ h => h
  isRunning_wp vm v := by
    refine wp_op fun r v' h => ?_
    rcases r with x | b
    · exact h
    · obtain ⟨hsame, l, hbefore, rfl, hafter⟩ := h
      exact ⟨hsame, fun hram => ⟨l, hbefore, hram, hafter⟩⟩
  names_wp v := by
    refine Prog.wp_seq (wp_op fun _ _ h => h) fun l v' h => ?_
    exact ⟨h.1, lists_oldestFirst h.2⟩
  find_wp := lookupSnapshot_wp
  create_wp name description mem v := wp_op fun _ _ h => h
  remove_wp snap name v h := by
    obtain ⟨rfl, -⟩ := h
    exact wp_op fun _ _ h => h
  revert_wp snap name v h := by
    obtain ⟨rfl, -⟩ := h
    exact wp_op fun _ _ h => h

end Libvirt

/-! ### PVE -/

/-- With memory all that a VM is in, and without it the disks of one that is off. -/
def saves (mem : Bool) (l : Live D M) : Live D M := if mem then l else { l with ram := none }

namespace Proxmox

inductive Op
  | resolveVmid (vm : String)
  | status
  | snapshotGet
  | snapshotPost (name description : String) (vmstate : Bool)
  | snapshotDelete (name : String)
  | rollbackPost (name : String)
  | sleep (ms : ℕ)

abbrev sig : Sig where
  Op := Op
  Res
    | .status => String
    | .snapshotGet => List Listed
    | _ => Unit

def op (o : Op) : Prog sig Fault (sig.Res o) := Prog.perform (S := sig) o

/-- `get_vm_power_state` -/
def getVmPowerState (vm : String) : Prog sig Fault String := do
  op (.resolveVmid vm)
  let status ← op .status
  pure (if status = "stopped" then "shutoff" else status)

/-- `_snapshot_names` -/
def snapshotNames : Prog sig Fault (List String) := do
  let snaps ← op .snapshotGet
  pure (oldestFirst (snaps.filter (·.name != "current")))

def lockRetryAttempts : ℕ := 10

def lockRetryBackoff : ℕ := 3000

/-- `_await_lock_retry`, with this many attempts after the first. -/
def awaitLockRetry (issue : Prog sig Fault Unit) : ℕ → Prog sig Fault Unit
  | 0 => issue
  | more + 1 => do
    match ← Prog.attempt issue with
    | .ok _ => pure ()
    | .error .locked =>
      op (.sleep lockRetryBackoff)
      awaitLockRetry issue more
    | .error x => throw x

/-- A task is issued and waited for. -/
def driver : Driver sig String where
  resolve vm := op (.resolveVmid vm)
  isRunning vm := do
    let state ← getVmPowerState vm
    pure (state == "running")
  names := snapshotNames
  find name := do
    let names ← snapshotNames
    pure (if name ∈ names then some name else none)
  create name description mem := op (.snapshotPost name description mem)
  remove name := awaitLockRetry (op (.snapshotDelete name)) (lockRetryAttempts - 1)
  revert name := awaitLockRetry (op (.rollbackPost name)) (lockRetryAttempts - 1)

def createSnapshot (vm name description : String) (mem : Bool) : Prog sig Fault Unit :=
  driver.createSnapshot vm name description mem

def listSnapshots (vm : String) : Prog sig Fault (List String) := driver.listSnapshots vm

def deleteSnapshot (vm name : String) : Prog sig Fault Unit := driver.deleteSnapshot vm name

def restoreSnapshot (vm name : String) : Prog sig Fault Unit := driver.restoreSnapshot vm name

/-- `current` is a name that PVE keeps to itself. -/
structure World (D M : Type) where
  vm : Vm D M
  reserved : vm.Fresh "current"

/-- The live state among the snapshots. -/
def current : Listed := ⟨"current", none⟩

variable (guest) in
/-- What a call does. -/
def sem : Prog.Sem sig Fault (World D M)
  | .resolveVmid _, w, r, w' =>
    Ends r (fun _ => Same guest w.vm w'.vm) fun x => x.Foreign ∧ Same guest w.vm w'.vm
  | .status, w, r, w' =>
    Ends r (fun s => Same guest w.vm w'.vm ∧ ∃ l, Runs guest w.vm.live l ∧
      s = (if l.ram.isSome then "running" else "stopped") ∧ Runs guest l w'.vm.live)
      fun x => x.Foreign ∧ Same guest w.vm w'.vm
  | .snapshotGet, w, r, w' =>
    Ends r (fun l => Same guest w.vm w'.vm ∧
      l.Perm (current :: w'.vm.snaps.map (·.toListed)))
      fun x => x.Foreign ∧ Same guest w.vm w'.vm
  | .snapshotPost name _ vmstate, w, r, w' =>
    Ends r (fun _ => Added guest saves name vmstate w.vm w'.vm) fun x =>
      x.Foreign ∧ (Same guest w.vm w'.vm ∨ Added guest saves name vmstate w.vm w'.vm)
  | .snapshotDelete name, w, r, w' =>
    Ends r (fun _ => Removed guest name w.vm w'.vm) fun x =>
      x.Foreign ∧ (x = .locked → Same guest w.vm w'.vm) ∧
        (Same guest w.vm w'.vm ∨ Removed guest name w.vm w'.vm)
  | .rollbackPost name, w, r, w' =>
    Ends r (fun _ => Reverted guest name w.vm w'.vm) fun x =>
      x.Foreign ∧ w'.vm.snaps.Perm w.vm.snaps
  | .sleep _, w, r, w' => Ends r (fun _ => Same guest w.vm w'.vm) fun _ => False

variable {w w₁ w₂ : World D M}

theorem listed_without_current {l : List Listed} (w : World D M)
    (h : l.Perm (current :: w.vm.snaps.map (·.toListed))) :
    (l.filter (·.name != "current")).Perm (w.vm.snaps.map (·.toListed)) := by
  have hkept : (w.vm.snaps.map (·.toListed)).filter (·.name != "current") =
      w.vm.snaps.map (·.toListed) := by
    refine List.filter_eq_self.mpr fun a ha => ?_
    obtain ⟨s, hs, rfl⟩ := List.mem_map.mp ha
    simpa using w.reserved s hs
  have hperm := h.filter (·.name != "current")
  rw [List.filter_cons_of_neg (by decide), hkept] at hperm
  exact hperm

theorem snapshotNames_wp (w : World D M) :
    snapshotNames.wp (.ofSem (sem guest) fun _ => True)
      (fun names w' => Same guest w.vm w'.vm ∧ Lists names w'.vm)
      (fun x w' => x.Foreign ∧ Same guest w.vm w'.vm) w := by
  unfold snapshotNames
  refine Prog.wp_seq (wp_op fun _ _ h => h) fun l w' h => ?_
  exact ⟨h.1, lists_oldestFirst (listed_without_current w' h.2)⟩

theorem isRunning_wp (vm : String) (w : World D M) :
    (driver.isRunning vm).wp (.ofSem (sem guest) fun _ => True)
      (fun b w' => Same guest w.vm w'.vm ∧ (b = true → Ran guest w.vm.live w'.vm.live))
      (fun x w' => x.Foreign ∧ Same guest w.vm w'.vm) w := by
  show (getVmPowerState vm >>= fun state => pure (state == "running")).wp _ _ _ _
  refine Prog.wp_seq (P := fun state w' => Same guest w.vm w'.vm ∧
    (state = "running" → Ran guest w.vm.live w'.vm.live)) ?_ fun state w' h => ?_
  · unfold getVmPowerState
    refine Prog.wp_seq (wp_op fun _ _ h => h) fun _ w₁ h₁ => ?_
    refine Prog.wp_seq (P := fun s w' => Same guest w.vm w'.vm ∧
      (s = "running" → Ran guest w.vm.live w'.vm.live)) (wp_op fun r w' h => ?_) fun s w' h => ?_
    · rcases r with x | s
      · exact ⟨h.1, h₁.trans h.2⟩
      · obtain ⟨hsame, l, hbefore, rfl, hafter⟩ := h
        refine ⟨h₁.trans hsame, fun hs => ⟨l, h₁.2.trans hbefore, ?_, hafter⟩⟩
        by_contra hoff
        rw [if_neg hoff] at hs
        exact absurd hs (by decide)
    · refine ⟨h.1, fun hs => h.2 ?_⟩
      split_ifs at hs with hstopped
      · exact absurd hs (by decide)
      · exact hs
  · exact ⟨h.1, fun hb => h.2 (by simpa using hb)⟩

/-- **The rule for the retry**: an attempt at which the VM was locked has done nothing. -/
theorem awaitLockRetry_wp {issue : Prog sig Fault Unit} {I : World D M → Prop}
    {Q : World D M → Prop} {E : Fault → World D M → Prop}
    (hissue : ∀ w, I w → issue.wp (.ofSem (sem guest) fun _ => True) (fun _ w' => Q w')
      (fun x w' => E x w' ∧ (x = .locked → I w')) w)
    (hI : ∀ w w', I w → Same guest w.vm w'.vm → I w') (more : ℕ) (hw : I w) :
    (awaitLockRetry issue more).wp (.ofSem (sem guest) fun _ => True) (fun _ w' => Q w') E w := by
  induction more generalizing w with
  | zero => exact Prog.wp_mono (fun _ _ h => h) (fun _ _ h => h.1) (hissue w hw)
  | succ more ih =>
    refine Prog.wp_seq (P := fun r w' => Ends r (fun _ => Q w')
      fun x => E x w' ∧ (x = .locked → I w')) ?_ fun r w' h => ?_
    · rw [Prog.wp_attempt]
      exact hissue w hw
    · rcases r with x | u
      · cases x with
        | locked =>
          refine Prog.wp_seq (P := fun _ w₂ => I w₂) (wp_op fun r w₂ hslept => ?_)
            fun _ w₂ h₂ => ih h₂
          rcases r with x | u
          · exact hslept.elim
          · exact hI _ _ (h.2 rfl) hslept
        | _ => exact h.1
      · exact h

theorem remove_wp (w : World D M) :
    (driver.remove name).wp (.ofSem (sem guest) fun _ => True)
      (fun _ w' => Removed guest name w.vm w'.vm)
      (fun x w' => x.Foreign ∧
        (Same guest w.vm w'.vm ∨ Removed guest name w.vm w'.vm)) w := by
  refine awaitLockRetry_wp (I := fun w' => Same guest w.vm w'.vm) (fun w₁ h₁ => ?_)
    (fun _ _ h₁ hsame => h₁.trans hsame) _ (.refl _)
  refine wp_op fun r w₂ h₂ => ?_
  rcases r with x | u
  · obtain ⟨hx, hlocked, heither⟩ := h₂
    refine ⟨⟨hx, ?_⟩, fun h => h₁.trans (hlocked h)⟩
    exact heither.imp h₁.trans fun hremoved => hremoved.after h₁
  · exact Removed.after h₁ h₂

theorem revert_wp (w : World D M) :
    (driver.revert name).wp (.ofSem (sem guest) fun _ => True)
      (fun _ w' => Reverted guest name w.vm w'.vm)
      (fun x w' => x.Foreign ∧ w'.vm.snaps.Perm w.vm.snaps) w := by
  refine awaitLockRetry_wp (I := fun w' => w'.vm.snaps.Perm w.vm.snaps) (fun w₁ h₁ => ?_)
    (fun _ _ h₁ hsame => hsame.1.trans h₁) _ .rfl
  refine wp_op fun r w₂ h₂ => ?_
  rcases r with x | u
  · exact ⟨⟨h₂.1, h₂.2.trans h₁⟩, fun _ => h₂.2.trans h₁⟩
  · obtain ⟨s, hs, hname, hruns, hperm⟩ := h₂
    exact ⟨s, h₁.mem_iff.mp hs, hname, hruns, hperm.trans h₁⟩

variable (guest) in
def backend : Backend guest where
  S := sig
  H := String
  W := World D M
  driver := driver
  sem := sem guest
  vm w := w.vm
  captures := saves
  At held name w := held = name ∧ ¬ w.vm.Fresh name
  at_mem h := h.2
  resolve_wp vm w := wp_op fun _ _ h => h
  isRunning_wp := isRunning_wp
  names_wp := snapshotNames_wp
  find_wp name w := by
    refine Prog.wp_seq (snapshotNames_wp w) fun names w' h => ?_
    refine ⟨h.1, ?_⟩
    split_ifs with hmem
    · refine ⟨fun held hheld => ?_, fun hnone => by cases hnone⟩
      cases hheld
      exact ⟨rfl, fun hfresh => hfresh.not_mem (h.2.mem_names.mp hmem)⟩
    · refine ⟨fun held hheld => (by cases hheld), fun _ s hs hname => ?_⟩
      exact hmem (h.2.mem_names.mpr (List.mem_map.mpr ⟨s, hs, hname⟩))
  create_wp name description mem w := wp_op fun _ _ h => h
  remove_wp held name w h := by
    obtain ⟨rfl, -⟩ := h
    exact remove_wp w
  revert_wp held name w h := by
    obtain ⟨rfl, -⟩ := h
    exact revert_wp w

end Proxmox

/-! ### ESXi -/

namespace Esxi

/-- The snapshots in the order of the tree: `children` are those that were taken on top of one. -/
inductive Tree (α : Type)
  | nil
  | cons (node : α) (children rest : Tree α)

variable {α β : Type}

/-- `_walk_snapshots` -/
def walkSnapshots : Tree α → List α
  | .nil => []
  | .cons node children rest => node :: walkSnapshots children ++ walkSnapshots rest

def Tree.map (f : α → β) : Tree α → Tree β
  | .nil => .nil
  | .cons node children rest => .cons (f node) (children.map f) (rest.map f)

theorem walk_map (f : α → β) (t : Tree α) : walkSnapshots (t.map f) = (walkSnapshots t).map f := by
  induction t with
  | nil => rfl
  | cons node children rest hchildren hrest =>
    simp only [Tree.map, walkSnapshots, hchildren, hrest, List.map_append, List.map_cons]

inductive Op
  | requireVm (vm : String)
  | poweredOn
  /-- The tree of a VM that has snapshots, each with its reference. -/
  | snapshotInfo
  | createSnapshot (name description : String) (memory : Bool)
  | removeSnapshot (ref : ℕ)
  | revertToSnapshot (ref : ℕ)

abbrev sig : Sig where
  Op := Op
  Res
    | .poweredOn => Bool
    | .snapshotInfo => Option (Tree (ℕ × Listed))
    | _ => Unit

def op (o : Op) : Prog sig Fault (sig.Res o) := Prog.perform (S := sig) o

/-- `_snapshot_nodes` -/
def snapshotNodes : Prog sig Fault (List (ℕ × Listed)) := do
  match ← op .snapshotInfo with
  | none => pure []
  | some roots =>
    pure ((walkSnapshots roots).mergeSort fun a b => decide (a.2.createTime ≤ b.2.createTime))

/-- `_find_snapshot` -/
def findSnapshot (name : String) : Prog sig Fault (Option ℕ) := do
  let nodes ← snapshotNodes
  pure ((nodes.find? (·.2.name == name)).map (·.1))

/-- A task is issued and waited for. -/
def driver : Driver sig ℕ where
  resolve vm := op (.requireVm vm)
  isRunning _ := op .poweredOn
  names := do
    let nodes ← snapshotNodes
    pure (nodes.map (·.2.name))
  find := findSnapshot
  create name description mem := op (.createSnapshot name description mem)
  remove ref := op (.removeSnapshot ref)
  revert ref := op (.revertToSnapshot ref)

def createSnapshot (vm name description : String) (mem : Bool) : Prog sig Fault Unit :=
  driver.createSnapshot vm name description mem

def listSnapshots (vm : String) : Prog sig Fault (List String) := driver.listSnapshots vm

def deleteSnapshot (vm name : String) : Prog sig Fault Unit := driver.deleteSnapshot vm name

def restoreSnapshot (vm name : String) : Prog sig Fault Unit := driver.restoreSnapshot vm name

/-- A VM with its tree, where a reference is one of one snapshot. -/
structure World (D M : Type) where
  live : Live D M
  roots : Tree (ℕ × Snap D M)
  refs : ((walkSnapshots roots).map (·.1)).Nodup

def World.vm (w : World D M) : Vm D M := ⟨w.live, (walkSnapshots w.roots).map (·.2)⟩

/-- What is shown of a snapshot. -/
def shown (p : ℕ × Snap D M) : ℕ × Listed := (p.1, p.2.toListed)

variable (guest) in
/-- The snapshot of this reference has gone, and those on top of it have been kept. -/
def Unhooked (ref : ℕ) (w w' : World D M) : Prop :=
  ∃ s, (walkSnapshots w.roots).Perm ((ref, s) :: walkSnapshots w'.roots) ∧
    Runs guest w.live w'.live

variable (guest) in
/-- What a call does. -/
def sem : Prog.Sem sig Fault (World D M)
  | .requireVm _, w, r, w' =>
    Ends r (fun _ => Same guest w.vm w'.vm) fun x => x.Foreign ∧ Same guest w.vm w'.vm
  | .poweredOn, w, r, w' =>
    Ends r (fun b => Same guest w.vm w'.vm ∧
      ∃ l, Runs guest w.live l ∧ b = l.ram.isSome ∧ Runs guest l w'.live)
      fun x => x.Foreign ∧ Same guest w.vm w'.vm
  | .snapshotInfo, w, r, w' =>
    Ends r (fun info => Same guest w.vm w'.vm ∧ match info with
      | none => walkSnapshots w'.roots = []
      | some roots => roots = w'.roots.map shown)
      fun x => x.Foreign ∧ Same guest w.vm w'.vm
  | .createSnapshot name _ memory, w, r, w' =>
    Ends r (fun _ => Added guest saves name memory w.vm w'.vm) fun x =>
      x.Foreign ∧ (Same guest w.vm w'.vm ∨ Added guest saves name memory w.vm w'.vm)
  | .removeSnapshot ref, w, r, w' =>
    Ends r (fun _ => Unhooked guest ref w w') fun x =>
      x.Foreign ∧ (Same guest w.vm w'.vm ∨ Unhooked guest ref w w')
  | .revertToSnapshot ref, w, r, w' =>
    Ends r (fun _ => ∃ s, (ref, s) ∈ walkSnapshots w.roots ∧ Runs guest s.saved w'.live ∧
      w'.vm.snaps.Perm w.vm.snaps) fun x => x.Foreign ∧ w'.vm.snaps.Perm w.vm.snaps

variable {w w' : World D M} {ref : ℕ}

/-- This is the reference of a snapshot of this name. -/
def Refers (ref : ℕ) (name : String) (w : World D M) : Prop :=
  ∃ s, (ref, s) ∈ walkSnapshots w.roots ∧ s.name = name

theorem Refers.not_fresh (h : Refers ref name w) : ¬ w.vm.Fresh name := by
  obtain ⟨s, hs, hname⟩ := h
  exact fun hfresh => hfresh s (List.mem_map.mpr ⟨_, hs, rfl⟩) hname

theorem Refers.name_eq {s : Snap D M} (h : Refers ref name w)
    (hs : (ref, s) ∈ walkSnapshots w.roots) :
    s.name = name := by
  obtain ⟨t, ht, hname⟩ := h
  have heq : (ref, s) = (ref, t) := List.inj_on_of_nodup_map w.refs hs ht rfl
  cases heq
  exact hname

theorem Unhooked.removed (hrefers : Refers ref name w) (h : Unhooked guest ref w w') :
    Removed guest name w.vm w'.vm := by
  obtain ⟨s, hperm, hruns⟩ := h
  have hs : (ref, s) ∈ walkSnapshots w.roots := hperm.mem_iff.mpr List.mem_cons_self
  exact ⟨s, hrefers.name_eq hs, hperm.map _, hruns⟩

/-- The nodes are those of the tree, by time. -/
theorem snapshotNodes_wp (w : World D M) :
    snapshotNodes.wp (.ofSem (sem guest) fun _ => True)
      (fun nodes w' => Same guest w.vm w'.vm ∧ nodes.Perm ((walkSnapshots w'.roots).map shown) ∧
        nodes.Pairwise (·.2.createTime ≤ ·.2.createTime))
      (fun x w' => x.Foreign ∧ Same guest w.vm w'.vm) w := by
  unfold snapshotNodes
  refine Prog.wp_seq (wp_op fun _ _ h => h) fun info w' h => ?_
  cases info with
  | none =>
    refine ⟨h.1, ?_, .nil⟩
    rw [h.2]
    exact .nil
  | some roots =>
    obtain ⟨hsame, rfl⟩ := h
    refine ⟨hsame, ?_, ?_⟩
    · rw [← walk_map]
      exact List.mergeSort_perm _ _
    · exact pairwise_sort (fun node : ℕ × Listed => node.2.createTime) _

theorem findSnapshot_wp (name : String) (w : World D M) :
    (findSnapshot name).wp (.ofSem (sem guest) fun _ => True)
      (fun r w' => Same guest w.vm w'.vm ∧ (∀ ref, r = some ref → Refers ref name w') ∧
        (r = none → w'.vm.Fresh name))
      (fun x w' => x.Foreign ∧ Same guest w.vm w'.vm) w := by
  unfold findSnapshot
  refine Prog.wp_seq (snapshotNodes_wp w) fun nodes w' h => ?_
  obtain ⟨hsame, hperm, -⟩ := h
  refine ⟨hsame, ?_⟩
  cases hfind : nodes.find? (·.2.name == name) with
  | none =>
    refine ⟨fun ref href => (by cases href), fun _ s hs hname => ?_⟩
    obtain ⟨p, hp, rfl⟩ := List.mem_map.mp hs
    have hmem : shown p ∈ nodes := hperm.mem_iff.mpr (List.mem_map_of_mem hp)
    have hnone := List.find?_eq_none.mp hfind _ hmem
    exact hnone (by simpa [shown] using hname)
  | some node =>
    have hmem : node ∈ (walkSnapshots w'.roots).map shown :=
      hperm.mem_iff.mp (List.mem_of_find?_eq_some hfind)
    obtain ⟨p, hp, rfl⟩ := List.mem_map.mp hmem
    refine ⟨fun ref href => ?_, fun hnone => by cases hnone⟩
    cases href
    exact ⟨p.2, hp, by simpa [shown] using List.find?_some hfind⟩

variable (guest) in
def backend : Backend guest where
  S := sig
  H := ℕ
  W := World D M
  driver := driver
  sem := sem guest
  vm := World.vm
  captures := saves
  At := Refers
  at_mem h := h.not_fresh
  resolve_wp vm w := wp_op fun _ _ h => h
  isRunning_wp vm w := by
    refine wp_op fun r w' h => ?_
    rcases r with x | b
    · exact h
    · obtain ⟨hsame, l, hbefore, rfl, hafter⟩ := h
      exact ⟨hsame, fun hram => ⟨l, hbefore, hram, hafter⟩⟩
  names_wp w := by
    refine Prog.wp_seq (snapshotNodes_wp w) fun nodes w' h => ?_
    obtain ⟨hsame, hperm, hsorted⟩ := h
    refine ⟨hsame, nodes.map (·.2), ?_, List.pairwise_map.mpr hsorted, ?_⟩
    · have hlisted := hperm.map (·.2)
      rw [List.map_map] at hlisted
      show List.Perm _ (((walkSnapshots w'.roots).map (·.2)).map (·.toListed))
      rw [List.map_map]
      exact hlisted
    · rw [List.map_map]
      rfl
  find_wp := findSnapshot_wp
  create_wp name description mem w := wp_op fun _ _ h => h
  remove_wp ref name w hrefers := by
    refine wp_op fun r w' h => ?_
    rcases r with x | u
    · exact ⟨h.1, h.2.imp id (Unhooked.removed hrefers)⟩
    · exact Unhooked.removed hrefers h
  revert_wp ref name w hrefers := by
    refine wp_op fun r w' h => ?_
    rcases r with x | u
    · exact h
    · obtain ⟨s, hs, hruns, hperm⟩ := h
      exact ⟨s, List.mem_map.mpr ⟨_, hs, rfl⟩, hrefers.name_eq hs, hruns, hperm⟩

end Esxi

/-! ### Histories -/

/-- No two snapshots of a history are called the same. -/
theorem Backend.run_nodup (b : Backend guest) {vm : String} {w₀ w : b.W} {tr : List Event}
    (hnodup : (b.vm w₀).names.Nodup) (hrun : Trace.Run (b.Step vm) w₀ tr w) :
    (b.vm w).names.Nodup :=
  hrun.invariant (P := fun w => (b.vm w).names.Nodup) hnodup fun _ _ _ h hs => (b.does hs).nodup h

/-- What is there when a snapshot has been taken, and for as long as nothing deletes it. -/
theorem Backend.kept (b : Backend guest) (vm : String) {w₀ w w₁ : b.W} {tr : List Event}
    (hnodup : (b.vm w₀).names.Nodup) (hrun : Trace.Run (b.Step vm) w₀ tr w)
    (hcreate : b.Step vm w (.create name mem (.ok ())) w₁) :
    ∃ l, Runs guest (b.vm w).live l ∧ (mem = true → Ran guest (b.vm w).live l) ∧
      ∀ tr' w₂ e w₃, Trace.Run (b.Step vm) w₁ tr' w₂ → (∀ out, .delete name out ∉ tr') →
        b.Step vm w₂ e w₃ → Serves guest name (b.captures mem l) (b.vm w₃) e := by
  have hbefore := b.run_nodup hnodup hrun
  obtain ⟨l, hruns, hran, hholds⟩ := (b.does hcreate).taken
  refine ⟨l, hruns, hran, fun tr' w₂ e w₃ hrun' hkept hs => ?_⟩
  have hinv : (b.vm w₂).names.Nodup ∧
      ((∀ out, .delete name out ∉ tr') → Holds (b.vm w₂) name (b.captures mem l)) := by
    refine hrun'.keeps (P := fun tr w => (b.vm w).names.Nodup ∧
      ((∀ out, .delete name out ∉ tr) → Holds (b.vm w) name (b.captures mem l)))
      ⟨(b.does hcreate).nodup hbefore, fun _ => hholds⟩ ?_
    intro tr w e w' h hs
    refine ⟨(b.does hs).nodup h.1, fun hkept => ?_⟩
    refine (b.does hs).holds (fun out he => ?_) (h.2 fun out hmem => ?_)
    · exact hkept out (List.mem_append_right _ (List.mem_singleton.mpr he.symm))
    · exact hkept out (List.mem_append_left _ hmem)
  exact (b.does hs).serves hinv.1 (hinv.2 hkept)

/-- What comes of a request when a snapshot has been deleted, and for as long as nothing takes one of
its name. -/
theorem Backend.gone (b : Backend guest) (vm : String) {w₀ w w₁ w₂ w₃ : b.W}
    {tr tr' : List Event} {e : Event} (hnodup : (b.vm w₀).names.Nodup)
    (hrun : Trace.Run (b.Step vm) w₀ tr w) (hdelete : b.Step vm w (.delete name (.ok ())) w₁)
    (hrun' : Trace.Run (b.Step vm) w₁ tr' w₂) (hgone : ∀ mem out, .create name mem out ∉ tr')
    (hs : b.Step vm w₂ e w₃) : Refuses name e := by
  have hfresh : (b.vm w₁).Fresh name := (b.does hdelete).gone (b.run_nodup hnodup hrun)
  have hstill : (∀ mem out, .create name mem out ∉ tr') → (b.vm w₂).Fresh name := by
    refine hrun'.keeps (P := fun tr w => (∀ mem out, .create name mem out ∉ tr) →
      (b.vm w).Fresh name) (fun _ => hfresh) ?_
    intro tr w e w' h hs hgone
    refine (b.does hs).fresh (fun mem out he => ?_) (h fun mem out hmem => ?_)
    · exact hgone mem out (List.mem_append_right _ (List.mem_singleton.mpr he.symm))
    · exact hgone mem out (List.mem_append_left _ hmem)
  exact (b.does hs).refuses (hstill hgone)

/-- The hypervisors that the drivers are for. -/
inductive Hypervisor
  | libvirt
  | proxmox
  | esxi

/-- The driver of a hypervisor, over it. -/
def Hypervisor.backend (guest : Live D M → Live D M → Prop) : Hypervisor → Backend guest
  | .libvirt => Libvirt.backend guest
  | .proxmox => Proxmox.backend guest
  | .esxi => Esxi.backend guest

/-- **A snapshot that was taken can be gone back to**, on libvirt, Proxmox and ESXi: after whatever
was asked for since, but for its deletion, its name is taken and is listed, and a restore that
returns has brought back what the VM had come to when the snapshot was taken; one that does not has
failed at the hypervisor. -/
theorem snapshots_kept (hv : Hypervisor) (vm : String) {w₀ w w₁ : (hv.backend guest).W}
    {tr : List Event} (hnodup : ((hv.backend guest).vm w₀).names.Nodup)
    (hrun : Trace.Run ((hv.backend guest).Step vm) w₀ tr w)
    (hcreate : (hv.backend guest).Step vm w (.create name mem (.ok ())) w₁) :
    ∃ l, Runs guest ((hv.backend guest).vm w).live l ∧
      (mem = true → Ran guest ((hv.backend guest).vm w).live l) ∧
      ∀ tr' w₂ e w₃, Trace.Run ((hv.backend guest).Step vm) w₁ tr' w₂ →
        (∀ out, .delete name out ∉ tr') → (hv.backend guest).Step vm w₂ e w₃ →
          Serves guest name ((hv.backend guest).captures mem l) ((hv.backend guest).vm w₃) e :=
  (hv.backend guest).kept vm hnodup hrun hcreate

/-- **A snapshot that was deleted is gone**, on libvirt, Proxmox and ESXi: once a deletion has
returned, and until the name is asked for again, no restore under it returns, no listing has it and
it is free to be taken. -/
theorem snapshots_gone (hv : Hypervisor) (vm : String) {w₀ w w₁ w₂ w₃ : (hv.backend guest).W}
    {tr tr' : List Event} {e : Event} (hnodup : ((hv.backend guest).vm w₀).names.Nodup)
    (hrun : Trace.Run ((hv.backend guest).Step vm) w₀ tr w)
    (hdelete : (hv.backend guest).Step vm w (.delete name (.ok ())) w₁)
    (hrun' : Trace.Run ((hv.backend guest).Step vm) w₁ tr' w₂)
    (hgone : ∀ mem out, .create name mem out ∉ tr') (hs : (hv.backend guest).Step vm w₂ e w₃) :
    Refuses name e :=
  (hv.backend guest).gone vm hnodup hrun hdelete hrun' hgone hs

/-! ### A VM that runs while nothing else happens -/

namespace Still

section Requests

variable {S : Sig} {H W : Type} {sem : Prog.Sem S Fault W} {d : Driver S H} {vm name : String}
  {w w' : W}

theorem create_ends {description : String} (hresolve : Prog.Ends sem (d.resolve vm) w (.ok ()) w)
    (hrunning : Prog.Ends sem (d.isRunning vm) w (.ok true) w)
    (hfind : Prog.Ends sem (d.find name) w (.ok none) w)
    (hcreate : Prog.Ends sem (d.create name description true) w (.ok ()) w') :
    Prog.Ends sem (d.createSnapshot vm name description true) w (.ok ()) w' :=
  .bind hresolve (.bind (.bind hrunning (.ret () w)) (.bind hfind hcreate))

theorem restore_ends {h : H} (hresolve : Prog.Ends sem (d.resolve vm) w (.ok ()) w)
    (hfind : Prog.Ends sem (d.find name) w (.ok (some h)) w)
    (hrevert : Prog.Ends sem (d.revert h) w (.ok ()) w') :
    Prog.Ends sem (d.restoreSnapshot vm name) w (.ok ()) w' :=
  .bind hresolve (.bind hfind hrevert)

theorem delete_ends {h : H} (hresolve : Prog.Ends sem (d.resolve vm) w (.ok ()) w)
    (hfind : Prog.Ends sem (d.find name) w (.ok (some h)) w)
    (hremove : Prog.Ends sem (d.remove h) w (.ok ()) w') :
    Prog.Ends sem (d.deleteSnapshot vm name) w (.ok ()) w' :=
  .bind hresolve (.bind hfind hremove)

theorem list_ends {names : List String} (hresolve : Prog.Ends sem (d.resolve vm) w (.ok ()) w)
    (hnames : Prog.Ends sem d.names w (.ok names) w) :
    Prog.Ends sem (d.listSnapshots vm) w (.ok names) w := .bind hresolve hnames

end Requests

def still (_ _ : Live ℕ ℕ) : Prop := False

def base : Snap ℕ ℕ := ⟨⟨"base", some 7⟩, ⟨1, some 2⟩⟩

/-- The VM without a snapshot, and with one. -/
def bare : Vm ℕ ℕ := ⟨⟨1, some 2⟩, []⟩

def taken : Vm ℕ ℕ := ⟨⟨1, some 2⟩, [base]⟩

theorem bare_fresh : bare.Fresh "base" := fun s hs => by cases hs

theorem taken_not_fresh : ¬ taken.Fresh "base" := fun h => h base List.mem_cons_self rfl

theorem added (capture : Bool → Live ℕ ℕ → Live ℕ ℕ) {mem : Bool}
    (hall : capture mem ⟨1, some 2⟩ = ⟨1, some 2⟩) : Added still capture "base" mem bare taken :=
  ⟨base, ⟨1, some 2⟩, rfl, hall.symm, .refl, .refl, .rfl⟩

theorem reverted : Reverted still "base" taken taken := ⟨base, List.mem_cons_self, rfl, .refl, .rfl⟩

theorem removed : Removed still "base" taken bare := ⟨base, rfl, .rfl, .refl⟩

/-- Over a hypervisor: a snapshot is taken, gone back to and deleted, and then none is listed. -/
structure Sample (hv : Hypervisor) (w w' : (hv.backend still).W) : Prop where
  bare : (hv.backend still).vm w = bare
  taken : (hv.backend still).vm w' = taken
  creates : (hv.backend still).Step "web" w (.create "base" true (.ok ())) w'
  restores : (hv.backend still).Step "web" w' (.restore "base" (.ok ())) w'
  deletes : (hv.backend still).Step "web" w' (.delete "base" (.ok ())) w
  lists : (hv.backend still).Step "web" w (.list (.ok [])) w

theorem libvirt_sample : Sample .libvirt bare taken := by
  have hresolve (v : Vm ℕ ℕ) : Prog.Ends (Libvirt.sem still) (Libvirt.driver.resolve "web") v (.ok ()) v :=
    .perform (Same.refl v)
  have hactive : Libvirt.sem still .isActive bare (.ok true) bare := ⟨.refl bare, _, .refl, rfl, .refl⟩
  have hlookup : Libvirt.sem still (.snapshotLookupByName "base") bare (.error .noDomainSnapshot) bare :=
    ⟨.inl rfl, .refl bare, fun _ => bare_fresh⟩
  have hfree : Prog.Ends (Libvirt.sem still) (Libvirt.driver.find "base") bare (.ok none) bare :=
    .bind (.attempt (.perform hlookup)) (.ret none bare)
  have hthere : Libvirt.sem still (.snapshotLookupByName "base") taken (.ok "base") taken :=
    ⟨.refl taken, rfl, taken_not_fresh⟩
  have hfound : Prog.Ends (Libvirt.sem still) (Libvirt.driver.find "base") taken (.ok (some "base")) taken :=
    .bind (.attempt (.perform hthere)) (.ret (some "base") taken)
  have hcreate : Libvirt.sem still (.snapshotCreateXml "base" "") bare (.ok ()) taken :=
    added Libvirt.checkpoint rfl
  have hrevert : Libvirt.sem still (.revertToSnapshot "base") taken (.ok ()) taken := reverted
  have hdelete : Libvirt.sem still (.delete "base") taken (.ok ()) bare := removed
  have hlist : Libvirt.sem still .listAllSnapshots bare (.ok []) bare := ⟨.refl bare, .nil⟩
  have hnone : oldestFirst [] = [] := by simp [oldestFirst]
  have hnames : Prog.Ends (Libvirt.sem still) Libvirt.driver.names bare (.ok []) bare := by
    refine .bind (.perform hlist) ?_
    rw [hnone]
    exact .ret [] bare
  exact ⟨rfl, rfl, ⟨"", create_ends (hresolve bare) (.perform hactive) hfree (.perform hcreate)⟩,
    restore_ends (hresolve taken) hfound (.perform hrevert),
    delete_ends (hresolve taken) hfound (.perform hdelete), list_ends (hresolve bare) hnames⟩

def pveBare : Proxmox.World ℕ ℕ := ⟨bare, fun s hs => by cases hs⟩

def pveTaken : Proxmox.World ℕ ℕ := ⟨taken, fun s hs => by rw [List.mem_singleton.mp hs]; decide⟩

/-- At the first attempt to delete it PVE has locked the VM. -/
theorem proxmox_sample : Sample .proxmox pveBare pveTaken := by
  have hresolve (w : Proxmox.World ℕ ℕ) :
      Prog.Ends (Proxmox.sem still) (Proxmox.driver.resolve "web") w (.ok ()) w :=
    .perform (Same.refl w.vm)
  have hstatus : Proxmox.sem still .status pveBare (.ok "running") pveBare :=
    ⟨.refl bare, _, .refl, rfl, .refl⟩
  have hrunning : Prog.Ends (Proxmox.sem still) (Proxmox.driver.isRunning "web") pveBare (.ok true) pveBare :=
    .bind (.bind (hresolve pveBare) (.bind (.perform hstatus) (.ret "running" pveBare)))
      (.ret true pveBare)
  have hget : Proxmox.sem still .snapshotGet pveBare (.ok [Proxmox.current]) pveBare :=
    ⟨.refl bare, .rfl⟩
  have hnone : oldestFirst ([Proxmox.current].filter (·.name != "current")) = [] := by
    simp [oldestFirst, Proxmox.current]
  have hnames : Prog.Ends (Proxmox.sem still) Proxmox.driver.names pveBare (.ok []) pveBare := by
    refine .bind (.perform hget) ?_
    rw [hnone]
    exact .ret [] pveBare
  have hfree : Prog.Ends (Proxmox.sem still) (Proxmox.driver.find "base") pveBare (.ok none) pveBare :=
    .bind hnames (.ret none pveBare)
  have hget' : Proxmox.sem still .snapshotGet pveTaken (.ok [Proxmox.current, base.toListed]) pveTaken :=
    ⟨.refl taken, .rfl⟩
  have hone : oldestFirst ([Proxmox.current, base.toListed].filter (·.name != "current")) = ["base"] := by
    simp [oldestFirst, Proxmox.current, base]
  have hfound : Prog.Ends (Proxmox.sem still) (Proxmox.driver.find "base") pveTaken (.ok (some "base"))
      pveTaken := by
    have hnames' : Prog.Ends (Proxmox.sem still) Proxmox.driver.names pveTaken (.ok ["base"]) pveTaken := by
      refine .bind (.perform hget') ?_
      rw [hone]
      exact .ret ["base"] pveTaken
    exact .bind hnames' (.ret (some "base") pveTaken)
  have hpost : Proxmox.sem still (.snapshotPost "base" "" true) pveBare (.ok ()) pveTaken :=
    added saves rfl
  have hrollback : Proxmox.sem still (.rollbackPost "base") pveTaken (.ok ()) pveTaken := reverted
  have hrevert : Prog.Ends (Proxmox.sem still) (Proxmox.driver.revert "base") pveTaken (.ok ()) pveTaken :=
    .bind (.attempt (.perform hrollback)) (.ret () pveTaken)
  -- The lock is held at first; then the deletion goes through.
  have hlocked : Proxmox.sem still (.snapshotDelete "base") pveTaken (.error .locked) pveTaken :=
    ⟨.inr (.inl rfl), fun _ => .refl taken, .inl (.refl taken)⟩
  have hsleep : Proxmox.sem still (.sleep Proxmox.lockRetryBackoff) pveTaken (.ok ()) pveTaken :=
    Same.refl taken
  have hdelete : Proxmox.sem still (.snapshotDelete "base") pveTaken (.ok ()) pveBare := removed
  have hremove : Prog.Ends (Proxmox.sem still) (Proxmox.driver.remove "base") pveTaken (.ok ()) pveBare :=
    .bind (.attempt (.perform hlocked)) (.bind (.perform hsleep)
      (.bind (.attempt (.perform hdelete)) (.ret () pveBare)))
  exact ⟨rfl, rfl, ⟨"", create_ends (hresolve pveBare) hrunning hfree (.perform hpost)⟩,
    restore_ends (hresolve pveTaken) hfound hrevert,
    delete_ends (hresolve pveTaken) hfound hremove, list_ends (hresolve pveBare) hnames⟩

def esxiBare : Esxi.World ℕ ℕ := ⟨⟨1, some 2⟩, .nil, List.nodup_nil⟩

def esxiTaken : Esxi.World ℕ ℕ := ⟨⟨1, some 2⟩, .cons (3, base) .nil .nil, List.nodup_singleton _⟩

theorem esxi_sample : Sample .esxi esxiBare esxiTaken := by
  have hresolve (w : Esxi.World ℕ ℕ) :
      Prog.Ends (Esxi.sem still) (Esxi.driver.resolve "web") w (.ok ()) w := .perform (Same.refl w.vm)
  have hpowered : Esxi.sem still .poweredOn esxiBare (.ok true) esxiBare :=
    ⟨.refl bare, _, .refl, rfl, .refl⟩
  have hinfo : Esxi.sem still .snapshotInfo esxiBare (.ok none) esxiBare := ⟨.refl bare, rfl⟩
  have hnodes : Prog.Ends (Esxi.sem still) Esxi.snapshotNodes esxiBare (.ok []) esxiBare :=
    .bind (.perform hinfo) (.ret [] esxiBare)
  have hinfo' : Esxi.sem still .snapshotInfo esxiTaken (.ok (some (esxiTaken.roots.map Esxi.shown)))
      esxiTaken := ⟨.refl taken, rfl⟩
  have hsorted : (Esxi.walkSnapshots (esxiTaken.roots.map Esxi.shown)).mergeSort
      (fun a b => decide (a.2.createTime ≤ b.2.createTime)) = [(3, base.toListed)] := by
    simp [esxiTaken, Esxi.Tree.map, Esxi.walkSnapshots, Esxi.shown]
  have hnodes' : Prog.Ends (Esxi.sem still) Esxi.snapshotNodes esxiTaken (.ok [(3, base.toListed)])
      esxiTaken := by
    refine .bind (.perform hinfo') ?_
    dsimp only
    rw [hsorted]
    exact .ret _ esxiTaken
  have hfree : Prog.Ends (Esxi.sem still) (Esxi.driver.find "base") esxiBare (.ok none) esxiBare :=
    .bind hnodes (.ret none esxiBare)
  have hfound : Prog.Ends (Esxi.sem still) (Esxi.driver.find "base") esxiTaken (.ok (some 3)) esxiTaken :=
    .bind hnodes' (.ret (some 3) esxiTaken)
  have hcreate : Esxi.sem still (.createSnapshot "base" "" true) esxiBare (.ok ()) esxiTaken :=
    added saves rfl
  have hrevert : Esxi.sem still (.revertToSnapshot 3) esxiTaken (.ok ()) esxiTaken :=
    ⟨base, List.mem_cons_self, .refl, .rfl⟩
  have hremove : Esxi.sem still (.removeSnapshot 3) esxiTaken (.ok ()) esxiBare := ⟨base, .rfl, .refl⟩
  exact ⟨rfl, rfl, ⟨"", create_ends (hresolve esxiBare) (.perform hpowered) hfree (.perform hcreate)⟩,
    restore_ends (hresolve esxiTaken) hfound (.perform hrevert),
    delete_ends (hresolve esxiTaken) hfound (.perform hremove),
    list_ends (hresolve esxiBare) (.bind hnodes (.ret [] esxiBare))⟩

end Still

open Still in
/-- On each of them what the snapshot holds has come back. -/
theorem snapshots_kept_still :
    (∃ l, Runs still ⟨1, some 2⟩ l ∧ Runs still (Libvirt.checkpoint true l) ⟨1, some 2⟩) ∧
    (∃ l, Runs still ⟨1, some 2⟩ l ∧ Runs still (saves true l) pveTaken.vm.live) ∧
    ∃ l, Runs still ⟨1, some 2⟩ l ∧ Runs still (saves true l) esxiTaken.vm.live := by
  have hnone : ∀ out, Event.delete "base" out ∉ [] := fun _ h => by cases h
  refine ⟨?_, ?_, ?_⟩
  · obtain ⟨l, hruns, -, hserves⟩ := @snapshots_kept ℕ ℕ still "base" true .libvirt "web" bare bare
      taken [] List.nodup_nil .start libvirt_sample.creates
    exact ⟨l, hruns, hserves [] taken _ taken .start hnone libvirt_sample.restores rfl⟩
  · obtain ⟨l, hruns, -, hserves⟩ := @snapshots_kept ℕ ℕ still "base" true .proxmox "web" pveBare
      pveBare pveTaken [] List.nodup_nil .start proxmox_sample.creates
    exact ⟨l, hruns, hserves [] pveTaken _ pveTaken .start hnone proxmox_sample.restores rfl⟩
  · obtain ⟨l, hruns, -, hserves⟩ := @snapshots_kept ℕ ℕ still "base" true .esxi "web" esxiBare
      esxiBare esxiTaken [] List.nodup_nil .start esxi_sample.creates
    exact ⟨l, hruns, hserves [] esxiTaken _ esxiTaken .start hnone esxi_sample.restores rfl⟩

open Still in
/-- On each of them the listing after the deletion does not have it. -/
theorem snapshots_gone_still :
    (Sample .libvirt bare taken ∧ Refuses "base" (.list (.ok []))) ∧
    (Sample .proxmox pveBare pveTaken ∧ Refuses "base" (.list (.ok []))) ∧
    Sample .esxi esxiBare esxiTaken ∧ Refuses "base" (.list (.ok [])) := by
  have hnone : ∀ mem out, Event.create "base" mem out ∉ [] := fun _ _ h => by cases h
  refine ⟨⟨libvirt_sample, ?_⟩, ⟨proxmox_sample, ?_⟩, esxi_sample, ?_⟩
  · exact @snapshots_gone ℕ ℕ still "base" .libvirt "web" taken taken bare bare bare [] []
      (.list (.ok [])) (List.nodup_singleton _) .start libvirt_sample.deletes .start hnone
      libvirt_sample.lists
  · exact @snapshots_gone ℕ ℕ still "base" .proxmox "web" pveTaken pveTaken pveBare pveBare pveBare
      [] [] (.list (.ok [])) (List.nodup_singleton _) .start proxmox_sample.deletes .start hnone
      proxmox_sample.lists
  · exact @snapshots_gone ℕ ℕ still "base" .esxi "web" esxiTaken esxiTaken esxiBare esxiBare esxiBare
      [] [] (.list (.ok [])) (List.nodup_singleton _) .start esxi_sample.deletes .start hnone
      esxi_sample.lists

end TestRange.Snapshots
