/-
The storage module of the Proxmox driver.

A volume is a file in the content directory of a storage, and it is listed as soon as it is
there.  Files are put over SFTP, onto their own names.

* `composeVolumeRef`, `volidRelpath` — volumes and their files;
* `uploadToPool`, `writeToPool`, `downloadFromPool`, `deleteVolume` — the operations;
* `Done`, `sem` — what the calls to the host may do;
* `storageModule` — what is made of them.
-/
import TestRange.Drivers.Storage.Spec

namespace TestRange.Storage

open Esxi (Data VolumeOp)

namespace Pve

/-! ### Volumes and files -/

/-- A storage of a host: its name and the path the host has it at. -/
structure Store where
  storage : String
  path : String

/-- The volume of a name: images are `iso` content, all else is `import` content. -/
def composeVolumeRef (storage poolBackendName volName : String) : String :=
  let content := if ".iso".toList.isSuffixOf volName.toList then "iso" else "import"
  storage ++ ":" ++ content ++ "/" ++
    String.ofList (subRuns isNameChar false (poolBackendName ++ "__" ++ volName).toList)

/-- The file of a volume below the path of its storage.  Disks of VMs are under the id of the
VM. -/
def volidRelpath (volid : String) : Option String :=
  match volid.toList.dropWhile (· ≠ ':') with
  | [] => none
  | _ :: rest =>
    let head := rest.takeWhile (· ≠ '/')
    let filename := String.ofList (rest.dropWhile (· ≠ '/')).tail
    if head = "iso".toList then some ("template/iso/" ++ filename)
    else if head = "import".toList then some ("import/" ++ filename)
    else if head ≠ [] ∧ head.all Char.isDigit then
      some ("images/" ++ String.ofList head ++ "/" ++ filename)
    else none

/-- `s.rstrip("/")` -/
def stripSlashes (s : String) : String :=
  String.ofList (s.toList.reverse.dropWhile (· = '/')).reverse

/-- `PurePosixPath(path).parent` of the file at a path. -/
def parentOf (path : String) : String :=
  String.ofList (path.toList.reverse.dropWhile (· ≠ '/')).tail.reverse

/-- `Path(path).name` -/
def nameOf (path : String) : String :=
  String.ofList (path.toList.reverse.takeWhile (· ≠ '/')).reverse

variable (store : Store)

/-- The file of a volume on the host. -/
def fileOf (volid : String) : Option String :=
  (volidRelpath volid).map fun rel => stripSlashes store.path ++ "/" ++ rel

/-- The references of the orchestrator. -/
def IsRef (ref : String) : Prop :=
  ∃ pool stem ext, ext ∈ [".qcow2", ".iso"] ∧ ref = composeVolumeRef store.storage pool (stem ++ ext)

/-! ### Calls -/

inductive Fault
  /-- `DriverError` of a transfer, by the name of the file. -/
  | uploadFailed (name : String)
  /-- `ValueError` -/
  | badVolid (volid : String)
  /-- Whatever a call raises. -/
  | call

inductive Op
  /-- The volumes on the storage. -/
  | content
  | deleteContent (volid : String)
  /-- Where the storage is, which fails for one without a path. -/
  | storagePath
  | openSftp
  | makedirs (path : String)
  | put (data : Data) (remotePath : String)
  | get (remotePath : String)
  | closeSftp
  /-- The volume of a running VM's disk, from the configuration of the VM. -/
  | liveVolid (ref : String)

abbrev sig : Sig where
  Op := Op
  Res
    | .content => List String
    | .liveVolid _ => String
    | _ => Unit

abbrev Files := String → Option Data

/-- The files a call may change. -/
def touched : Op → Set String
  | .deleteContent volid => {p | fileOf store volid = some p}
  | .put _ remotePath => {remotePath}
  | _ => ∅

/-- What a call that returns has done: what is listed has a file. -/
def Done : (o : Op) → Files → sig.Res o → Files → Prop
  | .content, w, volids, _ => ∀ ref, IsRef store ref →
      (ref ∈ volids ↔ ∃ p, fileOf store ref = some p ∧ (w p).isSome)
  | .deleteContent volid, _, _, w' => ∀ p, fileOf store volid = some p → w' p = none
  | .put data remotePath, _, _, w' => w' remotePath = some data
  | _, _, _, _ => True

/-- A call that raises may have done some of it: a part of the file has been written. -/
def sem : Prog.Sem sig Fault Files :=
  fun o w r w' => (∀ p, p ∉ touched store o → w' p = w p) ∧
    (∀ a, r = .ok a → Done store o w a w') ∧ ∀ e, r = .error e → e = .call

/-! ### The operations -/

abbrev Act := Prog sig Fault

def op (o : Op) : Act (sig.Res o) := Prog.perform (S := sig) o

def hostPath (volid : String) : Act String := do
  op .storagePath
  match fileOf store volid with
  | some path => pure path
  | none => throw (.badVolid volid)

/-- Write a file onto its own name, making directories. -/
def sftpPut (source : Data) (remotePath : String) : Act Unit := do
  op .openSftp
  Prog.tryFinally
    (tryCatch
      (do op (.makedirs (parentOf remotePath))
          op (.put source remotePath))
      fun _ => throw (.uploadFailed (nameOf remotePath)))
    (op .closeSftp)

def contentVolumeExists (volid : String) : Act Bool := do
  let volids ← op .content
  pure (decide (volid ∈ volids))

def writeToPool (ref : String) (data : Data) : Act Unit := do
  let path ← hostPath store ref
  sftpPut data path

def uploadToPool (ref : String) (source : Data) : Act Unit := do
  if ← contentVolumeExists ref then pure ()
  else
    let path ← hostPath store ref
    sftpPut source path

def downloadFromPool (ref : String) : Act Unit := do
  let volid ← op (.liveVolid ref)
  let path ← hostPath store volid
  op .openSftp
  Prog.tryFinally (op (.get path)) (op .closeSftp)

def deleteVolume (ref : String) : Act Unit := do
  if ← contentVolumeExists ref then op (.deleteContent ref) else pure ()

/-- Blank disks are made, and disks resized, when the VM is created. -/
def program (ref : String) : VolumeOp → Act Unit
  | .upload source => uploadToPool store ref source
  | .createBlank _ => pure ()
  | .resize _ => pure ()
  | .write data => writeToPool store ref data
  | .delete => deleteVolume ref
  | .download => downloadFromPool store ref

/-! ### Where volumes are -/

def place (ref : String) : Set String := {p | fileOf store ref = some p}

def Vacant (ref : String) (w : Files) : Prop := ∀ p ∈ place store ref, w p = none

def Holds (ref : String) (source : Data) (w : Files) : Prop := ∃ p ∈ place store ref, w p = some source

section Laws

variable {store : Store} {ref : String} {source : Data} {w : Files}

theorem framed : Prog.Framed (sem store) (touched store) := fun _ _ _ _ h => h.1

theorem holds_congr {w' : Files} (h : ∀ p ∈ place store ref, w' p = w p)
    (hholds : Holds store ref source w) : Holds store ref source w' := by
  obtain ⟨p, hp, hcontent⟩ := hholds
  exact ⟨p, hp, by rw [h p hp, hcontent]⟩

theorem occupied (h : Holds store ref source w) : ¬ Vacant store ref w := by
  intro hvacant
  obtain ⟨p, hp, hcontent⟩ := h
  rw [hvacant p hp] at hcontent
  cases hcontent

/-- What follows `_host_path` is about the file of the volume. -/
theorem within_hostPath {own : Set String} {volid : String} {f : String → Act Unit}
    (hf : ∀ path, fileOf store volid = some path → (f path).Within (touched store) own) :
    (hostPath store volid >>= f).Within (touched store) own := by
  refine ⟨Set.empty_subset _, fun r => ?_⟩
  cases r with
  | error e => trivial
  | ok _ =>
    cases hfile : fileOf store volid with
    | none =>
      simp only [Prog.ofExcept_ok, Prog.bind_ret, Prog.throw_eq_raise, Prog.bind_raise]
      trivial
    | some path =>
      simp only [Prog.ofExcept_ok, Prog.bind_ret, Prog.pure_eq_ret]
      exact hf path hfile

theorem wp_hostPath {crash : Files → Prop} {Q : Unit → Files → Prop} {volid : String}
    {f : String → Act Unit} (hcrash : crash w)
    (hf : ∀ path, fileOf store volid = some path →
      (f path).wp (.ofSem (sem store) crash) Q (fun _ _ => True) w) :
    (hostPath store volid >>= f).wp (.ofSem (sem store) crash) Q (fun _ _ => True) w := by
  refine ⟨hcrash, fun r w₁ h => ?_⟩
  obtain rfl : w₁ = w := framed.quiet rfl h
  cases r with
  | error e => trivial
  | ok _ =>
    cases hfile : fileOf store volid with
    | none =>
      simp only [Prog.ofExcept_ok, Prog.bind_ret, Prog.throw_eq_raise, Prog.bind_raise]
      trivial
    | some path =>
      simp only [Prog.ofExcept_ok, Prog.bind_ret, Prog.pure_eq_ret]
      exact hf path hfile

theorem within_sftpPut {own : Set String} {path : String} (hpath : path ∈ own) (data : Data) :
    (sftpPut data path).Within (touched store) own := by
  refine .bind (.perform (Set.empty_subset _)) fun _ => ?_
  refine .tryFinally ?_ (.perform (Set.empty_subset _))
  refine .tryCatch (.bind (.perform (Set.empty_subset _)) fun _ => ?_) fun _ => trivial
  exact .perform (Set.singleton_subset_iff.mpr hpath)

theorem within_exists {own : Set String} {f : Bool → Act Unit}
    (hf : ∀ found, (f found).Within (touched store) own) :
    (contentVolumeExists ref >>= f).Within (touched store) own :=
  .bind (.bind (.perform (Set.empty_subset _)) fun _ => trivial) hf

theorem within_program (ref : String) (o : VolumeOp) :
    (program store ref o).Within (touched store) (place store ref) := by
  cases o with
  | upload source =>
    refine within_exists fun found => ?_
    cases found with
    | true => trivial
    | false => exact within_hostPath fun path hpath => within_sftpPut hpath source
  | createBlank sizeGb => trivial
  | resize sizeGb => trivial
  | write data => exact within_hostPath fun path hpath => within_sftpPut hpath data
  | delete =>
    refine within_exists fun found => ?_
    cases found with
    | true => exact .perform (le_refl _)
    | false => trivial
  | download =>
    refine .bind (.perform (Set.empty_subset _)) fun volid => ?_
    refine within_hostPath fun path _ => .bind (.perform (Set.empty_subset _)) fun _ => ?_
    exact .tryFinally (.perform (Set.empty_subset _)) (.perform (Set.empty_subset _))

/-- A put that returns has brought all of it. -/
theorem sftpPut_wp (path : String) (w : Files) :
    (sftpPut source path).wp (.ofSem (sem store) fun _ => True)
      (fun _ w' => w' path = some source) (fun _ _ => True) w := by
  refine Prog.wp_seq Prog.wp_any fun _ w₁ _ => ?_
  rw [Prog.wp_tryFinally]
  have hclose : ∀ w₂ : Files, w₂ path = some source →
      (op .closeSftp).wp (.ofSem (sem store) fun _ => True) (fun _ w' => w' path = some source)
        (fun _ _ => True) w₂ := by
    intro w₂ hcontent
    refine Prog.wp_perform.mpr ⟨trivial, fun _ w' h => ?_, fun _ _ _ => trivial⟩
    rwa [framed.quiet rfl h]
  have hput : (Prog.bind (op (.makedirs (parentOf path))) fun _ => op (.put source path)).wp
      (.ofSem (sem store) fun _ => True) (fun _ w' => w' path = some source) (fun _ _ => True) w₁ := by
    refine Prog.wp_seq Prog.wp_any fun _ w₂ _ => ?_
    exact Prog.wp_perform.mpr ⟨trivial, fun _ _ h => h.2.1 () rfl, fun _ _ _ => trivial⟩
  show (Prog.tryCatch _ _).wp _ _ _ _
  rw [Prog.wp_tryCatch]
  refine Prog.wp_mono (fun _ w₂ h => hclose w₂ h) (fun _ _ _ => ?_) hput
  exact Prog.wp_any

/-- The listing tells whether there is a file. -/
theorem wp_exists {crash : Files → Prop} {Q : Unit → Files → Prop} {E : Fault → Files → Prop}
    {f : Bool → Act Unit} (href : IsRef store ref) (hcrash : crash w) (hE : ∀ e, E e w)
    (hf : ∀ found : Bool, (found = true ↔ ¬ Vacant store ref w) →
      (f found).wp (.ofSem (sem store) crash) Q E w) :
    (contentVolumeExists ref >>= f).wp (.ofSem (sem store) crash) Q E w := by
  refine ⟨hcrash, fun r w₁ h => ?_⟩
  obtain rfl : w₁ = w := framed.quiet rfl h
  cases r with
  | error e => exact hE e
  | ok volids =>
    refine hf _ ?_
    have hlisted := h.2.1 volids rfl ref href
    rw [decide_eq_true_iff, hlisted]
    simp [Vacant, place, Option.isSome_iff_ne_none]

theorem uploads (href : IsRef store ref) (hvacant : Vacant store ref w) :
    (program store ref (.upload source)).wp (.ofSem (sem store) fun _ => True)
      (fun _ w' => Holds store ref source w') (fun _ _ => True) w := by
  refine wp_exists href trivial (fun _ => trivial) fun found hfound => ?_
  cases found with
  | true => exact absurd hvacant (hfound.mp rfl)
  | false =>
    refine wp_hostPath trivial fun path hpath => ?_
    exact Prog.wp_mono (fun _ w' h => ⟨path, hpath, h⟩) (fun _ _ h => h) (sftpPut_wp path w)

theorem skips (href : IsRef store ref) (hoccupied : ¬ Vacant store ref w) :
    (program store ref (.upload source)).Still (sem store) w := by
  refine wp_exists href rfl (fun _ => rfl) fun found hfound => ?_
  obtain rfl : found = true := hfound.mpr hoccupied
  rfl

theorem reads (ref : String) : (program store ref .download).Still (sem store) w := by
  refine Prog.Within.still framed ?_
  refine .bind (.perform (le_refl _)) fun volid => ?_
  refine within_hostPath fun path _ => .bind (.perform (le_refl _)) fun _ => ?_
  exact .tryFinally (.perform (le_refl _)) (.perform (le_refl _))

end Laws

/-- The storage module of Proxmox, on a storage. -/
def storageModule (store : Store) : StorageModule where
  S := sig
  ε := Fault
  K := String
  sem := sem store
  foot := touched store
  program := program store
  IsRef := IsRef store
  Passes := fun _ _ => True
  place := place store
  reach := place store
  Vacant := Vacant store
  Holds := Holds store
  framed := framed
  within := fun _ => within_program _
  holds_congr := holds_congr
  occupied := occupied
  uploads := fun href _ => uploads href
  skips := skips
  reads := fun _ => reads _

end Pve

end TestRange.Storage
