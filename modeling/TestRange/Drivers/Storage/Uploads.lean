/-
What an upload that returns has left on the backend, driver by driver.

* `uploads_kept` — the content of the first upload, where nothing else was done to the volume;
* `Esx.disk_uploaded` — a disk image that is uploaded to ESXi, and uploaded again;
* `second_upload_skipped` — a second upload with another file returns, and brings nothing.
-/
import TestRange.Drivers.Storage.Esxi
import TestRange.Drivers.Storage.Libvirt
import TestRange.Drivers.Storage.Proxmox

namespace TestRange.Storage

open Esxi (Data VolumeOp)

/-- **An upload brings its file to a vacant reference**, and leaves what an earlier one has
brought, on libvirt, Proxmox and ESXi. -/
theorem uploads_kept (pools : String → Bool) (store : Pve.Store) (host : Esxi.Host)
    (images : Esx.Images) : (Lv.storageModule pools).UploadsKept ∧
      (Pve.storageModule store).UploadsKept ∧ (Esx.storageModule host images).UploadsKept :=
  ⟨StorageModule.uploadsKept _, StorageModule.uploadsKept _, StorageModule.uploadsKept _⟩

/-! ### Disk images by their first bytes -/

namespace Esx

open Esxi (Datastore stageOf flatOf folderExists diskFiles parseVolumeRef)

/-- A file of a format is the mark of the format, with the disk behind it: `QFI` and `0xfb`, `KDMV`,
and `#` for a descriptor, whose disk is in the extent. -/
def marked : Images where
  Disk := Data
  qcow2
    | 81 :: 70 :: 73 :: 251 :: disk => some disk
    | _ => none
  hosted
    | 75 :: 68 :: 77 :: 86 :: disk => some disk
    | _ => none
  managed
    | 35 :: _, extent => some extent
    | _, _ => none
  convert
    | 81 :: 70 :: 73 :: 251 :: disk => some (75 :: 68 :: 77 :: 86 :: disk)
    | _ => none
  convert_spec := by
    intro source vmdk h
    split at h
    · cases h
      exact ⟨_, rfl, rfl⟩
    · cases h

def lab : Esxi.Host where
  datastore := "ssd1"
  digest := fun _ => "0a1b2c"
  qcow2ToVmdk := id
  driver := ⟨fun _ => "vSwitch0", fun _ switchBackend => switchBackend⟩
  datastore_ne := by decide
  datastore_plain := by decide
  digest_plain := fun _ => List.all_eq_true.mp (by decide)

/-- The disk of a VM, where it is and where it is staged. -/
def webRef : String := "[ssd1] tr-pool/web.vmdk"

def webPath : String := "tr-pool/web.vmdk"

theorem isPath_web : IsPath lab webRef webPath :=
  show parseVolumeRef webRef = some ("ssd1", webPath) by decide

theorem isRef_web : IsRef lab webRef :=
  ⟨"tr-pool", "web.qcow2", Esxi.plain_of_all (by decide), Esxi.plain_of_all (by decide), by decide⟩

/-- An image with the disk `1 2`, what is staged of it, and the datastore with the disk. -/
def webImage : Data := [81, 70, 73, 251, 1, 2]

def webStaged : Data := [75, 68, 77, 86, 1, 2]

def staging : Datastore := Function.update (fun _ => none) (stageOf webPath) (some webStaged)

def copied : Datastore :=
  Function.update (Function.update staging webPath (some [35])) (flatOf webPath) (some [1, 2])

def uploaded : Datastore :=
  Function.update (Function.update copied (stageOf webPath) none) (flatOf (stageOf webPath)) none

theorem runs_upload : ∃ tr, Prog.Runs (sem lab marked) (program lab marked webRef (.upload webImage))
    (fun _ => none) tr (.ok ()) uploaded := by
  -- Nothing is there, so the image is converted, staged beside its place and copied.
  have hexists : sem lab marked (.folderExists webPath) (fun _ => none) (.ok false) fun _ => none := by
    refine ⟨⟨fun _ _ => rfl, fun a h => ?_, fun _ h => by cases h⟩, fun _ _ h => by cases h⟩
    cases h
    rfl
  have hput : sem lab marked (.folderPut (stageOf webPath) webStaged) (fun _ => none) (.ok ()) staging :=
    ⟨⟨fun p hp => Function.update_of_ne hp _ _, fun _ _ => Function.update_self .., fun _ h => by cases h⟩,
      fun _ _ h => by cases h⟩
  have hcopy : sem lab marked (.copyVirtualDisk ("[ssd1] " ++ stageOf webPath) webRef) staging (.ok ())
      copied := by
    have hfiles : diskFiles lab webRef = {webPath, flatOf webPath} := Esxi.diskFiles_eq isPath_web
    refine ⟨⟨fun p hp => ?_, fun _ _ p hp => ?_, fun _ h => by cases h⟩, ?_⟩
    · have hp : p ∉ diskFiles lab webRef := hp
      rw [hfiles] at hp
      obtain ⟨hpath, hflat⟩ := not_or.mp hp
      rw [copied, Function.update_of_ne hflat, Function.update_of_ne hpath]
    · rw [hfiles] at hp
      rcases hp with rfl | rfl <;> decide
    · intro sourceName destName heq _ source dest hsource hdest
      cases heq
      have hstage : parseVolumeRef ("[ssd1] " ++ stageOf webPath) =
          some ("ssd1", stageOf webPath) := by decide
      obtain ⟨-, rfl⟩ := Prod.mk.inj (Option.some.inj (hstage.symm.trans hsource))
      obtain ⟨-, rfl⟩ := Prod.mk.inj (Option.some.inj (isPath_web.symm.trans hdest))
      exact ⟨webStaged, [1, 2], by decide, rfl, [35], [1, 2], by decide, by decide, rfl⟩
  -- Of what was staged there is a descriptor, and no extent.
  have hdrop : sem lab marked (.folderDelete (stageOf webPath)) copied (.ok true)
      (Function.update copied (stageOf webPath) none) := by
    have hthere : copied (stageOf webPath) = some webStaged := by decide
    refine ⟨⟨fun p hp => Function.update_of_ne hp _ _, fun a h => ?_, fun _ h => by cases h⟩,
      fun _ _ h => by cases h⟩
    cases h
    exact ⟨by rw [hthere]; rfl, Function.update_self ..⟩
  have hrest : sem lab marked (.folderDelete (flatOf (stageOf webPath)))
      (Function.update copied (stageOf webPath) none) (.ok false) uploaded := by
    have hnone : Function.update copied (stageOf webPath) none (flatOf (stageOf webPath)) = none := by
      decide
    refine ⟨⟨fun p hp => Function.update_of_ne hp _ _, fun a h => ?_, fun _ h => by cases h⟩,
      fun _ _ h => by cases h⟩
    cases h
    exact ⟨by rw [hnone]; rfl, Function.update_self ..⟩
  have hprogram : program lab marked webRef (.upload webImage) =
      (folderExists webPath).bind fun found =>
        if found then pure () else ingest lab webPath webRef webStaged := by
    unfold program uploadFile
    rw [dsPath_eq isPath_web]
    rfl
  rw [hprogram]
  exact ⟨_, .call hexists (.call hput (.call hcopy (.call hdrop (.call hrest (.ret () uploaded)))))⟩

/-- Another image with other content. -/
def otherImage : Data := [81, 70, 73, 251, 3]

theorem runs_upload_again : ∃ tr, Prog.Runs (sem lab marked)
    (program lab marked webRef (.upload otherImage)) uploaded tr (.ok ()) uploaded := by
  have hthere : uploaded webPath = some [35] := by decide
  have hexists : sem lab marked (.folderExists webPath) uploaded (.ok true) uploaded := by
    refine ⟨⟨fun _ _ => rfl, fun a h => ?_, fun _ h => by cases h⟩, fun _ _ h => by cases h⟩
    cases h
    show true = (uploaded webPath).isSome
    rw [hthere]
    rfl
  have hprogram : program lab marked webRef (.upload otherImage) =
      (folderExists webPath).bind fun found =>
        if found then pure () else ingest lab webPath webRef [75, 68, 77, 86, 3] := by
    unfold program uploadFile
    rw [dsPath_eq isPath_web]
    rfl
  rw [hprogram]
  exact ⟨_, .call hexists (.ret () uploaded)⟩

/-- A disk image that is uploaded to ESXi is the disk at its reference, and it still is when another
image was uploaded there. -/
theorem disk_uploaded : ∃ first again, (storageModule lab marked).Step (fun _ => none) first uploaded ∧
    (storageModule lab marked).IsUpload first webRef webImage ∧ Holds lab marked webRef webImage uploaded ∧
    (storageModule lab marked).Step uploaded again uploaded ∧
    (storageModule lab marked).IsUpload again webRef otherImage ∧
    (storageModule lab marked).Brought [first] webRef webImage := by
  obtain ⟨tr₁, hrun₁⟩ := runs_upload
  obtain ⟨tr₂, hrun₂⟩ := runs_upload_again
  obtain ⟨-, -, hkept⟩ := uploads_kept (fun _ => true) ⟨"local", "/var/lib/vz"⟩ lab marked
  let first : (storageModule lab marked).Event := ⟨webRef, .upload webImage, .returned, fun _ => none⟩
  let again : (storageModule lab marked).Event := ⟨webRef, .upload otherImage, .returned, uploaded⟩
  have hpasses : Passes lab marked webRef webImage := by
    intro path hpath himage
    obtain ⟨-, rfl⟩ := Prod.mk.inj (Option.some.inj (isPath_web.symm.trans hpath))
    exact absurd himage (by decide)
  have hfirst : (storageModule lab marked).Step (fun _ => none) first uploaded :=
    ⟨isRef_web, rfl, tr₁, hrun₁⟩
  have hagain : (storageModule lab marked).Step uploaded again uploaded := ⟨isRef_web, rfl, tr₂, hrun₂⟩
  have hbrought : (storageModule lab marked).Brought [first] webRef webImage :=
    ⟨[], first, [], rfl, ⟨rfl, rfl, rfl⟩, hpasses, fun _ _ => rfl, fun _ h => by cases h⟩
  have hholds : Holds lab marked webRef webImage uploaded :=
    (hkept _ [first] uploaded again uploaded (.step .start hfirst) hagain webRef otherImage
      ⟨rfl, rfl, rfl⟩).2 webImage hbrought
  exact ⟨first, again, hfirst, ⟨rfl, rfl, rfl⟩, hholds, hagain, ⟨rfl, rfl, rfl⟩, hbrought⟩

end Esx

/-! ### Two uploads to one reference -/

namespace Lv

/-- A daemon all of whose calls succeed. -/
def daemon (pools : String → Bool) : Prog.Handler sig Fault Volumes
  | .lookupPool pool, w => (.ok (pools pool), w)
  | .lookupVolume pool vol, w => (.ok (pools pool && (w (pool, vol)).isSome), w)
  | .delete pool vol, w => (.ok (), Function.update w (pool, vol) none)
  | .createXml pool vol _ _, w => (.ok (), Function.update w (pool, vol) (some []))
  | .finish (.into pool vol data), w => (.ok (), Function.update w (pool, vol) (some data))
  | .finish (.out _ _), w => (.ok (), w)
  | .resize _ _ _, w => (.ok (), w)
  | .refresh _, w => (.ok (), w)
  | .newStream, w => (.ok (), w)
  | .attach _ _, w => (.ok (), w)
  | .pump _, w => (.ok (), w)
  | .abort _, w => (.ok (), w)

/-- What a call of the daemon does is what such a call may do. -/
theorem daemon_sem (pools : String → Bool) (o : Op) (w : Volumes) :
    sem pools o w (daemon pools o w).1 (daemon pools o w).2 := by
  cases o with
  | delete pool vol =>
    exact ⟨fun k hk => Function.update_of_ne hk _ _, by simp [daemon, Done], by simp [daemon]⟩
  | createXml pool vol capacityBytes format =>
    exact ⟨fun k hk => Function.update_of_ne hk _ _, by simp [daemon, Done], by simp [daemon]⟩
  | finish stream =>
    cases stream with
    | into pool vol data =>
      exact ⟨fun k hk => Function.update_of_ne hk _ _, by simp [daemon, Done], by simp [daemon]⟩
    | out pool vol => exact ⟨fun _ _ => rfl, by simp [daemon, Done], by simp [daemon]⟩
  | _ => exact ⟨fun _ _ => rfl, by simp [daemon, Done], by simp [daemon]⟩

/-- A pool with the volume that the first upload brings. -/
def uploaded : Volumes :=
  Function.update (Function.update (fun _ => none) ("tr-pool", "web.qcow2") (some []))
    ("tr-pool", "web.qcow2") (some [1])

theorem second_upload_skipped : ¬ (storageModule fun _ => true).UploadsExact := by
  have hsplit : splitRef "tr-pool/web.qcow2" = .ok ("tr-pool", "web.qcow2") := rfl
  refine @StorageModule.not_uploadsExact (storageModule fun _ => true) uploaded uploaded _
    (daemon_sem fun _ => true) "tr-pool/web.qcow2" [1] [2] ⟨"tr-pool", "web.qcow2", rfl⟩ trivial ?_ ?_ ?_
  · rfl
  · rfl
  · rintro ⟨k, hk, -, hcontent⟩
    obtain rfl : ("tr-pool", "web.qcow2") = k := Except.ok.inj (hsplit.symm.trans hk)
    exact absurd hcontent (by decide)

end Lv

end TestRange.Storage
