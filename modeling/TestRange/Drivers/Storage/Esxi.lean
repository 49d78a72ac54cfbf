/-
The storage module of the ESXi driver, with what it does to the content of images.

An image is converted before anything is sent; what `qemu-img` cannot read as qcow2 is not
uploaded at all.  The converted image is staged, and copied into a disk at the reference.

* `Images` — the formats of disk images;
* `uploadFile` — an upload of a file that may be no disk image;
* `sem` — what the calls to the host may do, with the disk that a copy makes;
* `storageModule` — what is made of them.
-/
import TestRange.Drivers.Storage.Spec

namespace TestRange.Storage

open Esxi (Data VolumeOp Act Datastore DsOp Fault dsSig dsOp dsSem dsPath folderExists dropStage
  stemOf flatOf stageOf files touched diskFiles parseVolumeRef composeVolumeRef backendFilename
  PathChars Plain)

namespace Esx

/-- The formats of disk images, by the disk that is read of a file: `qcow2`, the hosted `vmdk` that
is staged, and the descriptor and the extent of a managed disk. -/
structure Images where
  Disk : Type
  qcow2 : Data → Option Disk
  hosted : Data → Option Disk
  managed : Data → Data → Option Disk
  /-- `qemu-img convert -f qcow2 -O vmdk -o subformat=monolithicSparse` -/
  convert : Data → Option Data
  convert_spec : ∀ {source vmdk}, convert source = some vmdk →
    ∃ disk, qcow2 source = some disk ∧ hosted vmdk = some disk

variable (host : Esxi.Host) (images : Images)

/-! ### The operations -/

/-- Stage an image, and copy it into a disk. -/
def ingest (path ref : String) (vmdk : Data) : Act Unit := do
  let stageRel := stageOf path
  let stageRef := "[" ++ host.datastore ++ "] " ++ stageRel
  dsOp (.folderPut stageRel vmdk)
  Prog.tryFinally (dsOp (.copyVirtualDisk stageRef ref)) (dropStage stageRel)

/-- `upload_to_pool` of a file that may be no image. -/
def uploadFile (ref : String) (source : Data) : Act Unit := do
  let path ← dsPath host ref
  if ← folderExists path then pure ()
  else
    match images.convert source with
    | some vmdk => ingest host path ref vmdk
    | none => throw .call

/-- The upload of an image. -/
theorem uploadFile_eq {source : Data} (h : images.convert source = some (host.qcow2ToVmdk source))
    (ref : String) : uploadFile host images ref source = Esxi.uploadToPool host ref source := by
  unfold uploadFile
  rw [h]
  rfl

def program (ref : String) : VolumeOp → Act Unit
  | .upload source => uploadFile host images ref source
  | o => Esxi.volumeProgram host ref o

/-! ### Disks -/

/-- The managed disk at a path. -/
def DiskAt (d : Datastore) (path : String) (disk : images.Disk) : Prop :=
  ∃ descriptor extent, d path = some descriptor ∧ d (flatOf path) = some extent ∧
    images.managed descriptor extent = some disk

/-- What a copy that returns has made. -/
def Copied (d : Datastore) (sourceName destName : String) (d' : Datastore) : Prop :=
  ∀ source dest, parseVolumeRef sourceName = some (host.datastore, source) →
    parseVolumeRef destName = some (host.datastore, dest) →
    ∃ vmdk disk, d source = some vmdk ∧ images.hosted vmdk = some disk ∧ DiskAt images d' dest disk

/-- What the calls may do; of a copy that raises, any part may be there. -/
def sem : Prog.Sem dsSig Fault Datastore :=
  fun o d r d' => dsSem host o d r d' ∧
    ∀ sourceName destName, o = .copyVirtualDisk sourceName destName → (∃ a, r = .ok a) →
      Copied host images d sourceName destName d'

/-! ### Where volumes are -/

/-- The references of the orchestrator. -/
def IsRef (ref : String) : Prop :=
  ∃ pool name, Plain pool ∧ Plain name ∧ ref = composeVolumeRef host.datastore pool name

/-- The path of a reference. -/
def IsPath (ref path : String) : Prop := parseVolumeRef ref = some (host.datastore, path)

def isImage (path : String) : Bool := ".iso".toList.isSuffixOf path.toList

/-- An installer image is no disk image. -/
def Passes (ref : String) (source : Data) : Prop :=
  ∀ path, IsPath host ref path → isImage path = true → images.qcow2 source = none

def place (ref : String) : Set String := {p | ∃ path, IsPath host ref path ∧ (p = path ∨ p = flatOf path)}

def reach (ref : String) : Set String := {p | ∃ path, IsPath host ref path ∧ p ∈ files path}

def Vacant (ref : String) (d : Datastore) : Prop := ∀ path, IsPath host ref path → d path = none

/-- An image has the bytes of the file, a disk is the disk of the file. -/
def Holds (ref : String) (source : Data) (d : Datastore) : Prop :=
  ∃ path, IsPath host ref path ∧
    if isImage path then d path = some source
    else ∃ disk, images.qcow2 source = some disk ∧ DiskAt images d path disk

section Laws

variable {host : Esxi.Host} {images : Images} {ref path : String} {source : Data} {d : Datastore}

theorem framed : Prog.Framed (sem host images) (touched host) := fun _ _ _ _ h => h.1.1

theorem holds_congr {d' : Datastore} (h : ∀ p ∈ place host ref, d' p = d p)
    (hholds : Holds host images ref source d) : Holds host images ref source d' := by
  obtain ⟨path, hpath, hcontent⟩ := hholds
  have hfile : d' path = d path := h path ⟨path, hpath, .inl rfl⟩
  have hflat : d' (flatOf path) = d (flatOf path) := h _ ⟨path, hpath, .inr rfl⟩
  refine ⟨path, hpath, ?_⟩
  unfold DiskAt at hcontent ⊢
  rwa [hfile, hflat]

theorem occupied (h : Holds host images ref source d) : ¬ Vacant host ref d := by
  intro hvacant
  obtain ⟨path, hpath, hcontent⟩ := h
  rw [hvacant path hpath] at hcontent
  split_ifs at hcontent with himage
  obtain ⟨disk, -, descriptor, extent, hfile, -⟩ := hcontent
  rw [hvacant path hpath] at hfile
  cases hfile

/-! ### Paths -/

theorem mem_stemOf {c : Char} (h : c ∈ (stemOf path).toList) : c ∈ path.toList := by
  unfold stemOf at h
  split at h
  · exact h
  · rename_i dot rest hdrop
    rw [String.toList_ofList, List.mem_reverse] at h
    have hsuffix := List.dropWhile_suffix (l := path.toList.reverse) (p := (· ≠ '.'))
    rw [hdrop] at hsuffix
    exact List.mem_reverse.mp (hsuffix.subset (List.mem_cons_of_mem _ h))

/-- A reference of the orchestrator names a path. -/
theorem exists_path (h : IsRef host ref) : ∃ path, IsPath host ref path ∧ PathChars path := by
  obtain ⟨pool, name, hpool, hname, rfl⟩ := h
  have hfile : Plain (backendFilename name) := by
    unfold backendFilename
    split_ifs
    · exact hname
    · exact Esxi.Plain.append (fun c hc => hname c (mem_stemOf hc)) (Esxi.plain_of_all (by decide))
  have hchars : PathChars (pool ++ "/" ++ backendFilename name) := by
    intro c hc
    simp only [String.toList_append, List.mem_append] at hc
    rcases hc with (hc | hc) | hc
    · exact .inl (hpool c hc)
    · exact .inr (by simpa using hc)
    · exact .inl (hfile c hc)
  refine ⟨_, ?_, hchars⟩
  show parseVolumeRef ("[" ++ host.datastore ++ "] " ++ (pool ++ "/" ++ backendFilename name)) = _
  exact Esxi.parseVolumeRef_compose host.datastore_ne host.datastore_plain (by simp) hchars

/-- The staging file is named by the reference that the copy is asked for. -/
theorem isPath_stage (h : PathChars path) :
    IsPath host ("[" ++ host.datastore ++ "] " ++ stageOf path) (stageOf path) := by
  refine Esxi.parseVolumeRef_compose host.datastore_ne host.datastore_plain (by simp [stageOf]) ?_
  intro c hc
  rw [stageOf, String.toList_append, List.mem_append] at hc
  rcases hc with hc | hc
  · exact h c (mem_stemOf hc)
  · exact .inl (Esxi.plain_of_all (by decide) c hc)

theorem stemOf_flat (p : String) : stemOf (flatOf p) = stemOf p ++ "-flat" := by
  have hsplit : flatOf p = (stemOf p ++ "-flat") ++ ".vmdk" := by
    rw [flatOf, String.append_assoc]
    rfl
  rw [hsplit, Esxi.stemOf_vmdk]

/-- The files of a disk are not those it is staged in. -/
theorem place_ne_stage {p q : String} (hp : p = path ∨ p = flatOf path)
    (hq : q = stageOf path ∨ q = flatOf (stageOf path)) : p ≠ q := by
  rintro rfl
  -- Their stems are of different lengths.
  have hshort : (stemOf p).toList.length ≤ (stemOf path).toList.length + 5 := by
    rcases hp with rfl | rfl
    · omega
    · rw [stemOf_flat, String.toList_append, List.length_append]
      exact le_refl _
  have hlong : (stemOf path).toList.length + 6 ≤ (stemOf p).toList.length := by
    rcases hq with hq | hq
    · rw [hq, Esxi.stemOf_stageOf, String.toList_append, List.length_append]
      exact le_refl _
    · rw [hq, stemOf_flat, Esxi.stemOf_stageOf, String.toList_append, String.toList_append,
        List.length_append, List.length_append]
      exact Nat.le_add_right _ 5
  omega

/-! ### What the operations do -/

theorem dsPath_eq (hpath : IsPath host ref path) : dsPath host ref = .ret path :=
  Esxi.dsPath_eq hpath

theorem reach_eq (hpath : IsPath host ref path) : reach host ref = files path := by
  ext p
  constructor
  · rintro ⟨path', hpath', hp⟩
    obtain rfl : path' = path := (Prod.mk.inj (Option.some.inj (hpath'.symm.trans hpath))).2
    exact hp
  · exact fun hp => ⟨path, hpath, hp⟩

theorem within_program (href : IsRef host ref) (o : VolumeOp) :
    (program host images ref o).Within (touched host) (reach host ref) := by
  obtain ⟨path, hpath, -⟩ := exists_path href
  rw [reach_eq hpath]
  have hother := Esxi.within_volumeProgram hpath
  cases o with
  | upload source =>
    cases hconvert : images.convert source with
    | none =>
      show (uploadFile host images ref source).Within _ _
      unfold uploadFile
      rw [dsPath_eq hpath, hconvert]
      show ((folderExists path).bind _).Within _ _
      refine .bind (.perform (Set.empty_subset _)) fun found => ?_
      cases found with
      | true => trivial
      | false => trivial
    | some vmdk =>
      -- The same program, on a host whose conversion yields this image.
      let host' : Esxi.Host := { host with qcow2ToVmdk := fun _ => vmdk }
      have hsame : uploadFile host images ref source = Esxi.volumeProgram host' ref (.upload source) :=
        uploadFile_eq host' images hconvert ref
      have hwithin := @Esxi.within_volumeProgram host' ref path hpath (.upload source)
      show (uploadFile host images ref source).Within _ _
      rw [hsame]
      exact hwithin
  | createBlank sizeGb => exact hother (.createBlank sizeGb)
  | resize sizeGb => exact hother (.resize sizeGb)
  | write data => exact hother (.write data)
  | delete => exact hother .delete
  | download => exact hother .download

/-- What is asked for first: whether there is a file at the path. -/
theorem wp_exists {crash : Datastore → Prop} {Q : Unit → Datastore → Prop}
    {E : Fault → Datastore → Prop} {f : Bool → Act Unit} (hcrash : crash d) (hE : ∀ e, E e d)
    (hf : (f (d path).isSome).wp (.ofSem (sem host images) crash) Q E d) :
    (folderExists path >>= f).wp (.ofSem (sem host images) crash) Q E d := by
  refine ⟨hcrash, fun r d₁ h => ?_⟩
  obtain rfl : d₁ = d := framed.quiet rfl h
  cases r with
  | error e => exact hE e
  | ok found =>
    have hfound : found = (d₁ path).isSome := h.1.2.1 found rfl
    rw [hfound]
    exact hf

/-- Removing what was staged leaves the disk. -/
theorem dropStage_wp (disk : images.Disk) (h : DiskAt images d path disk) :
    (dropStage (stageOf path)).wp (.ofSem (sem host images) fun _ => True)
      (fun _ d' => DiskAt images d' path disk) (fun _ _ => True) d := by
  have hdelete : ∀ q, q = stageOf path ∨ q = flatOf (stageOf path) → ∀ d, DiskAt images d path disk →
      (dsOp (.folderDelete q)).wp (.ofSem (sem host images) fun _ => True)
        (fun _ d' => DiskAt images d' path disk) (fun _ _ => True) d := by
    intro q hq d hdisk
    refine Prog.wp_perform.mpr ⟨trivial, fun _ d' hsem => ?_, fun _ _ _ => trivial⟩
    have hfile : d' path = d path := framed _ _ _ _ hsem _ (place_ne_stage (.inl rfl) hq)
    have hflat : d' (flatOf path) = d (flatOf path) :=
      framed _ _ _ _ hsem _ (place_ne_stage (.inr rfl) hq)
    unfold DiskAt at hdisk ⊢
    rwa [hfile, hflat]
  refine Prog.wp_seq (hdelete _ (.inl rfl) d h) fun _ d₁ hdisk => ?_
  exact Prog.wp_seq (hdelete _ (.inr rfl) d₁ hdisk) fun _ d₂ hdisk => hdisk

/-- An image that is ingested is the disk at the path. -/
theorem ingest_wp (hpath : IsPath host ref path) (hchars : PathChars path) {vmdk : Data}
    {disk : images.Disk} (hvmdk : images.hosted vmdk = some disk) :
    (ingest host path ref vmdk).wp (.ofSem (sem host images) fun _ => True)
      (fun _ d' => DiskAt images d' path disk) (fun _ _ => True) d := by
  have hput : (dsOp (.folderPut (stageOf path) vmdk)).wp (.ofSem (sem host images) fun _ => True)
      (fun _ d' => d' (stageOf path) = some vmdk) (fun _ _ => True) d :=
    Prog.wp_perform.mpr ⟨trivial, fun _ _ h => h.1.2.1 () rfl, fun _ _ _ => trivial⟩
  refine Prog.wp_seq hput fun _ d₁ hstage => ?_
  rw [Prog.wp_tryFinally]
  refine Prog.wp_perform.mpr ⟨trivial, fun _ d₂ h => ?_, fun _ _ _ => Prog.wp_any⟩
  obtain ⟨vmdk', disk', hsource, hhosted, hdisk⟩ :=
    h.2 _ _ rfl ⟨_, rfl⟩ _ _ (isPath_stage hchars) hpath
  obtain rfl : vmdk' = vmdk := Option.some.inj (hsource.symm.trans hstage)
  obtain rfl : disk' = disk := Option.some.inj (hhosted.symm.trans hvmdk)
  exact dropStage_wp disk' hdisk

theorem uploads (href : IsRef host ref) (hpasses : Passes host images ref source)
    (hvacant : Vacant host ref d) :
    (program host images ref (.upload source)).wp (.ofSem (sem host images) fun _ => True)
      (fun _ d' => Holds host images ref source d') (fun _ _ => True) d := by
  obtain ⟨path, hpath, hchars⟩ := exists_path href
  unfold program uploadFile
  rw [dsPath_eq hpath]
  refine wp_exists trivial (fun _ => trivial) ?_
  rw [hvacant path hpath]
  cases hconvert : images.convert source with
  | none => trivial
  | some vmdk =>
    obtain ⟨disk, hsource, hvmdk⟩ := images.convert_spec hconvert
    refine Prog.wp_mono (fun _ d' hdisk => ⟨path, hpath, ?_⟩) (fun _ _ h => h)
      (ingest_wp hpath hchars hvmdk)
    split_ifs with himage
    · rw [hpasses path hpath himage] at hsource
      cases hsource
    · exact ⟨disk, hsource, hdisk⟩

theorem skips (href : IsRef host ref) (hoccupied : ¬ Vacant host ref d) :
    (program host images ref (.upload source)).Still (sem host images) d := by
  obtain ⟨path, hpath, -⟩ := exists_path href
  have hfound : (d path).isSome = true := by
    by_contra hnone
    refine hoccupied fun path' hpath' => ?_
    obtain rfl : path' = path := (Prod.mk.inj (Option.some.inj (hpath'.symm.trans hpath))).2
    simpa using hnone
  unfold program uploadFile
  rw [dsPath_eq hpath]
  refine wp_exists rfl (fun _ => rfl) ?_
  rw [hfound]
  rfl

theorem reads (href : IsRef host ref) :
    (program host images ref .download).Still (sem host images) d := by
  obtain ⟨path, hpath, -⟩ := exists_path href
  refine Prog.Within.still framed ?_
  unfold program Esxi.volumeProgram Esxi.downloadFromPool
  rw [dsPath_eq hpath]
  show ((dsOp (.folderGet path)).bind _).Within _ _
  refine .bind (.perform (le_refl _)) fun _ => ?_
  exact .bind (.perform (le_refl _)) fun _ => trivial

end Laws

/-- The storage module of ESXi, on a host. -/
def storageModule (host : Esxi.Host) (images : Images) : StorageModule where
  S := dsSig
  ε := Fault
  K := String
  sem := sem host images
  foot := touched host
  program := program host images
  IsRef := IsRef host
  Passes := Passes host images
  place := place host
  reach := reach host
  Vacant := Vacant host
  Holds := Holds host images
  framed := framed
  within := within_program
  holds_congr := holds_congr
  occupied := occupied
  uploads := uploads
  skips := skips
  reads := reads

end Esx

end TestRange.Storage
