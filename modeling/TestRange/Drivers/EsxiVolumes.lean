/-
The volumes of the ESXi driver, as files of a datastore.

A volume is a disk or an image in the folder of its pool.  A disk is a descriptor and an
extent; it is ingested by way of a staging file.  The names of the extent and of the staging
files are the name of the volume with something appended, and so may be those of another one.

* `stemOf`, `composeVolumeRef`, `parseVolumeRef` — the references of volumes;
* `DsOp`, `dsSem` — the calls to the datastore, and what they may do;
* `volumeProgram` — the operations of the driver on a volume;
* `Undisturbed` — in no interleaving does an operation change a file of another volume;
* `undisturbed_iff` — when that is so.
-/
import TestRange.Drivers.Naming
import TestRange.Lib.Footprint
import TestRange.Lib.Text
import TestRange.Orchestrator.Entries

namespace TestRange

namespace Esxi

/-! ### References -/

/-- `path.rsplit(".", 1)[0]` -/
def stemOf (path : String) : String :=
  match path.toList.reverse.dropWhile (· ≠ '.') with
  | [] => path
  | _ :: rest => String.ofList rest.reverse

/-- The file of a volume: images keep their name, a disk is a `.vmdk`. -/
def backendFilename (volName : String) : String :=
  if ".iso".toList.isSuffixOf volName.toList then volName else stemOf volName ++ ".vmdk"

def composeVolumeRef (datastore poolBackendName volName : String) : String :=
  "[" ++ datastore ++ "] " ++ (poolBackendName ++ "/" ++ backendFilename volName)

/-- `^\[(?P<ds>[^\]]+)\]\s+(?P<path>.+)$`: the datastore and the path on it.  No reference ends in
whitespace. -/
def parseVolumeRef (ref : String) : Option (String × String) :=
  match ref.toList with
  | [] => none
  | b :: cs =>
    let ds := cs.takeWhile (· ≠ ']')
    match (cs.dropWhile (· ≠ ']')).tail with
    | [] => none
    | c :: rest =>
      let path := rest.dropWhile Text.isSpace
      if b = '[' ∧ ds ≠ [] ∧ Text.isSpace c ∧ path ≠ [] ∧ '\n' ∉ path then
        some (String.ofList ds, String.ofList path)
      else none

/-- The extent of the disk at a path. -/
def flatOf (path : String) : String := stemOf path ++ "-flat.vmdk"

/-- Where the disk at a path is staged. -/
def stageOf (path : String) : String := stemOf path ++ "-stage.vmdk"

/-- The files of a volume, its staging files among them. -/
def files (path : String) : Set String :=
  {path, flatOf path, stageOf path, flatOf (stageOf path)}

/-! ### The datastore -/

abbrev Data := List UInt8

/-- The host a driver is connected to, with what the driver uses of other programs: the
digest of names, the conversion of images, and what it knows of networks. -/
structure Host where
  datastore : String
  digest : String → String
  qcow2ToVmdk : Data → Data
  driver : Driver
  datastore_ne : datastore ≠ ""
  /-- No datastore name ends its own bracket. -/
  datastore_plain : ']' ∉ datastore.toList
  digest_plain : ∀ s, ∀ c ∈ (digest s).toList, isNameChar c = true

/-- The exceptions of the driver. -/
inductive Fault
  /-- `ValueError` -/
  | notARef (ref : String)
  /-- `DriverError` of a reference to another datastore. -/
  | otherDatastore (ref ds connected : String)
  /-- Whatever a call to the host raises. -/
  | call

/-- The calls to the datastore, by path, and to the virtual disk manager, by reference. -/
inductive DsOp
  | folderExists (path : String)
  | folderPut (path : String) (data : Data)
  | folderGet (path : String)
  | folderDelete (path : String)
  | createVirtualDisk (name : String) (sizeGb : ℕ)
  | extendVirtualDisk (name : String) (sizeGb : ℕ)
  | copyVirtualDisk (sourceName destName : String)
  | deleteVirtualDisk (name : String)

abbrev dsSig : Sig where
  Op := DsOp
  Res
    | .folderExists _ => Bool
    | .folderGet _ => Data
    | .folderDelete _ => Bool
    | _ => Unit

/-- What is on a datastore. -/
abbrev Datastore := String → Option Data

variable (host : Host)

/-- The files of the disk that a reference names: its descriptor and its extent. -/
def diskFiles (name : String) : Set String :=
  match parseVolumeRef name with
  | some (ds, path) => if ds = host.datastore then {path, flatOf path} else ∅
  | none => ∅

/-- The files a call may change. -/
def touched : DsOp → Set String
  | .folderExists _ => ∅
  | .folderPut path _ => {path}
  | .folderGet _ => ∅
  | .folderDelete path => {path}
  | .createVirtualDisk name _ => diskFiles host name
  | .extendVirtualDisk name _ => diskFiles host name
  | .copyVirtualDisk _ destName => diskFiles host destName
  | .deleteVirtualDisk name => diskFiles host name

/-- What a call that returns has done to the files. -/
def Done : (o : DsOp) → Datastore → dsSig.Res o → Datastore → Prop
  | .folderExists path, d, found, _ => found = (d path).isSome
  | .folderPut path data, _, _, d' => d' path = some data
  | .folderGet path, d, data, _ => d path = some data
  | .folderDelete path, d, existed, d' => existed = (d path).isSome ∧ d' path = none
  | .createVirtualDisk name _, _, _, d' => ∀ p ∈ diskFiles host name, (d' p).isSome
  | .extendVirtualDisk name _, d, _, d' => ∀ p ∈ diskFiles host name, (d p).isSome ∧ (d' p).isSome
  | .copyVirtualDisk _ destName, _, _, d' => ∀ p ∈ diskFiles host destName, (d' p).isSome
  | .deleteVirtualDisk name, _, _, d' => ∀ p ∈ diskFiles host name, d' p = none

/-- What calls may answer and do: one that raises may have done some of it. -/
def dsSem : Prog.Sem dsSig Fault Datastore :=
  fun o d r d' => (∀ p, p ∉ touched host o → d' p = d p) ∧
    (∀ a, r = .ok a → Done host o d a d') ∧ ∀ e, r = .error e → e = .call

/-! ### The operations -/

/-- A program of the driver. -/
abbrev Act := Prog dsSig Fault

def dsOp (o : DsOp) : Act (dsSig.Res o) := Prog.perform (S := dsSig) o

def folderExists (path : String) : Act Bool := dsOp (.folderExists path)

/-- The path of a reference, which must be to the datastore of the connection. -/
def dsPath (ref : String) : Act String :=
  match parseVolumeRef ref with
  | none => throw (.notARef ref)
  | some (ds, path) =>
    if ds ≠ host.datastore then throw (.otherDatastore ref ds host.datastore) else pure path

def deleteVolume (ref : String) : Act Unit := do
  let path ← dsPath host ref
  if ← folderExists path then
    if ".iso".toList.isSuffixOf path.toList then
      let _ ← dsOp (.folderDelete path)
    else dsOp (.deleteVirtualDisk ref)
  else pure ()

def writeToPool (ref : String) (data : Data) : Act Unit := do
  let path ← dsPath host ref
  dsOp (.folderPut path data)

def createBlankVolume (ref : String) (sizeGb : ℕ) : Act Unit := do
  let path ← dsPath host ref
  if ← folderExists path then deleteVolume host ref else pure ()
  dsOp (.createVirtualDisk ref sizeGb)

def resizeVolume (ref : String) (sizeGb : ℕ) : Act Unit := dsOp (.extendVirtualDisk ref sizeGb)

/-- Remove what was staged. -/
def dropStage (stageRel : String) : Act Unit := do
  let _ ← dsOp (.folderDelete stageRel)
  let _ ← dsOp (.folderDelete (flatOf stageRel))

def uploadToPool (ref : String) (source : Data) : Act Unit := do
  let path ← dsPath host ref
  if ← folderExists path then pure ()
  else
    let stageRel := stageOf path
    let stageRef := "[" ++ host.datastore ++ "] " ++ stageRel
    dsOp (.folderPut stageRel (host.qcow2ToVmdk source))
    Prog.tryFinally (dsOp (.copyVirtualDisk stageRef ref)) (dropStage stageRel)

/-- The descriptor and the extent are read; what is made of them is not on the datastore. -/
def downloadFromPool (ref : String) : Act Unit := do
  let path ← dsPath host ref
  let _ ← dsOp (.folderGet path)
  let _ ← dsOp (.folderGet (flatOf path))

/-- What is asked of the driver for a volume. -/
inductive VolumeOp
  | upload (source : Data)
  | createBlank (sizeGb : ℕ)
  | resize (sizeGb : ℕ)
  | write (data : Data)
  | delete
  | download

/-- An operation on the volume of a reference. -/
def volumeProgram (ref : String) : VolumeOp → Act Unit
  | .upload source => uploadToPool host ref source
  | .createBlank sizeGb => createBlankVolume host ref sizeGb
  | .resize sizeGb => resizeVolume ref sizeGb
  | .write data => writeToPool host ref data
  | .delete => deleteVolume host ref
  | .download => downloadFromPool host ref

/-! ### The volumes of a plan -/

/-- A run of a plan on the host. -/
def Host.run (plan : Plan) (runId : String) : RunConfig where
  plan := plan
  runId := runId
  naming := esxiNaming host.digest
  driver := host.driver

end Esxi

/-- Whether something is built at all. -/
def Plan.builds (plan : Plan) (probe : VMRecipe → Probe) : Bool :=
  plan.hyp.vms.any fun v => !(probe v).cached

/-- Whether an entry is a volume that the build or the run phase asks for. -/
def Entry.isVolume (plan : Plan) (probe : VMRecipe → Probe) : Entry → Bool
  | .sidecarDisk .declared _ => true
  | .sidecarConfig .declared _ => true
  | .sidecarDisk .build _ => plan.builds probe
  | .sidecarConfig .build _ => plan.builds probe
  | .runDisk _ => true
  | .dataDisk _ _ _ => true
  | .buildDisk v => !(probe v).cached
  | .bootIso v => !(probe v).cached && (probe v).bootMedia
  | .buildDataDisk v _ => !(probe v).cached
  | .buildSeed v => !(probe v).cached && (probe v).seed
  | _ => false

/-- The volumes of a run. -/
def RunConfig.volumes (R : RunConfig) (probe : VMRecipe → Probe) : List Entry :=
  R.catalog.filter (Entry.isVolume R.plan probe)

namespace Esxi

section Storage

variable (host : Host) (R : RunConfig)

/-- The path of a volume. -/
def pathOf (e : Entry) : String :=
  match e.obj R with
  | .volume pool name => pool ++ "/" ++ backendFilename name
  | _ => ""

/-- The reference of a volume. -/
def refOf (datastore : String) (e : Entry) : String :=
  match e.obj R with
  | .volume pool name => composeVolumeRef datastore pool name
  | _ => ""

/-- A volume of a run and an operation on it. -/
abbrev Job (probe : VMRecipe → Probe) := {e : Entry // e ∈ R.volumes probe} × VolumeOp

/-- Threads that operate on the volumes of a run. -/
def storage (probe : VMRecipe → Probe) : System dsSig Fault ℕ (Job R probe) Datastore where
  program := fun j => volumeProgram host (refOf R host.datastore j.1.1) j.2
  sem := fun _ => dsSem host
  starts := fun _ _ d => d
  ends := fun _ _ _ d => d
  dies := fun _ d => d

/-- In no interleaving of operations on the volumes of the run, from no content of the
datastore, does a call that is made for one volume change a file of another one. -/
def Undisturbed (probe : VMRecipe → Probe) : Prop :=
  ∀ c, Threads.Reachable (storage host R probe) (fun _ _ _ _ _ => True) (fun _ => True) c →
    ∀ (t : ℕ) (j : Job R probe) (o : DsOp) (k : Except Fault (dsSig.Res o) → Act Unit),
      c.running t = some (j, .call o k) → ∀ r d, dsSem host o c.world r d →
        ∀ e ∈ R.volumes probe, e ≠ j.1.1 → ∀ p ∈ files (pathOf R e), d p = c.world p

/-- The volume at `p` stays clear of the one at `q`: their stems are not the same, nor is that of
`p` the one of `q` with `-stage` appended or, for a disk, with `-flat` or `-stage-flat`. -/
def Clear (p q : String) : Prop :=
  stemOf p ≠ stemOf q ∧ stemOf p ≠ stemOf q ++ "-stage" ∧
    (".iso".toList.isSuffixOf p.toList = false →
      stemOf p ≠ stemOf q ++ "-flat" ∧ stemOf p ≠ stemOf q ++ "-stage-flat")

/-- The volumes of a run stay clear of one another. -/
def Apart (probe : VMRecipe → Probe) : Prop :=
  ∀ u ∈ R.volumes probe, ∀ v ∈ R.volumes probe, u ≠ v → Clear (pathOf R u) (pathOf R v)

end Storage

/-! ### Plain names -/

/-- All characters are those of names. -/
def Plain (s : String) : Prop := ∀ c ∈ s.toList, isNameChar c = true

theorem plain_of_all {s : String} (h : s.toList.all isNameChar = true) : Plain s :=
  List.all_eq_true.mp h

theorem Plain.append {s t : String} (hs : Plain s) (ht : Plain t) : Plain (s ++ t) := by
  intro c hc
  rw [String.toList_append, List.mem_append] at hc
  rcases hc with hc | hc
  · exact hs c hc
  · exact ht c hc

theorem plain_subRuns (b : Bool) (cs : List Char) :
    ∀ c ∈ subRuns isNameChar b cs, isNameChar c = true := by
  induction cs generalizing b with
  | nil => simp [subRuns]
  | cons a cs ih =>
    rw [subRuns]
    split_ifs with ha hb
    · intro c hc
      rcases List.mem_cons.mp hc with rfl | hc
      · exact ha
      · exact ih false c hc
    · exact ih true
    · intro c hc
      rcases List.mem_cons.mp hc with rfl | hc
      · decide
      · exact ih true c hc

theorem mem_stripHyphens {cs : List Char} {c : Char} (h : c ∈ stripHyphens cs) : c ∈ cs := by
  unfold stripHyphens at h
  rw [List.mem_reverse] at h
  have hback := (List.dropWhile_suffix _).subset h
  rw [List.mem_reverse] at hback
  exact (List.dropWhile_suffix _).subset hback

theorem mem_squeezeHyphens {cs : List Char} {b : Bool} {c : Char} (h : c ∈ squeezeHyphens b cs) :
    c ∈ cs := by
  induction cs generalizing b with
  | nil => cases h
  | cons a cs ih =>
    rw [squeezeHyphens] at h
    split_ifs at h with ha hb
    · exact List.mem_cons_of_mem _ (ih h)
    · rcases List.mem_cons.mp h with rfl | h
      · exact List.mem_cons_self
      · exact List.mem_cons_of_mem _ (ih h)
    · rcases List.mem_cons.mp h with rfl | h
      · exact List.mem_cons_self
      · exact List.mem_cons_of_mem _ (ih h)

/-- What ESXi names are composed of. -/
theorem plain_esxiName {digest : String → String} (hdigest : ∀ s, Plain (digest s)) (value : String) :
    Plain (esxiName digest value) := by
  have hclean : ∀ c ∈ orX (squeezeHyphens false (stripHyphens (subRuns isNameChar false value.toList))),
      isNameChar c = true := by
    intro c hc
    unfold orX at hc
    split_ifs at hc with hnil
    · rw [List.mem_singleton.mp hc]
      decide
    · exact plain_subRuns _ _ c (mem_stripHyphens (mem_squeezeHyphens hc))
  unfold esxiName shorten
  dsimp only
  split_ifs with hchanged
  · refine Plain.append (Plain.append ?_ ?_) (hdigest value)
    · intro c hc
      rw [String.toList_ofList] at hc
      exact hclean c (List.mem_of_mem_take hc)
    · intro c hc
      rw [show c = '-' by simpa using hc]
      decide
  · intro c hc
    rw [String.toList_ofList] at hc
    exact hclean c hc

theorem plain_compose (host : Host) (plan : Plan) (runId kind name : String) :
    Plain ((host.run plan runId).compose kind name) := by
  have hdigest : ∀ s, Plain (host.digest s) := host.digest_plain
  simp only [RunConfig.compose, Host.run, esxiNaming]
  exact plain_esxiName hdigest (rawName runId kind name)

theorem plain_dataDiskRole (i : ℕ) : Plain ("-" ++ dataDiskRole i) := by
  refine Plain.append (plain_of_all (by decide)) (Plain.append (plain_of_all (by decide)) ?_)
  intro c hc
  have hdigit : c.isDigit = true := by
    have htoString : (toString i).toList = Nat.toDigits 10 i := by
      rw [Nat.toString_eq_repr, Nat.toList_repr]
    rw [htoString] at hc
    exact Nat.isDigit_of_mem_toDigits (by decide) (by decide) hc
  simp [isNameChar, isWordChar, Char.isAlphanum, hdigit]

/-! ### Stems -/

/-- What stands before an extension. -/
theorem stemOf_append {a e : String} {ext : List Char} (he : e.toList = '.' :: ext)
    (hext : '.' ∉ ext) : stemOf (a ++ e) = a := by
  have hdrop : (a ++ e).toList.reverse.dropWhile (· ≠ '.') = '.' :: a.toList.reverse := by
    rw [String.toList_append, he, List.reverse_append, List.reverse_cons, List.append_assoc,
      List.dropWhile_append_of_pos]
    · rfl
    · intro c hc
      have hne : c ≠ '.' := by
        rintro rfl
        exact hext (List.mem_reverse.mp hc)
      simpa using hne
  rw [stemOf, hdrop]
  simp

theorem stemOf_vmdk (a : String) : stemOf (a ++ ".vmdk") = a := stemOf_append rfl (by decide)

theorem stemOf_iso (a : String) : stemOf (a ++ ".iso") = a := stemOf_append rfl (by decide)

theorem stemOf_stageOf (path : String) : stemOf (stageOf path) = stemOf path ++ "-stage" := by
  have hsplit : stageOf path = (stemOf path ++ "-stage") ++ ".vmdk" := by
    rw [stageOf, String.append_assoc]
    rfl
  rw [hsplit, stemOf_vmdk]

/-- Whether a text ends in `.iso`, by its own end. -/
theorem iso_append (a e : String) (h : 4 ≤ e.toList.length) :
    ".iso".toList.isSuffixOf (a ++ e).toList = ".iso".toList.isSuffixOf e.toList := by
  rw [Bool.eq_iff_iff, List.isSuffixOf_iff_suffix, List.isSuffixOf_iff_suffix, String.toList_append]
  constructor
  · intro hs
    exact List.suffix_of_suffix_length_le hs (List.suffix_append _ _) h
  · intro hs
    exact hs.trans (List.suffix_append _ _)

theorem pathOf_disk {R : RunConfig} {e : Entry} {pool name : String}
    (hobj : e.obj R = .volume pool (name ++ ".qcow2")) :
    pathOf R e = (pool ++ "/" ++ name) ++ ".vmdk" := by
  rw [pathOf, hobj]
  dsimp only
  rw [backendFilename, iso_append _ _ (by decide), if_neg (by decide),
    stemOf_append rfl (by decide), ← String.append_assoc]

theorem pathOf_image {R : RunConfig} {e : Entry} {pool name : String}
    (hobj : e.obj R = .volume pool (name ++ ".iso")) :
    pathOf R e = (pool ++ "/" ++ name) ++ ".iso" := by
  rw [pathOf, hobj]
  dsimp only
  rw [backendFilename, iso_append _ _ (by decide), if_pos (by decide), ← String.append_assoc]

/-- A volume is a disk or an image, in a pool. -/
theorem pathOf_shape (host : Host) {plan : Plan} (runId : String) {probe : VMRecipe → Probe}
    {e : Entry} (he : e.isVolume plan probe = true) : ∃ pool name, Plain pool ∧ Plain name ∧
      ((e.obj (host.run plan runId) = .volume pool (name ++ ".qcow2") ∧
          pathOf (host.run plan runId) e = (pool ++ "/" ++ name) ++ ".vmdk") ∨
        (e.obj (host.run plan runId) = .volume pool (name ++ ".iso") ∧
          pathOf (host.run plan runId) e = (pool ++ "/" ++ name) ++ ".iso")) := by
  have hplain := plain_compose host plan runId
  have hhome : ∀ f : Fabric, Plain ((host.run plan runId).home f) := by
    intro f
    cases f with
    | declared => exact hplain _ _
    | build => exact hplain _ _
  cases e with
  | sidecarDisk f sw =>
    exact ⟨_, _, hhome f, hplain _ _, .inl ⟨rfl, pathOf_disk rfl⟩⟩
  | sidecarConfig f sw =>
    exact ⟨_, _, hhome f, (hplain _ _).append (plain_of_all (by decide)), .inr ⟨rfl, pathOf_image rfl⟩⟩
  | runDisk v => exact ⟨_, _, hplain _ _, hplain _ _, .inl ⟨rfl, pathOf_disk rfl⟩⟩
  | dataDisk v p i =>
    refine ⟨_, (host.run plan runId).compose "vm" v.name ++ "-" ++ dataDiskRole i, hplain _ _, ?_,
      .inl ⟨rfl, pathOf_disk rfl⟩⟩
    rw [String.append_assoc]
    exact (hplain _ _).append (plain_dataDiskRole i)
  | buildDisk v => exact ⟨_, _, hplain _ _, hplain _ _, .inl ⟨rfl, pathOf_disk rfl⟩⟩
  | bootIso v =>
    exact ⟨_, _, hplain _ _, (hplain _ _).append (plain_of_all (by decide)),
      .inr ⟨rfl, pathOf_image rfl⟩⟩
  | buildDataDisk v i =>
    refine ⟨_, (host.run plan runId).compose "build_vm" v.name ++ "-" ++ dataDiskRole i, hplain _ _,
      ?_, .inl ⟨rfl, pathOf_disk rfl⟩⟩
    rw [String.append_assoc]
    exact (hplain _ _).append (plain_dataDiskRole i)
  | buildSeed v =>
    exact ⟨_, _, hplain _ _, (hplain _ _).append (plain_of_all (by decide)),
      .inr ⟨rfl, pathOf_image rfl⟩⟩
  | _ => cases he

/-! ### References and paths -/

/-- No whitespace is a character of names. -/
theorem not_space_of_isNameChar {c : Char} (h : isNameChar c = true) : Text.isSpace c = false := by
  by_contra hspace
  rw [Bool.not_eq_false] at hspace
  let codes : List ℕ := [9, 10, 11, 12, 13, 28, 29, 30, 31, 32, 0x85, 0xa0, 0x1680, 0x2000, 0x2001,
    0x2002, 0x2003, 0x2004, 0x2005, 0x2006, 0x2007, 0x2008, 0x2009, 0x200a, 0x2028, 0x2029, 0x202f,
    0x205f, 0x3000]
  have hmem : c.toNat ∈ codes := by
    unfold Text.isSpace at hspace
    simp only [Bool.or_eq_true, Bool.and_eq_true, decide_eq_true_eq] at hspace
    simp only [codes, List.mem_cons, List.not_mem_nil, or_false]
    omega
  have hcodes : codes.all (fun n => !isNameChar (Char.ofNat n)) = true := by decide
  have hnot := List.all_eq_true.mp hcodes _ hmem
  rw [Char.ofNat_toNat, h] at hnot
  cases hnot

/-- The characters of paths. -/
def PathChars (path : String) : Prop := ∀ c ∈ path.toList, isNameChar c = true ∨ c = '/'

/-- What is composed of a datastore and a path is parsed into them. -/
theorem parseVolumeRef_compose {ds path : String} (hds : ds ≠ "") (hplain : ']' ∉ ds.toList)
    (hpath : path ≠ "") (hchars : PathChars path) :
    parseVolumeRef ("[" ++ ds ++ "] " ++ path) = some (ds, path) := by
  have hlist : ("[" ++ ds ++ "] " ++ path).toList =
      '[' :: (ds.toList ++ ']' :: ' ' :: path.toList) := by
    simp
  have hne : ∀ c ∈ ds.toList, decide (c ≠ ']') = true := by
    intro c hc
    rw [decide_eq_true_iff]
    rintro rfl
    exact hplain hc
  have htake : (ds.toList ++ ']' :: ' ' :: path.toList).takeWhile (· ≠ ']') = ds.toList := by
    rw [List.takeWhile_append_of_pos hne, List.takeWhile_cons_of_neg (by simp), List.append_nil]
  have hdrop : (ds.toList ++ ']' :: ' ' :: path.toList).dropWhile (· ≠ ']') =
      ']' :: ' ' :: path.toList := by
    rw [List.dropWhile_append_of_pos hne, List.dropWhile_cons_of_neg (by simp)]
  have hspace : path.toList.dropWhile Text.isSpace = path.toList := by
    refine Text.dropWhile_eq_self fun c hc => ?_
    rcases hchars c (List.mem_of_mem_head? hc) with hname | rfl
    · exact not_space_of_isNameChar hname
    · decide
  have hnewline : '\n' ∉ path.toList := by
    intro hin
    rcases hchars _ hin with h | h
    · exact absurd h (by decide)
    · exact absurd h (by decide)
  unfold parseVolumeRef
  rw [hlist]
  dsimp only
  rw [htake, hdrop]
  dsimp only [List.tail_cons]
  rw [hspace, if_pos ⟨rfl, by simpa using hds, by decide, by simpa using hpath, hnewline⟩]
  simp

/-- A file of a pool, as a disk or as an image. -/
def Shaped (path : String) : Prop := path = stemOf path ++ ".vmdk" ∨ path = stemOf path ++ ".iso"

section Volumes

variable {host : Host} {plan : Plan} {runId : String} {probe : VMRecipe → Probe} {e : Entry}

theorem isVolume_of_mem (he : e ∈ (host.run plan runId).volumes probe) :
    e.isVolume plan probe = true :=
  (List.mem_filter.mp he).2

theorem shaped_pathOf (he : e.isVolume plan probe = true) : Shaped (pathOf (host.run plan runId) e) := by
  obtain ⟨pool, name, -, -, ⟨-, hpath⟩ | ⟨-, hpath⟩⟩ := pathOf_shape host runId he
  · left
    rw [hpath, stemOf_vmdk]
  · right
    rw [hpath, stemOf_iso]

/-- The reference of a volume names its path. -/
theorem parseVolumeRef_refOf (he : e.isVolume plan probe = true) :
    parseVolumeRef (refOf (host.run plan runId) host.datastore e) =
      some (host.datastore, pathOf (host.run plan runId) e) := by
  have hshape := pathOf_shape host runId he
  have href : refOf (host.run plan runId) host.datastore e =
      "[" ++ host.datastore ++ "] " ++ pathOf (host.run plan runId) e := by
    obtain ⟨pool, name, -, -, ⟨hobj, -⟩ | ⟨hobj, -⟩⟩ := hshape
    · rw [refOf, pathOf, hobj]
      rfl
    · rw [refOf, pathOf, hobj]
      rfl
  have hchars : ∀ {pool name ext : String}, Plain pool → Plain name → Plain ext →
      PathChars ((pool ++ "/" ++ name) ++ ext) := by
    intro pool name ext hpool hname hext c hc
    simp only [String.toList_append, List.mem_append] at hc
    rcases hc with ((hc | hc) | hc) | hc
    · exact .inl (hpool c hc)
    · exact .inr (by simpa using hc)
    · exact .inl (hname c hc)
    · exact .inl (hext c hc)
  rw [href]
  obtain ⟨pool, name, hpool, hname, ⟨-, hpath⟩ | ⟨-, hpath⟩⟩ := hshape
  · rw [hpath]
    refine parseVolumeRef_compose host.datastore_ne host.datastore_plain (by simp) ?_
    exact hchars hpool hname (plain_of_all (by decide))
  · rw [hpath]
    refine parseVolumeRef_compose host.datastore_ne host.datastore_plain (by simp) ?_
    exact hchars hpool hname (plain_of_all (by decide))

end Volumes

/-! ### What an operation touches -/

section Touches

variable {host : Host} {ref path : String}

theorem diskFiles_eq (href : parseVolumeRef ref = some (host.datastore, path)) :
    diskFiles host ref = {path, flatOf path} := by
  unfold diskFiles
  rw [href]
  exact if_pos rfl

theorem dsPath_eq (href : parseVolumeRef ref = some (host.datastore, path)) :
    dsPath host ref = .ret path := by
  unfold dsPath
  rw [href]
  exact if_neg (by simp)

theorem diskFiles_subset (href : parseVolumeRef ref = some (host.datastore, path)) :
    diskFiles host ref ⊆ files path := by
  rw [diskFiles_eq href]
  intro p hp
  rcases hp with rfl | rfl
  · exact .inl rfl
  · exact .inr (.inl rfl)

theorem within_deleteVolume (href : parseVolumeRef ref = some (host.datastore, path)) :
    (deleteVolume host ref).Within (touched host) (files path) := by
  unfold deleteVolume
  rw [dsPath_eq href]
  show ((folderExists path).bind _).Within _ _
  refine .bind (.perform (Set.empty_subset _)) fun found => ?_
  cases found with
  | false => trivial
  | true =>
    rw [if_pos rfl]
    have hdelete : (dsOp (.folderDelete path)).Within (touched host) (files path) :=
      .perform (Set.singleton_subset_iff.mpr (.inl rfl))
    have hdisk : (dsOp (.deleteVirtualDisk ref)).Within (touched host) (files path) :=
      .perform (diskFiles_subset href)
    by_cases hiso : ".iso".toList.isSuffixOf path.toList = true
    · rw [if_pos hiso]
      exact hdelete.bind fun _ => trivial
    · rw [if_neg hiso]
      exact hdisk

/-- The calls of an operation touch files of its own volume only. -/
theorem within_volumeProgram (href : parseVolumeRef ref = some (host.datastore, path))
    (op : VolumeOp) : (volumeProgram host ref op).Within (touched host) (files path) := by
  have hstage : stageOf path ∈ files path := .inr (.inr (.inl rfl))
  have hstageFlat : flatOf (stageOf path) ∈ files path := .inr (.inr (.inr rfl))
  cases op with
  | upload source =>
    unfold volumeProgram uploadToPool
    rw [dsPath_eq href]
    show ((folderExists path).bind _).Within _ _
    refine .bind (.perform (Set.empty_subset _)) fun found => ?_
    cases found with
    | true => trivial
    | false =>
      refine .bind (.perform (Set.singleton_subset_iff.mpr hstage)) fun _ => ?_
      refine .tryFinally (.perform (diskFiles_subset href)) ?_
      refine .bind (.perform (Set.singleton_subset_iff.mpr hstage)) fun _ => ?_
      exact .bind (.perform (Set.singleton_subset_iff.mpr hstageFlat)) fun _ => trivial
  | createBlank sizeGb =>
    unfold volumeProgram createBlankVolume
    rw [dsPath_eq href]
    show ((folderExists path).bind _).Within _ _
    refine .bind (.perform (Set.empty_subset _)) fun found => ?_
    have hcreate : (dsOp (.createVirtualDisk ref sizeGb) : Act Unit).Within (touched host) (files path) :=
      .perform (diskFiles_subset href)
    cases found with
    | true => exact .bind (within_deleteVolume href) fun _ => hcreate
    | false => exact hcreate
  | resize sizeGb => exact .perform (diskFiles_subset href)
  | write data =>
    unfold volumeProgram writeToPool
    rw [dsPath_eq href]
    exact .perform (Set.singleton_subset_iff.mpr (.inl rfl))
  | delete => exact within_deleteVolume href
  | download =>
    unfold volumeProgram downloadFromPool
    rw [dsPath_eq href]
    show ((dsOp (.folderGet path)).bind _).Within _ _
    refine .bind (.perform (Set.empty_subset _)) fun _ => ?_
    exact .bind (.perform (Set.empty_subset _)) fun _ => trivial

end Touches

/-! ### When volumes share a file -/

theorem append_inj_right {a b x y : String} (h : a ++ x = b ++ y)
    (hlen : x.toList.length = y.toList.length) : a = b ∧ x = y := by
  have hlist : a.toList ++ x.toList = b.toList ++ y.toList := by
    rw [← String.toList_append, ← String.toList_append, h]
  obtain ⟨ha, hx⟩ := List.append_inj' hlist hlen
  exact ⟨String.toList_inj.mp ha, String.toList_inj.mp hx⟩

/-- What is appended to a stem. -/
def marks : List String := ["-flat", "-stage", "-stage-flat"]

/-- The files of a volume, by what is appended to its stem. -/
theorem mem_files {path x : String} :
    x ∈ files path ↔ x = path ∨ ∃ m ∈ marks, x = (stemOf path ++ m) ++ ".vmdk" := by
  have hassoc : ∀ m e : String, (stemOf path ++ m) ++ e = stemOf path ++ (m ++ e) :=
    fun m e => String.append_assoc
  have hstageFlat : flatOf (stageOf path) = stemOf path ++ ("-stage" ++ "-flat.vmdk") := by
    rw [flatOf, stemOf_stageOf, String.append_assoc]
  show x = path ∨ x = flatOf path ∨ x = stageOf path ∨ x = flatOf (stageOf path) ↔ _
  rw [hstageFlat, flatOf, stageOf]
  simp only [marks, List.mem_cons, List.not_mem_nil, or_false, exists_eq_or_imp, exists_eq_left, hassoc]
  exact Iff.rfl

/-- Marks that are different, before the same end. -/
theorem marks_append {a b m n : String} (hm : m ∈ marks) (hn : n ∈ marks) (h : a ++ m = b ++ n) :
    a = b ∨ a = b ++ "-stage" ∨ b = a ++ "-stage" := by
  have hflat : ∀ {c d : String}, c ++ "-flat" = d ++ "-stage" → False := by
    intro c d hcd
    have hd : d ++ "-stage" = (d ++ "-") ++ "stage" := by
      rw [String.append_assoc]
      rfl
    rw [hd] at hcd
    exact absurd (append_inj_right hcd rfl).2 (by decide)
  have hlong : ∀ {c d : String}, c ++ "-flat" = d ++ "-stage-flat" → c = d ++ "-stage" := by
    intro c d hcd
    have hd : d ++ "-stage-flat" = (d ++ "-stage") ++ "-flat" := by
      rw [String.append_assoc]
      rfl
    rw [hd] at hcd
    exact (append_inj_right hcd rfl).1
  have hstage : ∀ {c d : String}, c ++ "-stage" = d ++ "-stage-flat" → False := by
    intro c d hcd
    have hd : d ++ "-stage-flat" = (d ++ "-stag") ++ "e-flat" := by
      rw [String.append_assoc]
      rfl
    rw [hd] at hcd
    exact absurd (append_inj_right hcd rfl).2 (by decide)
  simp only [marks, List.mem_cons, List.not_mem_nil, or_false] at hm hn
  rcases hm with rfl | rfl | rfl <;> rcases hn with rfl | rfl | rfl
  · exact .inl (append_inj_right h rfl).1
  · exact (hflat h).elim
  · exact .inr (.inl (hlong h))
  · exact (hflat h.symm).elim
  · exact .inl (append_inj_right h rfl).1
  · exact (hstage h).elim
  · exact .inr (.inr (hlong h.symm))
  · exact (hstage h.symm).elim
  · exact .inl (append_inj_right h rfl).1

/-- The extension of a volume, where it is a disk and where it is an image. -/
theorem Shaped.cases {p : String} (h : Shaped p) :
    (p = stemOf p ++ ".vmdk" ∧ ".iso".toList.isSuffixOf p.toList = false) ∨
      (p = stemOf p ++ ".iso" ∧ ".iso".toList.isSuffixOf p.toList = true) := by
  rcases h with h | h
  · refine .inl ⟨h, ?_⟩
    rw [h, iso_append _ _ (by decide)]
    decide
  · refine .inr ⟨h, ?_⟩
    rw [h, iso_append _ _ (by decide)]
    decide

/-- An image is none of the other files. -/
theorem iso_ne_vmdk {a b : String} : a ++ ".iso" ≠ b ++ ".vmdk" := by
  intro h
  have hb : b ++ ".vmdk" = (b ++ ".") ++ "vmdk" := by
    rw [String.append_assoc]
    rfl
  rw [hb] at h
  exact absurd (append_inj_right h rfl).2 (by decide)

/-- A volume's own file as another one's. -/
theorem Clear.own {p q : String} (hp : Shaped p) (hclear : Clear p q) {m : String} (hm : m ∈ marks) :
    p ≠ (stemOf q ++ m) ++ ".vmdk" := by
  intro h
  rcases hp.cases with ⟨hdisk, hnot⟩ | ⟨himage, -⟩
  · rw [hdisk] at h
    have hstem := (append_inj_right h rfl).1
    obtain ⟨hflat, hstageFlat⟩ := hclear.2.2 hnot
    simp only [marks, List.mem_cons, List.not_mem_nil, or_false] at hm
    rcases hm with rfl | rfl | rfl
    · exact hflat hstem
    · exact hclear.2.1 hstem
    · exact hstageFlat hstem
  · rw [himage] at h
    exact iso_ne_vmdk h

/-- Volumes that stay clear of each other share no file. -/
theorem Clear.disjoint {p q : String} (hp : Shaped p) (hq : Shaped q) (hpq : Clear p q)
    (hqp : Clear q p) {x : String} (hx : x ∈ files p) : x ∉ files q := by
  intro hx'
  rw [mem_files] at hx hx'
  rcases hx with rfl | ⟨m, hm, rfl⟩
  · rcases hx' with heq | ⟨n, hn, heq⟩
    · exact hpq.1 (by rw [heq])
    · exact hpq.own hp hn heq
  · rcases hx' with heq | ⟨n, hn, heq⟩
    · exact hqp.own hq hm heq.symm
    · rcases marks_append hm hn (append_inj_right heq rfl).1 with h | h | h
      · exact hpq.1 h
      · exact hpq.2.1 h
      · exact hqp.2.1 h

/-- A volume that does not stay clear of another shares a file with it. -/
theorem exists_shared {p q : String} (hp : Shaped p) (h : ¬Clear p q) :
    ∃ x, x ∈ files p ∧ x ∈ files q := by
  have hassoc : ∀ a m e : String, (a ++ m) ++ e = a ++ (m ++ e) := fun a m e => String.append_assoc
  have hmem : ∀ m ∈ marks, (stemOf q ++ m) ++ ".vmdk" ∈ files q :=
    fun m hm => mem_files.mpr (.inr ⟨m, hm, rfl⟩)
  unfold Clear at h
  by_cases hsame : stemOf p = stemOf q
  · refine ⟨flatOf p, .inr (.inl rfl), .inr (.inl ?_)⟩
    rw [flatOf, flatOf, hsame]
  by_cases hstage : stemOf p = stemOf q ++ "-stage"
  · refine ⟨flatOf p, .inr (.inl rfl), ?_⟩
    have hflat : flatOf p = (stemOf q ++ "-stage-flat") ++ ".vmdk" := by
      rw [flatOf, hstage, hassoc, hassoc]
      rfl
    rw [hflat]
    exact hmem _ (by decide)
  · have hdisk : ".iso".toList.isSuffixOf p.toList = false ∧
        ¬(stemOf p ≠ stemOf q ++ "-flat" ∧ stemOf p ≠ stemOf q ++ "-stage-flat") := by
      rw [← Classical.not_imp]
      exact fun himp => h ⟨hsame, hstage, himp⟩
    obtain ⟨hnot, hmark⟩ := hdisk
    have hpath : p = stemOf p ++ ".vmdk" := by
      rcases hp.cases with ⟨hpath, -⟩ | ⟨-, hiso⟩
      · exact hpath
      · rw [hnot] at hiso
        cases hiso
    refine ⟨p, .inl rfl, ?_⟩
    by_cases hflat : stemOf p = stemOf q ++ "-flat"
    · rw [hpath, hflat]
      exact hmem _ (by decide)
    · have hstageFlat : stemOf p = stemOf q ++ "-stage-flat" :=
        by_contra fun hne => hmark ⟨hflat, hne⟩
      rw [hpath, hstageFlat]
      exact hmem _ (by decide)

/-! ### Interleaved operations -/

section Interleaved

variable {host : Host} {plan : Plan} {runId : String} {probe : VMRecipe → Probe}

theorem framed_dsSem : Prog.Framed (dsSem host) (touched host) := fun _ _ _ _ h => h.1

/-- Volumes that are apart do not disturb one another. -/
theorem undisturbed_of_apart (h : Apart (host.run plan runId) probe) :
    Undisturbed host (host.run plan runId) probe := by
  intro c hc t j o k hrun r d hsem e he hne p hp
  have hown : ∀ i : Job (host.run plan runId) probe,
      ((storage host (host.run plan runId) probe).program i).Within (touched host)
        (files (pathOf (host.run plan runId) i.1.1)) := by
    intro i
    exact within_volumeProgram (parseVolumeRef_refOf (isVolume_of_mem i.1.2)) i.2
  have hout : p ∉ files (pathOf (host.run plan runId) j.1.1) :=
    Clear.disjoint (shaped_pathOf (isVolume_of_mem he)) (shaped_pathOf (isVolume_of_mem j.1.2))
      (h e he _ j.1.2 hne) (h _ j.1.2 e he (Ne.symm hne)) hp
  exact Threads.frame (fun _ => framed_dsSem) hown hc hrun hsem hout

/-- The calls of an upload to a place where nothing is. -/
theorem upload_calls {ref path : String} (href : parseVolumeRef ref = some (host.datastore, path))
    (source : Data) : ∃ stageRef k₀ k₁ k₂ k₃ k₄,
      volumeProgram host ref (.upload source) = .call (.folderExists path) k₀ ∧
      k₀ (.ok false) = .call (.folderPut (stageOf path) (host.qcow2ToVmdk source)) k₁ ∧
      k₁ (.ok ()) = .call (.copyVirtualDisk stageRef ref) k₂ ∧
      k₂ (.ok ()) = .call (.folderDelete (stageOf path)) k₃ ∧
      ∀ existed, k₃ (.ok existed) = .call (.folderDelete (flatOf (stageOf path))) k₄ := by
  unfold volumeProgram uploadToPool
  rw [dsPath_eq href]
  exact ⟨_, _, _, _, _, _, rfl, rfl, rfl, rfl, fun _ => rfl⟩

/-- A thread has come to some place of a program, and the datastore is as given. -/
def At (host : Host) (R : RunConfig) (probe : VMRecipe → Probe) (j : Job R probe) (d : Datastore)
    (p : Act Unit) : Prop :=
  ∃ c, Threads.Reachable (storage host R probe) (fun _ _ _ _ _ => True) (fun _ => True) c ∧
    c.running 0 = some (j, p) ∧ c.world = d

theorem At.start {R : RunConfig} (j : Job R probe) (d : Datastore) :
    At host R probe j d ((storage host R probe).program j) := by
  refine ⟨_, .step (.init (w := d) trivial) (.start (t := 0) j rfl), ?_, rfl⟩
  simp

theorem At.call {R : RunConfig} {j : Job R probe} {d d' : Datastore} {o : DsOp}
    {k : Except Fault (dsSig.Res o) → Act Unit} {r : Except Fault (dsSig.Res o)}
    (h : At host R probe j d (.call o k)) (hsem : dsSem host o d r d') : At host R probe j d' (k r) := by
  obtain ⟨c, hc, hrun, rfl⟩ := h
  refine ⟨_, hc.step (.call hrun trivial hsem), ?_, rfl⟩
  simp

/-- Every file of a volume is changed by some call of an upload. -/
theorem exists_upload_call (j : {e : Entry // e ∈ (host.run plan runId).volumes probe}) {x : String}
    (hx : x ∈ files (pathOf (host.run plan runId) j.1)) :
    ∃ d o k, At host (host.run plan runId) probe (j, .upload []) d (.call o k) ∧
      ∃ r d', dsSem host o d r d' ∧ d' x ≠ d x := by
  have href : parseVolumeRef (refOf (host.run plan runId) host.datastore j.1) = _ :=
    parseVolumeRef_refOf (isVolume_of_mem j.2)
  obtain ⟨stageRef, k₀, k₁, k₂, k₃, k₄, h₀, h₁, h₂, h₃, h₄⟩ := upload_calls href []
  have hfiles := diskFiles_eq href
  generalize pathOf (host.run plan runId) j.1 = path at *
  have hstart (d : Datastore) : At host (host.run plan runId) probe (j, .upload []) d
      (.call (.folderExists path) k₀) := by
    rw [← h₀]
    exact At.start (j, .upload []) d
  have hput {d : Datastore} (hnone : d path = none) :
      At host (host.run plan runId) probe (j, .upload []) d
        (.call (.folderPut (stageOf path) (host.qcow2ToVmdk [])) k₁) := by
    rw [← h₁]
    refine (hstart d).call ⟨fun p _ => rfl, ?_, by rintro e ⟨⟩⟩
    rintro a ⟨⟩
    show false = (d path).isSome
    rw [hnone]
    rfl
  have hcopy {d : Datastore} (hnone : d path = none) :
      At host (host.run plan runId) probe (j, .upload [])
        (Function.update d (stageOf path) (some (host.qcow2ToVmdk [])))
        (.call (.copyVirtualDisk stageRef (refOf (host.run plan runId) host.datastore j.1)) k₂) := by
    rw [← h₂]
    refine (hput hnone).call ⟨fun p hp => Function.update_of_ne hp _ _, ?_, by rintro e ⟨⟩⟩
    rintro a ⟨⟩
    exact Function.update_self _ _ _
  -- The copy writes the disk, and leaves the rest.
  let filled (d : Datastore) : Datastore := fun p => if p = path ∨ p = flatOf path then some [] else d p
  have hfilled (d : Datastore) : dsSem host
      (.copyVirtualDisk stageRef (refOf (host.run plan runId) host.datastore j.1)) d (.ok ())
      (filled d) := by
    refine ⟨?_, ?_, by rintro e ⟨⟩⟩
    · intro p hp
      have hout : ¬(p = path ∨ p = flatOf path) := by
        intro hin
        refine hp ?_
        show p ∈ diskFiles host _
        rw [hfiles]
        exact hin
      exact if_neg hout
    · rintro a ⟨⟩ p hp
      rw [hfiles] at hp
      have hsome : filled d p = some [] := if_pos hp
      rw [hsome]
      rfl
  by_cases hstage : x = stageOf path
  · subst hstage
    refine ⟨fun _ => none, _, _, hput rfl, .ok (), Function.update (fun _ => none) (stageOf path)
      (some (host.qcow2ToVmdk [])), ⟨fun p hp => Function.update_of_ne hp _ _, ?_, by rintro e ⟨⟩⟩, ?_⟩
    · rintro a ⟨⟩
      exact Function.update_self _ _ _
    · rw [Function.update_self]
      simp
  by_cases hdisk : x = path ∨ x = flatOf path
  · refine ⟨_, _, _, hcopy (d := fun _ => none) rfl, .ok (), _, hfilled _, ?_⟩
    have hsome : filled (Function.update (fun _ => none) (stageOf path)
        (some (host.qcow2ToVmdk []))) x = some [] := if_pos hdisk
    rw [hsome, Function.update_of_ne hstage]
    simp
  · -- What is left of an earlier disk of that name is removed with the staging file.
    have hlast : x = flatOf (stageOf path) := by
      rcases hx with h | h | h | h
      · exact absurd (.inl h) hdisk
      · exact absurd (.inr h) hdisk
      · exact absurd h hstage
      · exact h
    let d₀ : Datastore := Function.update (fun _ => none) x (some [])
    have hnone : d₀ path = none := Function.update_of_ne (fun h => hdisk (.inl h.symm)) _ _
    have hcopied := (hcopy hnone).call (hfilled _)
    rw [h₃] at hcopied
    let d₂ : Datastore := filled (Function.update d₀ (stageOf path) (some (host.qcow2ToVmdk [])))
    let d₃ : Datastore := Function.update d₂ (stageOf path) none
    have hdelete : dsSem host (.folderDelete (stageOf path)) d₂ (.ok (d₂ (stageOf path)).isSome) d₃ :=
      ⟨fun p hp => Function.update_of_ne hp _ _, by
        rintro a ⟨⟩
        exact ⟨rfl, Function.update_self _ _ _⟩, by rintro e ⟨⟩⟩
    have hdeleted := hcopied.call hdelete
    rw [h₄, ← hlast] at hdeleted
    have hx₃ : d₃ x = some [] := by
      show Function.update d₂ (stageOf path) none x = _
      rw [Function.update_of_ne hstage]
      show filled _ x = _
      have hkept : filled (Function.update d₀ (stageOf path) (some (host.qcow2ToVmdk []))) x =
          Function.update d₀ (stageOf path) (some (host.qcow2ToVmdk [])) x := if_neg hdisk
      rw [hkept, Function.update_of_ne hstage]
      exact Function.update_self _ _ _
    refine ⟨d₃, _, _, hdeleted, .ok (d₃ x).isSome, Function.update d₃ x none,
      ⟨fun p hp => Function.update_of_ne hp _ _, ?_, by rintro e ⟨⟩⟩, ?_⟩
    · rintro a ⟨⟩
      exact ⟨rfl, Function.update_self _ _ _⟩
    · rw [Function.update_self, hx₃]
      simp

/-- Where one volume does not stay clear of another, uploading it changes a file of the other. -/
theorem disturbed_of_shared {u v : Entry} (hu : u ∈ (host.run plan runId).volumes probe)
    (hv : v ∈ (host.run plan runId).volumes probe) (hne : u ≠ v)
    (h : ¬Clear (pathOf (host.run plan runId) u) (pathOf (host.run plan runId) v)) :
    ¬Undisturbed host (host.run plan runId) probe := by
  intro hundisturbed
  obtain ⟨x, hxu, hxv⟩ := exists_shared (shaped_pathOf (isVolume_of_mem hu)) h
  obtain ⟨d, o, k, ⟨c, hc, hrun, rfl⟩, r, d', hsem, hchanged⟩ := exists_upload_call ⟨u, hu⟩ hxu
  exact hchanged (hundisturbed c hc 0 _ o k hrun r d' hsem v hv (Ne.symm hne) x hxv)

/-- **When operations on one volume leave the others alone.**  Whatever the plan, the run and the
host: no interleaving of operations on the volumes of the run changes a file of a volume by a
call made for another one, iff the volumes stay clear of one another by their names. -/
theorem undisturbed_iff (host : Host) (plan : Plan) (runId : String) (probe : VMRecipe → Probe) :
    Undisturbed host (host.run plan runId) probe ↔ Apart (host.run plan runId) probe := by
  constructor
  · intro h u hu v hv hne
    by_contra hclear
    exact disturbed_of_shared hu hv hne hclear h
  · exact undisturbed_of_apart

end Interleaved

/-! ### Two VMs, one named like the staging file of the other -/

namespace Staged

/-- A VM of that name, with its disk in the pool `ssd`. -/
def vm (name : String) (hname : name ≠ "") : VMRecipe := ⟨name, "ssd", [], [], hname⟩

def mail : VMRecipe := vm "mail" (by decide)

def mailStage : VMRecipe := vm "mail-stage" (by decide)

def pool : StoragePool := ⟨"ssd", 2, by decide, by decide⟩

/-- The plan: both VMs in one pool. -/
def hyp : Hypervisor where
  pools := [pool]
  switches := []
  vms := [mail, mailStage]
  explicitEdges := []
  buildSwitch := none
  nodup_pools := by decide
  nodup_switches := List.nodup_nil
  nodup_vms := by decide

def graph : BuildGraph Node Node.name where
  name := "staged"
  nodes := [.pool pool, .vm mail 0, .vm mailStage 1]
  edges := [⟨"vm:mail", "pool:ssd", .ordering, by decide, by decide⟩,
    ⟨"vm:mail-stage", "pool:ssd", .ordering, by decide, by decide⟩]
  nodup_names := by decide
  edges_known := by decide
  waves_complete := by decide
  contentWaves_complete := by decide

def plan : Plan where
  name := "staged"
  hyp := hyp
  graph := graph
  name_ne := by decide
  validated := rfl
  assembled := rfl

/-- A host, and a digest that is not asked for. -/
def host : Host where
  datastore := "datastore1"
  digest := fun _ => "000000"
  qcow2ToVmdk := id
  driver := ⟨fun _ => "vSwitch0", fun _ switchBackend => switchBackend⟩
  datastore_ne := by decide
  datastore_plain := by decide
  digest_plain := fun _ => List.all_eq_true.mp (by decide)

def runId : String := "20250101-000000-abcdef"

/-- Both VMs are in the cache. -/
def probe (_ : VMRecipe) : Probe := ⟨true, false, false, false⟩

/-- The upload of the one disk goes through the file of the other. -/
theorem mail_disturbs_mailStage : ¬Undisturbed host (host.run plan runId) probe := by
  refine disturbed_of_shared (u := .runDisk mailStage) (v := .runDisk mail) ?_ ?_ ?_ ?_
  · decide
  · decide
  · decide
  · intro hclear
    refine hclear.2.1 ?_
    have hcompose : (host.run plan runId).compose "vm" "mail-stage" =
        (host.run plan runId).compose "vm" "mail" ++ "-stage" := by decide
    have hpath : ∀ v : VMRecipe, stemOf (pathOf (host.run plan runId) (.runDisk v)) =
        (host.run plan runId).compose "pool" v.osPool ++ "/" ++
          (host.run plan runId).compose "vm" v.name := by
      intro v
      rw [pathOf_disk rfl, stemOf_vmdk]
    calc stemOf (pathOf (host.run plan runId) (.runDisk mailStage))
        = (host.run plan runId).compose "pool" "ssd" ++ "/" ++
          (host.run plan runId).compose "vm" "mail-stage" := hpath mailStage
      _ = (host.run plan runId).compose "pool" "ssd" ++ "/" ++
          ((host.run plan runId).compose "vm" "mail" ++ "-stage") := by rw [hcompose]
      _ = stemOf (pathOf (host.run plan runId) (.runDisk mail)) ++ "-stage" := by
          rw [hpath mail, ← String.append_assoc]
          rfl

end Staged

end Esxi

end TestRange
