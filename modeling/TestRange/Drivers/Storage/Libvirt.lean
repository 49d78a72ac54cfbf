/-
The storage module of the libvirt driver.

A volume is an object of a pool.  Its bytes go through a stream; a stream that breaks is
aborted, and the volume stays with what has arrived.

* `uploadToPool`, `writeToPool`, `createBlankVolume`, `resizeVolume`, `downloadFromPool`,
  `deleteVolume` — the operations;
* `Done`, `sem` — what the calls to libvirt may do;
* `storageModule` — what is made of them.
-/
import TestRange.Drivers.Storage.Spec

namespace TestRange.Storage

open Esxi (Data VolumeOp)

namespace Lv

/-! ### Calls -/

/-- `DriverError`, by what is wrong, and whatever a call raises. -/
inductive Fault
  | malformed (ref : String)
  | noPool (ref pool : String)
  | noVolume (ref : String)
  | call

/-- A stream, by what it goes into or comes out of. -/
inductive Stream
  | into (pool vol : String) (data : Data)
  | out (pool vol : String)

inductive Op
  | lookupPool (pool : String)
  | lookupVolume (pool vol : String)
  | delete (pool vol : String)
  | createXml (pool vol : String) (capacityBytes : ℕ) (format : String)
  | resize (pool vol : String) (bytes : ℕ)
  | refresh (pool : String)
  | newStream
  /-- `vol.upload` and `vol.download`. -/
  | attach (stream : Stream) (length : ℕ)
  /-- `sendAll` and `recvAll`. -/
  | pump (stream : Stream)
  | finish (stream : Stream)
  | abort (stream : Stream)

abbrev sig : Sig where
  Op := Op
  Res
    | .lookupPool _ => Bool
    | .lookupVolume _ _ => Bool
    | _ => Unit

/-- Volumes, by pool and name. -/
abbrev Place := String × String

abbrev Volumes := Place → Option Data

/-- The volume a stream changes. -/
def Stream.target : Stream → Set Place
  | .into pool vol _ => {(pool, vol)}
  | .out _ _ => ∅

/-- The volumes a call may change. -/
def touched : Op → Set Place
  | .delete pool vol => {(pool, vol)}
  | .createXml pool vol _ _ => {(pool, vol)}
  | .resize pool vol _ => {(pool, vol)}
  | .pump stream => stream.target
  | .finish stream => stream.target
  | .abort stream => stream.target
  | _ => ∅

/-- What a call that returns has done, where the pools are `pools`.  Whatever is streamed into a
volume is there when the stream is finished. -/
def Done (pools : String → Bool) : (o : Op) → Volumes → sig.Res o → Volumes → Prop
  | .lookupPool pool, _, found, _ => found = pools pool
  | .lookupVolume pool vol, w, found, _ => found = (pools pool && (w (pool, vol)).isSome)
  | .delete pool vol, _, _, w' => w' (pool, vol) = none
  | .createXml pool vol _ _, _, _, w' => (w' (pool, vol)).isSome
  | .finish (.into pool vol data), _, _, w' => w' (pool, vol) = some data
  | _, _, _, _ => True

/-- A call that raises may have done some of it: a part of what is streamed has arrived. -/
def sem (pools : String → Bool) : Prog.Sem sig Fault Volumes :=
  fun o w r w' => (∀ k, k ∉ touched o → w' k = w k) ∧
    (∀ a, r = .ok a → Done pools o w a w') ∧ ∀ e, r = .error e → e = .call

/-! ### The operations -/

abbrev Act := Prog sig Fault

def op (o : Op) : Act (sig.Res o) := Prog.perform (S := sig) o

/-- `<pool>/<vol_name>`, split at the first slash. -/
def splitRef (ref : String) : Except Fault Place :=
  let pool := ref.toList.takeWhile (· ≠ '/')
  let vol := (ref.toList.dropWhile (· ≠ '/')).tail
  if pool = [] ∨ vol = [] then .error (.malformed ref)
  else .ok (String.ofList pool, String.ofList vol)

def volFormat (vol : String) : String :=
  if ".iso".toList.isSuffixOf vol.toList then "raw" else "qcow2"

def gib : ℕ := 1024 ^ 3

/-- Delete what is there, and create a fresh volume. -/
def replaceVolume (ref : String) (capacityBytes : ℕ) : Act Unit := do
  let (pool, vol) ← Prog.ofExcept (splitRef ref)
  if ← op (.lookupPool pool) then
    if ← op (.lookupVolume pool vol) then op (.delete pool vol) else pure ()
    op (.createXml pool vol (max capacityBytes 1) (volFormat vol))
  else throw (.noPool ref pool)

/-- Move the bytes of a stream; what breaks it aborts it. -/
def transfer (stream : Stream) (length : ℕ) : Act Unit := do
  op .newStream
  op (.attach stream length)
  tryCatch
    (do op (.pump stream)
        op (.finish stream))
    fun e => do
      op (.abort stream)
      throw e

def createBlankVolume (ref : String) (sizeGb : ℕ) : Act Unit := replaceVolume ref (sizeGb * gib)

def writeToPool (ref : String) (data : Data) : Act Unit := do
  replaceVolume ref data.length
  let (pool, vol) ← Prog.ofExcept (splitRef ref)
  transfer (.into pool vol data) data.length

def uploadToPool (ref : String) (source : Data) : Act Unit := do
  let (pool, vol) ← Prog.ofExcept (splitRef ref)
  if ← op (.lookupVolume pool vol) then pure ()
  else
    replaceVolume ref source.length
    transfer (.into pool vol source) source.length
    if ← op (.lookupPool pool) then op (.refresh pool) else pure ()

def resizeVolume (ref : String) (sizeGb : ℕ) : Act Unit := do
  let (pool, vol) ← Prog.ofExcept (splitRef ref)
  if ← op (.lookupVolume pool vol) then op (.resize pool vol (sizeGb * gib))
  else throw (.noVolume ref)

def downloadFromPool (ref : String) : Act Unit := do
  let (pool, vol) ← Prog.ofExcept (splitRef ref)
  if ← op (.lookupVolume pool vol) then transfer (.out pool vol) 0
  else throw (.noVolume ref)

def deleteVolume (ref : String) : Act Unit := do
  let (pool, vol) ← Prog.ofExcept (splitRef ref)
  if ← op (.lookupVolume pool vol) then op (.delete pool vol) else pure ()

def program (ref : String) : VolumeOp → Act Unit
  | .upload source => uploadToPool ref source
  | .createBlank sizeGb => createBlankVolume ref sizeGb
  | .resize sizeGb => resizeVolume ref sizeGb
  | .write data => writeToPool ref data
  | .delete => deleteVolume ref
  | .download => downloadFromPool ref

/-! ### Where volumes are -/

def composeVolumeRef (poolBackendName volName : String) : String := poolBackendName ++ "/" ++ volName

/-- The volume of a reference. -/
def place (ref : String) : Set Place := {k | splitRef ref = .ok k}

/-- A lookup finds nothing. -/
def Vacant (pools : String → Bool) (ref : String) (w : Volumes) : Prop :=
  ∀ k ∈ place ref, pools k.1 = false ∨ w k = none

/-- The volume is in its pool, and has this content. -/
def Holds (pools : String → Bool) (ref : String) (source : Data) (w : Volumes) : Prop :=
  ∃ k ∈ place ref, pools k.1 = true ∧ w k = some source

section Laws

variable {pools : String → Bool} {ref pool vol : String} {source : Data} {w : Volumes}

theorem framed : Prog.Framed (sem pools) touched := fun _ _ _ _ h => h.1

theorem holds_congr {w' : Volumes} (h : ∀ k ∈ place ref, w' k = w k)
    (hholds : Holds pools ref source w) : Holds pools ref source w' := by
  obtain ⟨k, hk, hpool, hcontent⟩ := hholds
  exact ⟨k, hk, hpool, by rw [h k hk, hcontent]⟩

theorem occupied (h : Holds pools ref source w) : ¬ Vacant pools ref w := by
  intro hvacant
  obtain ⟨k, hk, hpool, hcontent⟩ := h
  rcases hvacant k hk with hno | hno
  · rw [hpool] at hno
    cases hno
  · rw [hcontent] at hno
    cases hno

/-- A reference is malformed, or it is of one volume. -/
theorem splitRef_cases (ref : String) :
    splitRef ref = .error (.malformed ref) ∨ ∃ pool vol, splitRef ref = .ok (pool, vol) := by
  unfold splitRef
  dsimp only
  split_ifs with hempty
  · exact .inl rfl
  · exact .inr ⟨_, _, rfl⟩

/-! ### What the operations touch -/

theorem within_replaceVolume (href : splitRef ref = .ok (pool, vol)) (capacityBytes : ℕ) :
    (replaceVolume ref capacityBytes).Within touched {(pool, vol)} := by
  unfold replaceVolume
  rw [href]
  show (Prog.bind (op (.lookupPool pool)) _).Within _ _
  refine .bind (.perform (Set.empty_subset _)) fun found => ?_
  cases found with
  | false => trivial
  | true =>
    rw [if_pos rfl]
    show (Prog.bind (op (.lookupVolume pool vol)) _).Within _ _
    have hcreate : (op (.createXml pool vol (max capacityBytes 1) (volFormat vol))).Within
        touched {(pool, vol)} := .perform (le_refl _)
    refine .bind (.perform (Set.empty_subset _)) fun existing => ?_
    cases existing with
    | false => exact hcreate
    | true => exact .bind (.perform (le_refl _)) fun _ => hcreate

theorem within_transfer {stream : Stream} {own : Set Place} (h : stream.target ⊆ own) (length : ℕ) :
    (transfer stream length).Within touched own := by
  refine .bind (.perform (Set.empty_subset _)) fun _ => ?_
  refine .bind (.perform (Set.empty_subset _)) fun _ => ?_
  refine .tryCatch (.bind (.perform h) fun _ => .perform h) fun e => ?_
  exact .bind (.perform h) fun _ => trivial

theorem within_program (ref : String) (o : VolumeOp) :
    (program ref o).Within touched (place ref) := by
  rcases splitRef_cases ref with herr | ⟨pool, vol, href⟩
  · cases o <;>
      simp [program, uploadToPool, createBlankVolume, resizeVolume, writeToPool, deleteVolume,
        downloadFromPool, replaceVolume, herr, Prog.Within]
  have hplace : place ref = {(pool, vol)} := by
    ext k
    simp [place, href, eq_comm]
  rw [hplace]
  have hlook : (op (.lookupVolume pool vol)).Within touched {(pool, vol)} :=
    .perform (Set.empty_subset _)
  cases o with
  | upload source =>
    unfold program uploadToPool
    rw [href]
    show (Prog.bind (op (.lookupVolume pool vol)) _).Within _ _
    refine .bind hlook fun found => ?_
    cases found with
    | true => trivial
    | false =>
      refine .bind (within_replaceVolume href _) fun _ => ?_
      refine .bind (@within_transfer (.into pool vol source) _ (le_refl _) _) fun _ => ?_
      refine .bind (.perform (Set.empty_subset _)) fun found => ?_
      cases found with
      | true => exact .perform (Set.empty_subset _)
      | false => trivial
  | createBlank sizeGb => exact within_replaceVolume href _
  | resize sizeGb =>
    unfold program resizeVolume
    rw [href]
    show (Prog.bind (op (.lookupVolume pool vol)) _).Within _ _
    refine .bind hlook fun found => ?_
    cases found with
    | true => exact .perform (le_refl _)
    | false => trivial
  | write data =>
    unfold program writeToPool
    refine .bind (within_replaceVolume href _) fun _ => ?_
    rw [href]
    exact @within_transfer (.into pool vol data) _ (le_refl _) _
  | delete =>
    unfold program deleteVolume
    rw [href]
    show (Prog.bind (op (.lookupVolume pool vol)) _).Within _ _
    refine .bind hlook fun found => ?_
    cases found with
    | true => exact .perform (le_refl _)
    | false => trivial
  | download =>
    unfold program downloadFromPool
    rw [href]
    show (Prog.bind (op (.lookupVolume pool vol)) _).Within _ _
    refine .bind hlook fun found => ?_
    cases found with
    | true => exact within_transfer (Set.empty_subset _) _
    | false => trivial

/-! ### What the operations do -/

theorem replaceVolume_wp (href : splitRef ref = .ok (pool, vol)) (capacityBytes : ℕ) (w : Volumes) :
    (replaceVolume ref capacityBytes).wp (.ofSem (sem pools) fun _ => True)
      (fun _ _ => pools pool = true) (fun _ _ => True) w := by
  unfold replaceVolume
  rw [href]
  show (Prog.bind (op (.lookupPool pool)) _).wp _ _ _ _
  rw [Prog.wp_bind]
  refine Prog.wp_perform.mpr ⟨trivial, fun found w₁ hlook => ?_, fun _ _ _ => trivial⟩
  have hfound : found = pools pool := hlook.2.1 found rfl
  cases found with
  | false => trivial
  | true =>
    refine Prog.wp_mono (fun _ _ h => h) (fun _ _ _ => trivial)
      (Prog.wp_of_invariant (I := fun _ => pools pool = true) ?_ ?_ _ hfound.symm)
    · exact fun _ _ _ => trivial
    · exact fun _ _ _ _ h _ => h

/-- A transfer that returns has brought all of it. -/
theorem transfer_wp (data : Data) (length : ℕ) (w : Volumes) :
    (transfer (.into pool vol data) length).wp (.ofSem (sem pools) fun _ => True)
      (fun _ w' => w' (pool, vol) = some data) (fun _ _ => True) w := by
  unfold transfer
  refine Prog.wp_seq Prog.wp_any fun _ w₁ _ => ?_
  refine Prog.wp_seq Prog.wp_any fun _ w₂ _ => ?_
  show (Prog.tryCatch _ _).wp _ _ _ _
  rw [Prog.wp_tryCatch]
  have hbody : (Prog.bind (op (.pump (.into pool vol data))) fun _ =>
      op (.finish (.into pool vol data))).wp (.ofSem (sem pools) fun _ => True)
      (fun _ w' => w' (pool, vol) = some data) (fun _ _ => True) w₂ := by
    refine Prog.wp_seq Prog.wp_any fun _ w₃ _ => ?_
    exact Prog.wp_perform.mpr ⟨trivial, fun _ _ h => h.2.1 () rfl, fun _ _ _ => trivial⟩
  -- The handler raises, whatever it has done.
  refine Prog.wp_mono (fun _ _ h => h) (fun e w' _ => ?_) hbody
  exact Prog.wp_seq Prog.wp_any fun _ _ _ => trivial

theorem uploads (hvacant : Vacant pools ref w) :
    (program ref (.upload source)).wp (.ofSem (sem pools) fun _ => True)
      (fun _ w' => Holds pools ref source w') (fun _ _ => True) w := by
  unfold program uploadToPool
  rcases splitRef_cases ref with herr | ⟨pool, vol, href⟩
  · rw [herr]
    trivial
  rw [href]
  show (Prog.bind (op (.lookupVolume pool vol)) _).wp _ _ _ _
  rw [Prog.wp_bind]
  refine Prog.wp_perform.mpr ⟨trivial, fun found w₁ hlook => ?_, fun _ _ _ => trivial⟩
  have hfound : found = (pools pool && (w (pool, vol)).isSome) := hlook.2.1 found rfl
  have hnone : found = false := by
    rcases hvacant (pool, vol) href with hpool | hvol
    · rw [hfound, show pools pool = false from hpool, Bool.false_and]
    · rw [hfound, hvol, Option.isSome_none, Bool.and_false]
  subst hnone
  refine Prog.wp_seq (replaceVolume_wp href _ w₁) fun _ w₂ hpool => ?_
  refine Prog.wp_seq (transfer_wp source _ w₂) fun _ w₃ hcontent => ?_
  -- The pool is refreshed, which leaves the volumes as they are.
  have hrest : ∀ w', w' = w₃ → Holds pools ref source w' := by
    rintro w' rfl
    exact ⟨(pool, vol), href, hpool, hcontent⟩
  show (Prog.bind (op (.lookupPool pool)) _).wp _ _ _ _
  rw [Prog.wp_bind]
  refine Prog.wp_perform.mpr ⟨trivial, fun found w₄ hlook => ?_, fun _ _ _ => trivial⟩
  obtain rfl := framed.quiet rfl hlook
  cases found with
  | false => exact hrest _ rfl
  | true =>
    exact Prog.wp_perform.mpr
      ⟨trivial, fun _ w' h => hrest w' (framed.quiet rfl h), fun _ _ _ => trivial⟩

theorem skips (hfound : ¬ Vacant pools ref w) :
    (program ref (.upload source)).Still (sem pools) w := by
  unfold program uploadToPool Prog.Still
  rcases splitRef_cases ref with herr | ⟨pool, vol, href⟩
  · rw [herr]
    rfl
  rw [href]
  show (Prog.bind (op (.lookupVolume pool vol)) _).wp _ _ _ _
  rw [Prog.wp_bind]
  refine Prog.wp_perform.mpr ⟨rfl, fun found w₁ hlook => ?_, fun _ w₁ h => framed.quiet rfl h⟩
  have hanswer : found = (pools pool && (w (pool, vol)).isSome) := hlook.2.1 found rfl
  have htrue : found = true := by
    by_contra hno
    refine hfound fun k hk => ?_
    obtain rfl : (pool, vol) = k := Except.ok.inj (href.symm.trans hk)
    rw [Bool.not_eq_true, hanswer, Bool.and_eq_false_iff, Option.isSome_eq_false_iff] at hno
    exact hno.imp_right Option.isNone_iff_eq_none.mp
  subst htrue
  exact framed.quiet rfl hlook

theorem reads (ref : String) : (program ref .download).Still (sem pools) w := by
  refine Prog.Within.still framed ?_
  unfold program downloadFromPool
  rcases splitRef_cases ref with herr | ⟨pool, vol, href⟩
  · rw [herr]
    trivial
  rw [href]
  show (Prog.bind (op (.lookupVolume pool vol)) _).Within _ _
  refine .bind (.perform (le_refl _)) fun found => ?_
  cases found with
  | true => exact @within_transfer (.out pool vol) _ (le_refl _) 0
  | false => trivial

end Laws

/-- The storage module of libvirt, on a daemon with the given pools. -/
def storageModule (pools : String → Bool) : StorageModule where
  S := sig
  ε := Fault
  K := Place
  sem := sem pools
  foot := touched
  program := program
  IsRef := fun ref => ∃ pool vol, ref = composeVolumeRef pool vol
  Passes := fun _ _ => True
  place := place
  reach := place
  Vacant := Vacant pools
  Holds := Holds pools
  framed := framed
  within := fun _ => within_program _
  holds_congr := holds_congr
  occupied := occupied
  uploads := fun _ _ => uploads
  skips := fun _ => skips
  reads := fun _ => reads _

end Lv

end TestRange.Storage
