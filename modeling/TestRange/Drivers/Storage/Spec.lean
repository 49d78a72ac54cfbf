/-
What the drivers do with the volumes they are asked for.

The storage module of a driver has one program for each operation on the volume of a reference.
A history is any sequence of them; each returns, raises, or is cut off with the process.  An
upload leaves alone what it finds at its reference, so that a volume holds what the upload has
brought that found nothing there.

* `StorageModule` — the operations, what the calls to the backend may do, and where volumes are;
* `StorageModule.Event`, `StorageModule.Step` — histories;
* `StorageModule.UploadsExact` — every upload that returns has brought what it was given;
* `StorageModule.UploadsKept` — what every upload that returns leaves at its reference;
* `StorageModule.uploadsKept` — every storage module does.
-/
import TestRange.Drivers.EsxiVolumes
import TestRange.Lib.Crash
import TestRange.Lib.Trace

namespace TestRange

open Esxi (Data VolumeOp)

/-- How an operation ends. -/
inductive Outcome
  | returned
  | raised
  /-- The process is gone. -/
  | died

/-- A storage module over a backend whose files are at the places `K`. -/
structure StorageModule where
  S : Sig
  ε : Type
  K : Type
  sem : Prog.Sem S ε (K → Option Data)
  foot : S.Op → Set K
  /-- The operations, on the volume of a reference. -/
  program : String → VolumeOp → Prog S ε Unit
  /-- The references that the orchestrator passes, -/
  IsRef : String → Prop
  /-- and the files that it uploads to one. -/
  Passes : String → Data → Prop
  /-- Where the volume of a reference is. -/
  place : String → Set K
  /-- What an operation on it may change. -/
  reach : String → Set K
  /-- Nothing is found at a reference. -/
  Vacant : String → (K → Option Data) → Prop
  /-- The volume of a reference has the content of a file. -/
  Holds : String → Data → (K → Option Data) → Prop
  framed : Prog.Framed sem foot
  within : ∀ {ref}, IsRef ref → ∀ op, (program ref op).Within foot (reach ref)
  holds_congr : ∀ {ref source w w'}, (∀ k ∈ place ref, w' k = w k) → Holds ref source w →
    Holds ref source w'
  occupied : ∀ {ref source w}, Holds ref source w → ¬ Vacant ref w
  /-- An upload that finds nothing brings the content of the file. -/
  uploads : ∀ {ref source w}, IsRef ref → Passes ref source → Vacant ref w →
    (program ref (.upload source)).wp (.ofSem sem fun _ => True)
      (fun _ w' => Holds ref source w') (fun _ _ => True) w
  /-- An upload that finds something leaves all as it is, and so does a download. -/
  skips : ∀ {ref source w}, IsRef ref → ¬ Vacant ref w →
    (program ref (.upload source)).Still sem w
  reads : ∀ {ref w}, IsRef ref → (program ref .download).Still sem w

namespace StorageModule

variable (B : StorageModule)

/-- What is on the backend. -/
abbrev World := B.K → Option Data

/-- An operation, with what it found on the backend. -/
structure Event where
  ref : String
  op : VolumeOp
  outcome : Outcome
  before : B.World

/-- An operation on a reference of the orchestrator, by how it ends. -/
def Step (w : B.World) (e : B.Event) (w' : B.World) : Prop :=
  B.IsRef e.ref ∧ e.before = w ∧
    match e.outcome with
    | .returned => ∃ tr, Prog.Runs B.sem (B.program e.ref e.op) w tr (.ok ()) w'
    | .raised => ∃ tr x, Prog.Runs B.sem (B.program e.ref e.op) w tr (.error x) w'
    | .died => Prog.Cut B.sem (B.program e.ref e.op) w w'

/-- An upload that returns. -/
def IsUpload (e : B.Event) (ref : String) (source : Data) : Prop :=
  e.ref = ref ∧ e.op = .upload source ∧ e.outcome = .returned

/-- After every history of a backend that had no volume, an upload that returns has brought the
content of its file. -/
def UploadsExact : Prop :=
  ∀ tr w e w', Trace.Run B.Step (fun _ => none) tr w → B.Step w e w' →
    ∀ ref source, B.IsUpload e ref source → B.Passes ref source → B.Holds ref source w'

/-- An operation that does not touch the volume at `ref`: another upload to it or a download of
it, or an operation whose files are others. -/
def Spares (ref : String) (e : B.Event) : Prop :=
  (e.ref = ref ∧ ((∃ source, e.op = .upload source) ∨ e.op = .download)) ∨
    ∀ k ∈ B.reach e.ref, k ∉ B.place ref

/-- An upload of `source` that found nothing at `ref` has returned, and no operation has touched
the volume since. -/
def Brought (tr : List B.Event) (ref : String) (source : Data) : Prop :=
  ∃ tr₁ e tr₂, tr = tr₁ ++ e :: tr₂ ∧ B.IsUpload e ref source ∧ B.Passes ref source ∧
    B.Vacant ref e.before ∧ ∀ e' ∈ tr₂, B.Spares ref e'

/-- After every history, whatever was on the backend at first, an upload that returns has brought
the content of its file where it found nothing; where it found what an earlier upload has brought,
that is still there. -/
def UploadsKept : Prop :=
  ∀ w₀ tr w e w', Trace.Run B.Step w₀ tr w → B.Step w e w' →
    ∀ ref source, B.IsUpload e ref source →
      (B.Passes ref source → B.Vacant ref w → B.Holds ref source w') ∧
      ∀ source₀, B.Brought tr ref source₀ → B.Holds ref source₀ w'

variable {B} {w w' : B.World} {e : B.Event} {ref : String} {source : Data}

/-- What an operation leaves behind is what it leaves behind when it is cut off somewhere. -/
theorem Step.cut (h : B.Step w e w') : Prog.Cut B.sem (B.program e.ref e.op) w w' := by
  obtain ⟨-, -, hend⟩ := h
  cases hout : e.outcome with
  | returned =>
    rw [hout] at hend
    obtain ⟨tr, hrun⟩ := hend
    exact hrun.cut
  | raised =>
    rw [hout] at hend
    obtain ⟨tr, x, hrun⟩ := hend
    exact hrun.cut
  | died =>
    rw [hout] at hend
    exact hend

/-- An upload that finds nothing and returns. -/
theorem Step.holds (h : B.Step w e w') (hup : B.IsUpload e ref source)
    (hpasses : B.Passes ref source) (hvacant : B.Vacant ref w) : B.Holds ref source w' := by
  obtain ⟨rfl, hop, hout⟩ := hup
  obtain ⟨href, -, hend⟩ := h
  rw [hout, hop] at hend
  obtain ⟨tr, hrun⟩ := hend
  exact (Prog.runs_of_wp (B.uploads href hpasses hvacant) hrun).1 () rfl

/-- An operation that does not touch a volume leaves its content. -/
theorem Step.spares (h : B.Step w e w') (hspares : B.Spares ref e)
    (hholds : B.Holds ref source w) : B.Holds ref source w' := by
  have hcut := h.cut
  rcases hspares with ⟨rfl, ⟨source', hop⟩ | hop⟩ | hapart
  · rw [hop] at hcut
    have hsame : w' = w := (B.skips h.1 (B.occupied hholds)).cut hcut
    rwa [hsame]
  · rw [hop] at hcut
    have hsame : w' = w := (B.reads h.1).cut hcut
    rwa [hsame]
  · refine B.holds_congr (fun k hk => ?_) hholds
    exact hcut.frame B.framed (B.within h.1 e.op) fun hreach => hapart k hreach hk

/-- What was brought to a reference is there. -/
theorem holds_of_brought {w₀ : B.World} {tr : List B.Event} (hrun : Trace.Run B.Step w₀ tr w)
    (h : B.Brought tr ref source) : B.Holds ref source w := by
  obtain ⟨tr₁, e, tr₂, rfl, hup, hpasses, hvacant, hspares⟩ := h
  refine hrun.since (P := B.Holds ref source) ?_ ?_
  · intro a b _ hstep
    rw [hstep.2.1] at hvacant
    exact hstep.holds hup hpasses hvacant
  · intro e' he' a b ha hstep
    exact hstep.spares (hspares e' he') ha

/-- **What every storage module does with uploads.** -/
theorem uploadsKept (B : StorageModule) : B.UploadsKept := by
  intro w₀ tr w e w' hrun hstep ref source hup
  refine ⟨fun hpasses hvacant => hstep.holds hup hpasses hvacant, fun source₀ hbrought => ?_⟩
  refine hstep.spares (.inl ⟨hup.1, .inl ⟨source, hup.2.1⟩⟩) (holds_of_brought hrun hbrought)

/-- A second upload to a reference that returns, and leaves something else there. -/
theorem not_uploadsExact {h : Prog.Handler B.S B.ε B.World}
    (hsem : ∀ o w, B.sem o w (h o w).1 (h o w).2) (ref : String) (first second : Data)
    (href : B.IsRef ref) (hpasses : B.Passes ref second)
    (hfirst : (B.program ref (.upload first)).exec h (fun _ => none) = (.ok (), w))
    (hsecond : (B.program ref (.upload second)).exec h w = (.ok (), w'))
    (hother : ¬ B.Holds ref second w') : ¬ B.UploadsExact := by
  intro hall
  obtain ⟨tr₁, hrun₁⟩ := Prog.runs_exec hsem (B.program ref (.upload first)) (fun _ => none)
  obtain ⟨tr₂, hrun₂⟩ := Prog.runs_exec hsem (B.program ref (.upload second)) w
  rw [hfirst] at hrun₁
  rw [hsecond] at hrun₂
  have hstep₁ : B.Step (fun _ => none) ⟨ref, .upload first, .returned, fun _ => none⟩ w :=
    ⟨href, rfl, tr₁, hrun₁⟩
  have hstep₂ : B.Step w ⟨ref, .upload second, .returned, w⟩ w' := ⟨href, rfl, tr₂, hrun₂⟩
  exact hother (hall _ w _ w' (.step .start hstep₁) hstep₂ ref second ⟨rfl, rfl, rfl⟩ hpasses)

end StorageModule

end TestRange
