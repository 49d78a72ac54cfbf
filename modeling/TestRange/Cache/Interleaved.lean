/-
Methods of the cache that interleave.

A thread knows what it has read, whether it holds the lock, and what it found there; the
others can change only what that knowledge leaves open.

* `Interleaved.protocol` — what a thread may do, by what it knows;
* `Interleaved.wp_program` — every method keeps to it;
* `Interleaved.Inv` — what the threads know is so;
* `Interleaved.interleaved_sound` — the cache is sound in every guarded run.
-/
import TestRange.Cache.Aliases
import TestRange.Cache.Concurrent

namespace TestRange

namespace Interleaved

open Concurrent

/-! ### What a thread knows -/

/-- What the holder of the lock has found. -/
inductive Stage
  | idle
  /-- there is no sidecar -/
  | absent (sha : String)
  /-- there is no sidecar, but the content -/
  | sized (sha : String)
  | found (sha : String) (info : CacheEntryInfo)
  /-- it has removed the sidecar -/
  | dropped (sha : String)

/-- What a thread has read first of each sidecar, whether it holds the lock, what it has
fetched, and what it has found under the lock. -/
structure Pos where
  reads : String → Option CacheEntryInfo
  held : Bool
  landed : Option String
  stage : Stage

/-- A thread that knows nothing. -/
def Pos.start : Pos := ⟨fun _ => none, false, none, .idle⟩

/-- The first of the readings of a sidecar is kept. -/
def keep (reads : String → Option CacheEntryInfo) (sha : String) (info : CacheEntryInfo) :
    String → Option CacheEntryInfo :=
  Function.update reads sha (some ((reads sha).getD info))

/-- The names of a new sidecar are those of the old one, as the job changes them. -/
def Derived (j : Job) (names names' : List String) : Prop :=
  ∀ n, n ∈ names' ↔ n ∈ j.gains ∨ n ∈ names ∧ n ∉ j.loses

/-- The writes of a thread that holds the lock. -/
def Recorded (j : Job) (info : CacheEntryInfo) : Stage → Prop
  | .found sha cur => sha = info.sha256 ∧ Derived j cur.names info.names
  | .sized sha => sha = info.sha256 ∧ Derived j [] info.names
  | .absent sha => sha = info.sha256 ∧ Derived j [] info.names ∧ ∃ i, j = .fetch i ∧ i.sha256 = sha
  | _ => False

/-- What a thread may do. -/
def Ok (j : Job) (l : Pos) : CacheOp → Prop
  | .acquire => l.held = false ∧ ∀ info, j = .fetch info → l.landed = some info.sha256
  | .release => l.held = true
  | .sidecarExists _ => l.held = true
  | .writeSidecar info =>
    if j.unlocked then ∃ cur, l.reads info.sha256 = some cur ∧ Derived j cur.names info.names
    else l.held = true ∧ Recorded j info l.stage
  | .unlinkSidecar _ => l.held = true
  | .unlinkBin sha => l.held = true ∧ l.stage = .dropped sha ∧ j.fetches = false
  | _ => True

/-- What it knows afterwards. -/
def after (j : Job) (l : Pos) : (o : CacheOp) → Except CacheErr (cacheSig.Res o) → Pos
  | .acquire, _ => { l with held := true, landed := none, stage := .idle }
  | .release, _ => { l with held := false, stage := .idle }
  | .sidecarExists sha, .ok false => { l with stage := .absent sha }
  | .sidecarExists _, .ok true => { l with stage := .idle }
  | .readSidecar sha, .ok info =>
    { l with reads := keep l.reads sha info, stage := if l.held then .found sha info else l.stage }
  | .writeSidecar _, .ok _ => { l with stage := .idle }
  | .unlinkSidecar sha, .ok _ => { l with stage := .dropped sha }
  | .putBin sha _, .ok _ => { l with landed := if j.fetches then some sha else l.landed }
  | .statBin sha, .ok _ =>
    { l with stage := match l.stage with
      | .absent s => if s = sha then .sized s else .absent s
      | stage => stage }
  | _, _ => l

/-- What holds of the answers. -/
def Answers : (o : CacheOp) → Except CacheErr (cacheSig.Res o) → Prop
  | .acquire, r => r = .ok ()
  | .glob, r => ∀ shas, r = .ok shas → shas.Nodup
  | .readSidecar sha, r => ∀ info, r = .ok info → info.sha256 = sha
  | _, _ => True

def protocol (j : Job) : Prog.Logic cacheSig CacheErr Pos where
  ok o l := Ok j l o
  next o l r l' := l' = after j l o r ∧ Answers o r

/-! ### Methods keep to it -/

section Methods

variable {j : Job} {l : Pos}

/-- A thread that looks around without the lock: it forgets nothing and takes nothing. -/
structure Roams (l l' : Pos) : Prop where
  held : l'.held = false
  landed : l'.landed = l.landed
  reads : ∀ s info, l.reads s = some info → l'.reads s = some info

theorem Roams.refl (h : l.held = false) : Roams l l := ⟨h, rfl, fun _ _ hr => hr⟩

theorem Roams.trans {l' l'' : Pos} (h : Roams l l') (h' : Roams l' l'') : Roams l l'' :=
  ⟨h'.held, h'.landed.trans h.landed, fun s info hr => h'.reads s info (h.reads s info hr)⟩

theorem keep_of_some {reads : String → Option CacheEntryInfo} {s sha : String} {info x : CacheEntryInfo}
    (h : reads s = some x) : keep reads sha info s = some x := by
  unfold keep
  by_cases hs : s = sha
  · subst hs
    rw [Function.update_self, h]
    rfl
  · rw [Function.update_of_ne hs, h]

theorem keep_of_none {reads : String → Option CacheEntryInfo} {sha : String} {info : CacheEntryInfo}
    (h : reads sha = none) : keep reads sha info sha = some info := by
  rw [keep, Function.update_self, h]
  rfl

theorem keep_of_ne {reads : String → Option CacheEntryInfo} {s sha : String} {info : CacheEntryInfo}
    (hs : s ≠ sha) : keep reads sha info s = reads s := Function.update_of_ne hs _ _

/-- One reading without the lock. -/
theorem roams_read (hl : l.held = false) (sha : String) (r : Except CacheErr CacheEntryInfo) :
    Roams l (after j l (.readSidecar sha) r) := by
  cases r with
  | error e => exact Roams.refl hl
  | ok info => exact ⟨hl, rfl, fun s x hr => keep_of_some hr⟩

/-- Reading one sidecar, whatever comes of it. -/
theorem wp_attempt_read {sha : String} {Q : Except CacheErr CacheEntryInfo → Pos → Prop}
    {E : CacheErr → Pos → Prop}
    (h : ∀ r, (∀ info, r = .ok info → info.sha256 = sha) → Q r (after j l (.readSidecar sha) r)) :
    (Cache.readSidecar sha).attempt.wp (protocol j) Q E l := by
  rw [Prog.wp_attempt, Cache.readSidecar, Prog.wp_perform]
  refine ⟨trivial, ?_, ?_⟩
  · rintro info l' ⟨rfl, hsha⟩
    exact h _ hsha
  · rintro e l' ⟨rfl, hsha⟩
    exact h _ hsha

/-- What `iter_entries` gives was read first in it. -/
theorem wp_iterEntries {shas : List String} {E : CacheErr → Pos → Prop} (hl : l.held = false)
    (hnodup : shas.Nodup) (hnew : ∀ s ∈ shas, l.reads s = none) :
    (Cache.iterEntries shas).wp (protocol j)
      (fun infos l' => Roams l l' ∧ (∀ s, s ∉ shas → l'.reads s = l.reads s) ∧
        ∀ info ∈ infos, l'.reads info.sha256 = some info) E l := by
  induction shas generalizing l with
  | nil => exact ⟨Roams.refl hl, fun _ _ => rfl, by simp⟩
  | cons sha shas ih =>
    obtain ⟨hsha, hshas⟩ := List.nodup_cons.mp hnodup
    rw [Cache.iterEntries, Prog.bind_eq_bind, Prog.wp_bind]
    refine wp_attempt_read fun r hr => ?_
    have hroam := roams_read (j := j) hl sha r
    have hother : ∀ s, s ≠ sha → (after j l (.readSidecar sha) r).reads s = l.reads s := by
      intro s hs
      cases r with
      | error e => rfl
      | ok info => exact keep_of_ne hs
    rw [Prog.bind_eq_bind, Prog.wp_bind]
    refine Prog.wp_mono ?_ (fun _ _ he => he) (ih hroam.held hshas fun s hs => ?_)
    · rintro infos l' ⟨hroam', hother', hread'⟩
      have hrest : ∀ s, s ∉ sha :: shas → l'.reads s = l.reads s := by
        intro s hs
        rw [List.mem_cons, not_or] at hs
        rw [hother' s hs.2, hother s hs.1]
      cases r with
      | error e => exact ⟨hroam.trans hroam', hrest, hread'⟩
      | ok info =>
        refine ⟨hroam.trans hroam', hrest, ?_⟩
        intro x hx
        rcases List.mem_cons.mp hx with rfl | hx
        · refine hroam'.reads _ _ ?_
          rw [hr x rfl]
          exact keep_of_none (hnew sha List.mem_cons_self)
        · exact hread' x hx
    · rw [hother s fun h => hsha (h ▸ hs)]
      exact hnew s (List.mem_cons_of_mem _ hs)

/-- What `_find_by_name` finds has the name, and was read first in it if it was not read before. -/
theorem wp_findByName {name : String} {shas : List String} {E : CacheErr → Pos → Prop}
    (hl : l.held = false) (hnodup : shas.Nodup) :
    (Cache.findByName name shas).wp (protocol j)
      (fun found l' => Roams l l' ∧ ((∀ s ∈ shas, l.reads s = none) →
        ∀ info, found = some info → l'.reads info.sha256 = some info ∧ name ∈ info.names)) E l := by
  induction shas generalizing l with
  | nil => exact ⟨Roams.refl hl, by rintro - info ⟨⟩⟩
  | cons sha shas ih =>
    obtain ⟨hsha, hshas⟩ := List.nodup_cons.mp hnodup
    rw [Cache.findByName, Prog.bind_eq_bind, Prog.wp_bind]
    refine wp_attempt_read fun r hr => ?_
    have hroam := roams_read (j := j) hl sha r
    -- The name is not here: the search goes on with one sidecar less.
    have hgo : (Cache.findByName name shas).wp (protocol j)
        (fun found l' => Roams l l' ∧ ((∀ s ∈ sha :: shas, l.reads s = none) →
          ∀ info, found = some info → l'.reads info.sha256 = some info ∧ name ∈ info.names)) E
        (after j l (.readSidecar sha) r) := by
      refine Prog.wp_mono ?_ (fun _ _ he => he) (ih hroam.held hshas)
      rintro found l' ⟨hroam', hfound⟩
      refine ⟨hroam.trans hroam', fun hnew => hfound fun s hs => ?_⟩
      have hne : s ≠ sha := fun h => hsha (h ▸ hs)
      cases r with
      | error e => exact hnew s (List.mem_cons_of_mem _ hs)
      | ok info => exact (keep_of_ne hne).trans (hnew s (List.mem_cons_of_mem _ hs))
    cases r with
    | error e => exact hgo
    | ok info =>
      dsimp only
      split_ifs with hname
      · refine ⟨hroam, fun hnew x hx => ?_⟩
        cases hx
        refine ⟨?_, hname⟩
        rw [hr _ rfl]
        exact keep_of_none (hnew sha List.mem_cons_self)
      · exact hgo

theorem wp_glob {Q : List String → Pos → Prop} {E : CacheErr → Pos → Prop}
    (h : ∀ shas, shas.Nodup → Q shas l) (herr : ∀ e, E e l) : Cache.glob.wp (protocol j) Q E l := by
  rw [Cache.glob, Prog.wp_perform]
  refine ⟨trivial, ?_, ?_⟩
  · rintro shas l' ⟨rfl, hnodup⟩
    exact h shas (hnodup shas rfl)
  · rintro e l' ⟨rfl, -⟩
    exact herr e

/-- What is resolved was read first by it. -/
theorem wp_localResolve {identifier : String} (hl : l.held = false) (hnew : ∀ s, l.reads s = none) :
    (Cache.localResolve identifier).wp (protocol j)
      (fun info l' => Roams l l' ∧ l'.reads info.sha256 = some info) (fun _ l' => Roams l l') l := by
  unfold Cache.localResolve
  split_ifs with hempty hlooks
  · exact Roams.refl hl
  · rw [Prog.bind_eq_bind, Prog.wp_bind]
    refine wp_glob (fun shas hnodup => ?_) fun _ => Roams.refl hl
    rw [Prog.bind_eq_bind, Prog.wp_bind]
    refine Prog.wp_mono ?_ (fun _ _ he => he) (wp_iterEntries hl hnodup fun s _ => hnew s)
    rintro infos l' ⟨hroam, -, hread⟩
    split
    · exact hroam
    · rename_i info hfilter
      have hinfo : info ∈ infos.filter fun i => startsWith i.sha256 identifier := by
        rw [hfilter]
        exact List.mem_singleton_self info
      exact ⟨hroam, hread info (List.mem_filter.mp hinfo).1⟩
    · exact hroam
  · rw [Prog.bind_eq_bind, Prog.wp_bind]
    refine wp_glob (fun shas hnodup => ?_) fun _ => Roams.refl hl
    rw [Prog.bind_eq_bind, Prog.wp_bind]
    refine Prog.wp_mono ?_ (fun _ _ he => he) (wp_findByName hl hnodup)
    rintro found l' ⟨hroam, hfound⟩
    cases found with
    | none => exact hroam
    | some info => exact ⟨hroam, (hfound (fun s _ => hnew s) info rfl).1⟩

/-- The position with the lock just taken. -/
def locked (l : Pos) : Pos := { l with held := true, landed := none, stage := .idle }

/-- A block under the lock. -/
theorem wp_withLock {α : Type} {body : CacheProg α} (hl : l.held = false)
    (hfetch : ∀ info, j = .fetch info → l.landed = some info.sha256)
    (h : body.wp (protocol j) (fun _ l' => l'.held = true) (fun _ l' => l'.held = true) (locked l)) :
    (Cache.withLock body).wp (protocol j) (fun _ l' => l'.held = false) (fun _ l' => l'.held = false) l := by
  have hrelease : ∀ l' : Pos, l'.held = true →
      Cache.release.wp (protocol j) (fun _ l'' => l''.held = false) (fun _ l'' => l''.held = false) l' := by
    intro l' hheld
    rw [Cache.release, Prog.wp_perform]
    refine ⟨hheld, ?_, ?_⟩
    · rintro - l'' ⟨rfl, -⟩
      rfl
    · rintro e l'' ⟨rfl, -⟩
      rfl
  rw [Cache.withLock, Prog.bind_eq_bind, Prog.wp_bind, Cache.acquire, Prog.wp_perform]
  refine ⟨⟨hl, hfetch⟩, ?_, ?_⟩
  · rintro - l' ⟨rfl, -⟩
    rw [Prog.wp_tryFinally]
    exact Prog.wp_mono (fun _ l' => hrelease l') (fun _ l' => hrelease l') h
  · rintro e l' ⟨-, hok⟩
    cases hok

/-- A write under the lock. -/
theorem wp_writeSidecar {info : CacheEntryInfo} (hj : j.unlocked = false) (hl : l.held = true)
    (h : Recorded j info l.stage) :
    (Cache.writeSidecar info).wp (protocol j) (fun _ l' => l'.held = true) (fun _ l' => l'.held = true) l := by
  rw [Cache.writeSidecar, Prog.wp_perform]
  refine ⟨?_, ?_, ?_⟩
  · show Ok j l (.writeSidecar info)
    rw [Ok, if_neg (by simp [hj])]
    exact ⟨hl, h⟩
  · rintro - l' ⟨rfl, -⟩
    exact hl
  · rintro e l' ⟨rfl, -⟩
    exact hl

/-- A write without it. -/
theorem wp_writeSidecar_unlocked {info cur : CacheEntryInfo} (hj : j.unlocked = true) (hl : l.held = false)
    (hread : l.reads info.sha256 = some cur) (h : Derived j cur.names info.names) :
    (Cache.writeSidecar info).wp (protocol j) (fun _ l' => l'.held = false) (fun _ l' => l'.held = false) l := by
  rw [Cache.writeSidecar, Prog.wp_perform]
  refine ⟨?_, ?_, ?_⟩
  · show Ok j l (.writeSidecar info)
    rw [Ok, if_pos hj]
    exact ⟨cur, hread, h⟩
  · rintro - l' ⟨rfl, -⟩
    exact hl
  · rintro e l' ⟨rfl, -⟩
    exact hl

/-- What the holder of the lock finds when it looks for a sidecar. -/
theorem wp_lookup {α : Type} {sha : String} {f : Bool → CacheProg α} {Q : α → Pos → Prop}
    {E : CacheErr → Pos → Prop} (hl : l.held = true)
    (htrue : (f true).wp (protocol j) Q E { l with stage := .idle })
    (hfalse : (f false).wp (protocol j) Q E { l with stage := .absent sha }) (herr : ∀ e, E e l) :
    ((Cache.sidecarExists sha).bind f).wp (protocol j) Q E l := by
  rw [Prog.wp_bind, Cache.sidecarExists, Prog.wp_perform]
  refine ⟨hl, ?_, ?_⟩
  · rintro found l' ⟨rfl, -⟩
    cases found with
    | true => exact htrue
    | false => exact hfalse
  · rintro e l' ⟨rfl, -⟩
    exact herr e

/-- What it reads there. -/
theorem wp_readFound {α : Type} {sha : String} {f : CacheEntryInfo → CacheProg α} {Q : α → Pos → Prop}
    {E : CacheErr → Pos → Prop} (hl : l.held = true)
    (h : ∀ info, info.sha256 = sha →
      (f info).wp (protocol j) Q E { l with reads := keep l.reads sha info, stage := .found sha info })
    (herr : ∀ e, E e l) : ((Cache.readSidecar sha).bind f).wp (protocol j) Q E l := by
  rw [Prog.wp_bind, Cache.readSidecar, Prog.wp_perform]
  refine ⟨trivial, ?_, ?_⟩
  · rintro info l' ⟨rfl, hsha⟩
    have hafter : after j l (.readSidecar sha) (.ok info) =
        { l with reads := keep l.reads sha info, stage := .found sha info } := by
      simp [after, hl]
    rw [hafter]
    exact h info (hsha info rfl)
  · rintro e l' ⟨rfl, -⟩
    exact herr e

theorem wp_addSidecar {content : Bytes} {origin sha : String} {name description : Option String}
    (hl : l.held = false) :
    (Cache.addSidecar sha origin name description).wp (protocol (.add content origin name description))
      (fun _ l' => l'.held = false) (fun _ l' => l'.held = false) l := by
  unfold Cache.addSidecar
  refine wp_withLock hl (by rintro info ⟨⟩) ?_
  rw [Prog.bind_eq_bind]
  refine wp_lookup rfl ?_ ?_ fun _ => rfl
  · -- The sidecar is there, and may get one more name.
    dsimp only
    rw [if_pos rfl, Prog.bind_eq_bind]
    refine wp_readFound rfl (fun info hsha => ?_) fun _ => rfl
    cases name with
    | none => rfl
    | some n =>
      dsimp only
      split_ifs with hmem
      · rfl
      · rw [Cache.appendAlias, Prog.bind_eq_bind, Prog.wp_bind]
        refine wp_writeSidecar rfl rfl ⟨hsha.symm, fun m => ?_⟩
        simp [Job.gains, Job.loses, or_comm]
  · -- There is none: the content is looked at before one is written.
    dsimp only
    rw [if_neg (by decide), Prog.bind_eq_bind, Prog.wp_bind, Cache.statBin, Prog.wp_perform]
    refine ⟨trivial, ?_, ?_⟩
    · rintro size l' ⟨rfl, -⟩
      rw [Prog.bind_eq_bind, Prog.wp_bind, Cache.now, Prog.wp_perform]
      refine ⟨trivial, ?_, ?_⟩
      · rintro addedAt l' ⟨rfl, -⟩
        rw [Prog.bind_eq_bind, Prog.wp_bind]
        refine wp_writeSidecar rfl rfl ?_
        simp [after, Recorded, Derived, Job.gains]
      · rintro e l' ⟨rfl, -⟩
        rfl
    · rintro e l' ⟨rfl, -⟩
      rfl

/-- `add` puts the content in place and then writes its sidecar under the lock. -/
theorem wp_add {H : Host} {content : Bytes} {origin : String} {name description : Option String}
    (hl : l.held = false) :
    (Cache.add H content origin name description).wp (protocol (.add content origin name description))
      (fun _ l' => l'.held = false) (fun _ l' => l'.held = false) l := by
  unfold Cache.add
  split_ifs with hname
  · exact hl
  · rw [Prog.bind_eq_bind, Prog.wp_bind, Cache.materialize, Prog.bind_eq_bind, Prog.wp_bind, Cache.binExists,
      Prog.wp_perform]
    refine ⟨trivial, ?_, ?_⟩
    · rintro found l' ⟨rfl, -⟩
      cases found with
      | true => exact wp_addSidecar hl
      | false =>
        show (Cache.putBin _ _).wp _ _ _ _
        rw [Cache.putBin, Prog.wp_perform]
        refine ⟨trivial, ?_, ?_⟩
        · rintro - l' ⟨rfl, -⟩
          exact wp_addSidecar hl
        · rintro e l' ⟨rfl, -⟩
          exact hl
    · rintro e l' ⟨rfl, -⟩
      exact hl

theorem wp_writeMaterializedSidecar {info : CacheEntryInfo} (hl : l.held = false)
    (hlanded : l.landed = some info.sha256) :
    (Cache.writeMaterializedSidecar info).wp (protocol (.fetch info))
      (fun _ l' => l'.held = false) (fun _ l' => l'.held = false) l := by
  unfold Cache.writeMaterializedSidecar
  refine wp_withLock hl (by rintro info ⟨⟩; exact hlanded) ?_
  rw [Prog.bind_eq_bind]
  refine wp_lookup rfl ?_ ?_ fun _ => rfl
  · dsimp only
    rw [if_pos rfl, Prog.bind_eq_bind]
    refine wp_readFound rfl (fun existing hsha => ?_) fun _ => rfl
    split_ifs with hhash hsame
    · rfl
    · rw [Prog.bind_eq_bind, Prog.wp_bind]
      refine wp_writeSidecar rfl rfl ⟨hsha.symm, fun n => ?_⟩
      simp [Job.gains, Job.loses, Cache.mem_fromKeys, or_comm]
    · rfl
  · dsimp only
    rw [if_neg (by decide), Prog.bind_eq_bind, Prog.wp_bind]
    refine wp_writeSidecar rfl rfl ⟨rfl, fun n => ?_, info, rfl, rfl⟩
    simp [Job.gains]

/-- A fetch puts the content in place before it takes the lock. -/
theorem wp_fetch {H : Host} {info : CacheEntryInfo} (hl : l.held = false) :
    (Cache.fetchAndMaterialize H info).wp (protocol (.fetch info))
      (fun _ l' => l'.held = false) (fun _ l' => l'.held = false) l := by
  rw [Cache.fetchAndMaterialize, Prog.bind_eq_bind, Prog.wp_bind, Cache.fetch, Prog.bind_eq_bind,
    Prog.wp_bind, Cache.getFile, Prog.bind_eq_bind, Prog.wp_bind, Cache.request, Prog.wp_perform]
  refine ⟨trivial, ?_, ?_⟩
  · rintro resp l' ⟨rfl, -⟩
    show (ite _ _ _ : CacheProg Response).wp _ _ _ _
    split_ifs with hmiss hrefused
    · exact hl
    · show (ite _ _ _ : CacheProg Unit).wp _ _ _ _
      split_ifs with hhash
      · rw [Cache.putBin, Prog.wp_perform]
        refine ⟨trivial, ?_, ?_⟩
        · rintro - l' ⟨rfl, -⟩
          exact wp_writeMaterializedSidecar hl rfl
        · rintro e l' ⟨rfl, -⟩
          exact hl
      · exact hl
    · exact hl
  · rintro e l' ⟨rfl, -⟩
    exact hl

/-- `add_name` writes what it read first, with one name more. -/
theorem wp_addName {identifier newName : String} (hl : l.held = false) (hnew : ∀ s, l.reads s = none) :
    (Cache.addNameLocal identifier newName).wp (protocol (.addName identifier newName))
      (fun _ l' => l'.held = false) (fun _ l' => l'.held = false) l := by
  unfold Cache.addNameLocal
  split_ifs with hvalid
  · rw [Prog.bind_eq_bind, Prog.wp_bind]
    refine Prog.wp_mono ?_ (fun _ _ he => he.held) (wp_localResolve hl hnew)
    rintro info l₁ ⟨hroam, hread⟩
    split_ifs with hmem
    · exact hroam.held
    · rw [Prog.bind_eq_bind, Prog.wp_bind]
      refine wp_glob (fun shas hnodup => ?_) fun _ => hroam.held
      rw [Prog.bind_eq_bind, Prog.wp_bind]
      refine Prog.wp_mono ?_ (fun _ _ he => he) (wp_findByName hroam.held hnodup)
      rintro clash l₂ ⟨hroam', -⟩
      split_ifs with hclash
      · exact hroam'.held
      · rw [Cache.appendAlias, Prog.bind_eq_bind, Prog.wp_bind]
        refine wp_writeSidecar_unlocked rfl hroam'.held (hroam'.reads _ _ hread) fun n => ?_
        simp [Job.gains, Job.loses, or_comm]
  · exact hl

/-- `forget_name` writes what it read first, with one name less. -/
theorem wp_forgetName {name : String} (hl : l.held = false) (hnew : ∀ s, l.reads s = none) :
    (Cache.forgetNameLocal name).wp (protocol (.forgetName name))
      (fun _ l' => l'.held = false) (fun _ l' => l'.held = false) l := by
  rw [Cache.forgetNameLocal, Prog.bind_eq_bind, Prog.wp_bind]
  refine wp_glob (fun shas hnodup => ?_) fun _ => hl
  rw [Prog.bind_eq_bind, Prog.wp_bind]
  refine Prog.wp_mono ?_ (fun _ _ he => he) (wp_findByName hl hnodup)
  rintro found l' ⟨hroam, hfound⟩
  cases found with
  | none => exact hroam.held
  | some info =>
    obtain ⟨hread, -⟩ := hfound (fun s _ => hnew s) info rfl
    show (Prog.bind _ _).wp _ _ _ l'
    rw [Prog.wp_bind]
    refine wp_writeSidecar_unlocked rfl hroam.held hread fun n => ?_
    simp [Job.gains, Job.loses]

/-- An entry goes sidecar first. -/
theorem wp_unlinkEntry {sha : String} (hj : j.fetches = false) (hl : l.held = true) :
    (Cache.unlinkEntry sha).wp (protocol j) (fun _ l' => l'.held = true) (fun _ l' => l'.held = true) l := by
  rw [Cache.unlinkEntry, Prog.bind_eq_bind, Prog.wp_bind, Cache.unlinkSidecar, Prog.wp_perform]
  refine ⟨hl, ?_, ?_⟩
  · rintro - l' ⟨rfl, -⟩
    rw [Cache.unlinkBin, Prog.wp_perform]
    refine ⟨⟨hl, rfl, hj⟩, ?_, ?_⟩
    · rintro - l' ⟨rfl, -⟩
      exact hl
    · rintro e l' ⟨rfl, -⟩
      exact hl
  · rintro e l' ⟨rfl, -⟩
    exact hl

theorem wp_delete {identifier : String} (hl : l.held = false) (hnew : ∀ s, l.reads s = none) :
    (Cache.deleteLocal identifier).wp (protocol (.delete identifier))
      (fun _ l' => l'.held = false) (fun _ l' => l'.held = false) l := by
  rw [Cache.deleteLocal, Prog.bind_eq_bind, Prog.wp_bind]
  refine Prog.wp_mono ?_ (fun _ _ he => he.held) (wp_localResolve hl hnew)
  rintro info l' ⟨hroam, -⟩
  rw [Prog.bind_eq_bind, Prog.wp_bind]
  exact wp_withLock hroam.held (by rintro info ⟨⟩) (wp_unlinkEntry rfl rfl)

theorem wp_purge (hl : l.held = false) (hnew : ∀ s, l.reads s = none) :
    Cache.purge.wp (protocol .purge) (fun _ l' => l'.held = false) (fun _ l' => l'.held = false) l := by
  rw [Cache.purge, Prog.bind_eq_bind, Prog.wp_bind]
  refine wp_glob (fun shas hnodup => ?_) fun _ => hl
  rw [Prog.bind_eq_bind, Prog.wp_bind]
  refine Prog.wp_mono ?_ (fun _ _ he => he) (wp_iterEntries hl hnodup fun s _ => hnew s)
  rintro removed l' ⟨hroam, -, -⟩
  rw [Prog.bind_eq_bind, Prog.wp_bind]
  refine wp_withLock hroam.held (by rintro info ⟨⟩) ?_
  exact Prog.wp_forM (fun _ l'' => l''.held = true) (fun _ _ _ _ _ h => wp_unlinkEntry rfl h)
    (fun _ h => h) rfl

/-- Every method keeps to the protocol, and leaves without the lock. -/
theorem wp_program (H : Host) (j : Job) : (program H j).wp (protocol j) (fun _ l' => l'.held = false)
    (fun _ l' => l'.held = false) .start := by
  cases j with
  | add content origin name description =>
    rw [program, Prog.wp_bind]
    exact wp_add rfl
  | fetch info =>
    rw [program, Prog.wp_bind]
    exact wp_fetch rfl
  | addName identifier newName =>
    rw [program, Prog.wp_bind]
    exact wp_addName rfl fun _ => rfl
  | forgetName name =>
    rw [program, Prog.wp_bind]
    exact wp_forgetName rfl fun _ => rfl
  | delete identifier =>
    rw [program, Prog.wp_bind]
    exact wp_delete rfl fun _ => rfl
  | purge =>
    rw [program, Prog.wp_bind]
    exact wp_purge rfl fun _ => rfl

end Methods

/-! ### What the threads know is so -/

section Invariant

variable {ι : Type} [DecidableEq ι] {w : World ι} {ls : ι → Pos} {js : ι → Option Job} {t u : ι} {j : Option Job}
  {l : Pos}

/-- What was found under the lock is still so. -/
def StageOk (w : World ι) : Stage → Prop
  | .idle => True
  | .absent sha => w.isos.sidecars.find sha = none
  | .sized sha => w.isos.sidecars.find sha = none ∧ (w.isos.bins sha).isSome = true
  | .found sha cur => sha ∉ w.touched → w.isos.sidecars.find sha = some cur
  | .dropped sha => w.isos.sidecars.find sha = none

/-- What a thread knows is so. -/
structure Knows (w : World ι) (t : ι) (j : Option Job) (l : Pos) : Prop where
  doing : w.doing t = j
  lock : l.held = true ↔ w.lock = some t
  landed : w.landed t = l.landed
  idle : j = none → l.held = false ∧ l.landed = none
  read : ∀ s, l.reads s = none ↔ w.fresh t s = none
  fresh : ∀ s cur, l.reads s = some cur → w.fresh t s = some true → w.isos.sidecars.find s = some cur
  there : ∀ s, l.landed = some s → (w.isos.bins s).isSome = true
  stage : l.held = true → StageOk w l.stage
  fetched : ∀ info, j = some (.fetch info) → l.held = true → (w.isos.bins info.sha256).isSome = true

structure Inv (w : World ι) (ls : ι → Pos) (js : ι → Option Job) : Prop where
  whole : Whole w.isos
  aliases : ∀ sha name, Named w.isos sha name ↔ (sha, name) ∈ w.aliases
  knows : ∀ t, Knows w t (js t) (ls t)

omit [DecidableEq ι] in
/-- There is one lock. -/
theorem Knows.held_eq (h : Knows w t j l) (hlock : w.lock = some u) (hne : t ≠ u) : l.held = false := by
  by_contra hheld
  have hmine := h.lock.mp (by simpa using hheld)
  exact hne (Option.some.inj (hmine.symm.trans hlock))

omit [DecidableEq ι] in
theorem Knows.held_none (h : Knows w t j l) (hlock : w.lock = none) : l.held = false := by
  by_contra hheld
  rw [h.lock.mp (by simpa using hheld)] at hlock
  cases hlock

/-- One thread does something: what it knows then, and what the others know still. -/
theorem inv_of_step {w' : World ι} {l' : Pos} (hwhole : Whole w'.isos)
    (haliases : ∀ sha name, Named w'.isos sha name ↔ (sha, name) ∈ w'.aliases)
    (hself : Knows w' t j l') (hothers : ∀ u, u ≠ t → Knows w' u (js u) (ls u)) :
    Inv w' (Function.update ls t l') (Function.update js t j) := by
  refine ⟨hwhole, haliases, fun u => ?_⟩
  by_cases hu : u = t
  · subst hu
    rw [Function.update_self, Function.update_self]
    exact hself
  · rw [Function.update_of_ne hu, Function.update_of_ne hu]
    exact hothers u hu

theorem inv_of_call {w' : World ι} {l' : Pos} (hwhole : Whole w'.isos)
    (haliases : ∀ sha name, Named w'.isos sha name ↔ (sha, name) ∈ w'.aliases)
    (hself : Knows w' t (js t) l') (hothers : ∀ u, u ≠ t → Knows w' u (js u) (ls u)) :
    Inv w' (Function.update ls t l') js := by
  have h := inv_of_step hwhole haliases hself hothers
  rwa [Function.update_eq_self] at h

/-- The lock is taken. -/
theorem Inv.acquire (h : Inv w ls js) (hfree : w.lock = none)
    (hfetch : ∀ info, js t = some (.fetch info) → (ls t).landed = some info.sha256)
    (hjob : js t ≠ none) :
    Inv { w with lock := some t, landed := Function.update w.landed t none }
      (Function.update ls t (locked (ls t))) js := by
  have ht := h.knows t
  refine inv_of_call h.whole h.aliases ?_ fun u hu => ?_
  · exact { ht with
      lock := ⟨fun _ => rfl, fun _ => rfl⟩
      landed := Function.update_self ..
      idle := fun hnone => absurd hnone hjob
      there := by rintro s ⟨⟩
      stage := fun _ => trivial
      fetched := fun info hinfo _ => ht.there _ (hfetch info hinfo) }
  · have hk := h.knows u
    have hheld := hk.held_none hfree
    exact { hk with
      lock := by
        rw [hheld]
        exact ⟨by rintro ⟨⟩, fun heq => absurd (Option.some.inj heq).symm hu⟩
      landed := (Function.update_of_ne hu _ _).trans hk.landed
      stage := fun hl => by rw [hheld] at hl; cases hl }

/-- The lock is released. -/
theorem Inv.release (h : Inv w ls js) (hheld : (ls t).held = true) :
    Inv { w with lock := none } (Function.update ls t { ls t with held := false, stage := .idle }) js := by
  have ht := h.knows t
  refine inv_of_call h.whole h.aliases ?_ fun u hu => ?_
  · exact { ht with
      lock := ⟨by rintro ⟨⟩, by rintro ⟨⟩⟩
      idle := fun hnone => ⟨rfl, (ht.idle hnone).2⟩
      stage := by rintro ⟨⟩
      fetched := by rintro info hinfo ⟨⟩ }
  · have hk := h.knows u
    have hother := hk.held_eq (ht.lock.mp hheld) hu
    exact { hk with
      lock := by
        rw [hother]
        exact ⟨by rintro ⟨⟩, by rintro ⟨⟩⟩
      stage := fun hl => by rw [hother] at hl; cases hl }

/-- The holder of the lock looks at something: the others do not hold it. -/
theorem Inv.look (h : Inv w ls js) (hheld : (ls t).held = true) {stage : Stage}
    (hstage : StageOk { w with touched := looks w t } stage) :
    Inv { w with touched := looks w t } (Function.update ls t { ls t with stage := stage }) js := by
  have ht := h.knows t
  refine inv_of_call h.whole h.aliases ?_ fun u hu => ?_
  · exact { ht with stage := fun _ => hstage }
  · have hk := h.knows u
    have hother := hk.held_eq (ht.lock.mp hheld) hu
    exact { hk with stage := fun hl => by rw [hother] at hl; cases hl }

omit [DecidableEq ι] in
/-- What was read once is out of date from a change on, and the rest is as before. -/
theorem outdate_eq_none {fresh : ι → String → Option Bool} {sha s : String} :
    outdate fresh sha u s = none ↔ fresh u s = none := by
  unfold outdate
  split_ifs
  · exact Option.map_eq_none_iff
  · rfl

omit [DecidableEq ι] in
theorem of_outdate_eq_true {fresh : ι → String → Option Bool} {sha s : String}
    (h : outdate fresh sha u s = some true) : s ≠ sha ∧ fresh u s = some true := by
  unfold outdate at h
  split_ifs at h with hs
  · cases hfresh : fresh u s with
    | none => simp [hfresh] at h
    | some b => simp [hfresh] at h
  · exact ⟨hs, h⟩

/-- A sidecar is read. -/
theorem Inv.read (h : Inv w ls js) {sha : String} {info : CacheEntryInfo}
    (hfound : w.isos.sidecars.find sha = some info) :
    Inv (read w t sha) (Function.update ls t { ls t with
      reads := keep (ls t).reads sha info
      stage := if (ls t).held then .found sha info else (ls t).stage }) js := by
  have ht := h.knows t
  have hmine : ∀ s, (Concurrent.read w t sha).fresh t s =
      if s = sha then some ((w.fresh t sha).getD true) else w.fresh t s := by
    intro s
    simp only [Concurrent.read, Function.update_self, Function.update_apply]
  refine inv_of_call h.whole h.aliases ?_ fun u hu => ?_
  · refine { ht with read := fun s => ?_, fresh := fun s cur hcur hfresh => ?_, stage := fun hl => ?_ }
    · rw [hmine]
      by_cases hs : s = sha
      · subst hs
        simp [keep]
      · rw [if_neg hs]
        show keep (ls t).reads sha info s = none ↔ _
        rw [keep_of_ne hs]
        exact ht.read s
    · rw [hmine] at hfresh
      by_cases hs : s = sha
      · subst hs
        rw [if_pos rfl] at hfresh
        cases hread : (ls t).reads s with
        | none =>
          -- The first reading is what is there.
          have hkept : some info = some cur := (keep_of_none hread).symm.trans hcur
          exact hfound.trans hkept
        | some x =>
          -- It was read before, and is as it was then.
          have hkept : some x = some cur := (keep_of_some hread).symm.trans hcur
          have hold : w.fresh t s = some true := by
            cases hf : w.fresh t s with
            | none => exact absurd ((ht.read s).mpr hf) (by rw [hread]; rintro ⟨⟩)
            | some b => simpa [hf] using hfresh
          rw [← hkept]
          exact ht.fresh s x hread hold
      · rw [if_neg hs] at hfresh
        exact ht.fresh s cur ((keep_of_ne hs).symm.trans hcur) hfresh
    · have hheld : (ls t).held = true := hl
      rw [if_pos hheld]
      exact fun _ => hfound
  · have hk := h.knows u
    have hothers : ∀ s, (Concurrent.read w t sha).fresh u s = w.fresh u s := by
      intro s
      simp only [Concurrent.read, Function.update_of_ne hu]
    refine { hk with
      read := fun s => by rw [hothers]; exact hk.read s
      fresh := fun s cur hcur hfresh => hk.fresh s cur hcur (by rwa [hothers] at hfresh)
      stage := fun hl => ?_ }
    have hnot : w.lock ≠ some t := fun hlock => by
      rw [hk.held_eq hlock hu] at hl
      cases hl
    have hsame : (Concurrent.read w t sha).touched = w.touched := if_neg hnot
    have hstage := hk.stage hl
    cases hpos : (ls u).stage with
    | found s cur =>
      rw [hpos] at hstage
      exact fun htouched => hstage (by rwa [hsame] at htouched)
    | idle => trivial
    | absent s => rw [hpos] at hstage; exact hstage
    | sized s => rw [hpos] at hstage; exact hstage
    | dropped s => rw [hpos] at hstage; exact hstage

omit [DecidableEq ι] in
/-- The names of the entries after a write that the job derives from what is there. -/
theorem named_written (haliases : ∀ sha name, Named w.isos sha name ↔ (sha, name) ∈ w.aliases) {i : Job}
    {info : CacheEntryInfo} {names : List String} (hdoing : w.doing t = some i)
    (hnames : ∀ n, n ∈ names ↔ Named w.isos info.sha256 n) (hderived : Derived i names info.names)
    (sha name : String) :
    Named (written w t info).isos sha name ↔ (sha, name) ∈ (written w t info).aliases := by
  have hwritten : Named (written w t info).isos sha name ↔
      sha = info.sha256 ∧ name ∈ info.names ∨ sha ≠ info.sha256 ∧ Named w.isos sha name := by
    constructor
    · rintro ⟨x, hx, rfl, hn⟩
      rcases Keyed.mem_put.mp hx with rfl | ⟨hx, hne⟩
      · exact .inl ⟨rfl, hn⟩
      · exact .inr ⟨hne, x, hx, rfl, hn⟩
    · rintro (⟨rfl, hn⟩ | ⟨hne, x, hx, rfl, hn⟩)
      · exact ⟨info, Keyed.mem_put.mpr (.inl rfl), rfl, hn⟩
      · exact ⟨x, Keyed.mem_put.mpr (.inr ⟨hx, hne⟩), rfl, hn⟩
  have hsettled : (sha, name) ∈ (written w t info).aliases ↔
      sha = info.sha256 ∧ name ∈ i.gains ∨
        (sha, name) ∈ w.aliases ∧ ¬(sha = info.sha256 ∧ name ∈ i.loses) := by
    simp only [written, settle, hdoing, Option.elim_some, List.mem_append, List.mem_map, Prod.mk.injEq,
      List.mem_filter, decide_eq_true_eq, exists_eq_right_right]
    tauto
  rw [hwritten, hsettled, ← haliases, hderived, hnames]
  by_cases hsha : sha = info.sha256
  · subst hsha
    tauto
  · tauto

omit [DecidableEq ι] in
/-- A sidecar written where its content is. -/
theorem whole_written (hwhole : Whole w.isos) {info : CacheEntryInfo}
    (hbin : (w.isos.bins info.sha256).isSome = true) : Whole (written w t info).isos := by
  intro x hx
  rcases Keyed.mem_put.mp hx with rfl | ⟨hx, -⟩
  · exact hbin
  · exact hwhole x hx

omit [DecidableEq ι] in
theorem fresh_written {info : CacheEntryInfo} (hk : Knows w u j l) (s : String) (cur : CacheEntryInfo)
    (hcur : l.reads s = some cur) (hfresh : (written w t info).fresh u s = some true) :
    (written w t info).isos.sidecars.find s = some cur := by
  obtain ⟨hs, hold⟩ := of_outdate_eq_true hfresh
  exact (Keyed.find_put_of_ne hs).trans (hk.fresh s cur hcur hold)

omit [DecidableEq ι] in
theorem named_iff_of_find {sha : String} {cur : CacheEntryInfo} (h : w.isos.sidecars.find sha = some cur)
    (n : String) : n ∈ cur.names ↔ Named w.isos sha n := by
  obtain ⟨hcur, hkey⟩ := Keyed.find_eq_some.mp h
  constructor
  · intro hn
    exact ⟨cur, hcur, hkey, hn⟩
  · rintro ⟨x, hx, hxkey, hn⟩
    rwa [Keyed.eq_of_key_eq hcur hx (hkey.trans hxkey.symm)]

omit [DecidableEq ι] in
theorem named_iff_of_find_none {sha : String} (h : w.isos.sidecars.find sha = none) (n : String) :
    n ∈ ([] : List String) ↔ Named w.isos sha n := by
  constructor
  · rintro ⟨⟩
  · rintro ⟨x, hx, hkey, -⟩
    exact absurd hkey (Keyed.find_eq_none.mp h x hx)

/-- A sidecar is written without the lock, by a thread that knows it. -/
theorem Inv.write_unlocked (h : Inv w ls js) {i : Job} (hjob : js t = some i) (hunlocked : i.unlocked = true)
    {info cur : CacheEntryInfo} (hread : (ls t).reads info.sha256 = some cur)
    (hderived : Derived i cur.names info.names) (hfresh : w.fresh t info.sha256 = some true) :
    Inv (written w t info) (Function.update ls t { ls t with stage := .idle }) js := by
  have ht := h.knows t
  have hfound := ht.fresh _ cur hread hfresh
  have hdoing : w.doing t = some i := ht.doing.trans hjob
  obtain ⟨hcur, hkey⟩ := Keyed.find_eq_some.mp hfound
  refine inv_of_call (whole_written h.whole (hkey ▸ h.whole cur hcur))
    (named_written h.aliases hdoing (named_iff_of_find hfound) hderived) ?_ fun u hu => ?_
  · exact { ht with
      read := fun s => (ht.read s).trans outdate_eq_none.symm
      fresh := fun s x hx hfresh' => fresh_written ht s x hx hfresh'
      stage := fun _ => trivial }
  · have hk := h.knows u
    refine { hk with
      read := fun s => (hk.read s).trans outdate_eq_none.symm
      fresh := fresh_written hk
      stage := fun hl => ?_ }
    -- The sidecar was there, so the holder of the lock has not found it missing.
    have hstage := hk.stage hl
    have hother : ∀ s, w.isos.sidecars.find s = none →
        (written w t info).isos.sidecars.find s = none := by
      intro s hs
      have hne : s ≠ info.sha256 := by
        rintro rfl
        rw [hfound] at hs
        cases hs
      exact (Keyed.find_put_of_ne hne).trans hs
    cases hpos : (ls u).stage with
    | idle => trivial
    | absent s => rw [hpos] at hstage; exact hother s hstage
    | sized s => rw [hpos] at hstage; exact ⟨hother s hstage.1, hstage.2⟩
    | dropped s => rw [hpos] at hstage; exact hother s hstage
    | found s x =>
      rw [hpos] at hstage
      intro htouched
      have htouched : s ∉ info.sha256 :: w.touched := by
        simpa [written, hdoing, hunlocked] using htouched
      rw [List.mem_cons, not_or] at htouched
      exact (Keyed.find_put_of_ne htouched.1).trans (hstage htouched.2)

/-- A sidecar is written under the lock. -/
theorem Inv.write_locked (h : Inv w ls js) {i : Job} (hjob : js t = some i) (hunlocked : i.unlocked = false)
    {info : CacheEntryInfo} (hheld : (ls t).held = true) (hrecorded : Recorded i info (ls t).stage)
    (htouched : info.sha256 ∉ w.touched) :
    Inv (written w t info) (Function.update ls t { ls t with stage := .idle }) js := by
  have ht := h.knows t
  have hdoing : w.doing t = some i := ht.doing.trans hjob
  -- What is there, and that the content is.
  obtain ⟨names, hnames, hderived, hbin⟩ : ∃ names, (∀ n, n ∈ names ↔ Named w.isos info.sha256 n) ∧
      Derived i names info.names ∧ (w.isos.bins info.sha256).isSome = true := by
    have hstage := ht.stage hheld
    cases hpos : (ls t).stage with
    | found sha cur =>
      rw [hpos] at hstage hrecorded
      obtain ⟨rfl, hderived⟩ := hrecorded
      have hfound := hstage htouched
      obtain ⟨hcur, hkey⟩ := Keyed.find_eq_some.mp hfound
      exact ⟨cur.names, named_iff_of_find hfound, hderived, hkey ▸ h.whole cur hcur⟩
    | sized sha =>
      rw [hpos] at hstage hrecorded
      obtain ⟨rfl, hderived⟩ := hrecorded
      exact ⟨[], named_iff_of_find_none hstage.1, hderived, hstage.2⟩
    | absent sha =>
      rw [hpos] at hstage hrecorded
      obtain ⟨rfl, hderived, x, rfl, hx⟩ := hrecorded
      have hbin := ht.fetched x hjob hheld
      rw [hx] at hbin
      exact ⟨[], named_iff_of_find_none hstage, hderived, hbin⟩
    | idle => rw [hpos] at hrecorded; exact hrecorded.elim
    | dropped sha => rw [hpos] at hrecorded; exact hrecorded.elim
  refine inv_of_call (whole_written h.whole hbin) (named_written h.aliases hdoing hnames hderived) ?_
    fun u hu => ?_
  · exact { ht with
      read := fun s => (ht.read s).trans outdate_eq_none.symm
      fresh := fun s x hx hfresh' => fresh_written ht s x hx hfresh'
      stage := fun _ => trivial }
  · have hk := h.knows u
    have hother := hk.held_eq (ht.lock.mp hheld) hu
    exact { hk with
      read := fun s => (hk.read s).trans outdate_eq_none.symm
      fresh := fresh_written hk
      stage := fun hl => by rw [hother] at hl; cases hl }

omit [DecidableEq ι] in
theorem fresh_unlinked {sha : String} (hk : Knows w u j l) (s : String) (cur : CacheEntryInfo)
    (hcur : l.reads s = some cur) (hfresh : (unlinked w sha).fresh u s = some true) :
    (unlinked w sha).isos.sidecars.find s = some cur := by
  obtain ⟨hs, hold⟩ := of_outdate_eq_true hfresh
  exact (Keyed.find_erase_of_ne hs).trans (hk.fresh s cur hcur hold)

omit [DecidableEq ι] in
/-- The names of the entries without one of them. -/
theorem named_unlinked (haliases : ∀ sha name, Named w.isos sha name ↔ (sha, name) ∈ w.aliases)
    (gone sha name : String) :
    Named (unlinked w gone).isos sha name ↔ (sha, name) ∈ (unlinked w gone).aliases := by
  have hunlinked : Named (unlinked w gone).isos sha name ↔ Named w.isos sha name ∧ sha ≠ gone := by
    constructor
    · rintro ⟨x, hx, rfl, hn⟩
      obtain ⟨hx, hne⟩ := Keyed.mem_erase.mp hx
      exact ⟨⟨x, hx, rfl, hn⟩, hne⟩
    · rintro ⟨⟨x, hx, rfl, hn⟩, hne⟩
      exact ⟨x, Keyed.mem_erase.mpr ⟨hx, hne⟩, rfl, hn⟩
  rw [hunlinked, haliases]
  simp [unlinked]

/-- A sidecar is removed under the lock. -/
theorem Inv.unlink (h : Inv w ls js) {sha : String} (hheld : (ls t).held = true) :
    Inv (unlinked w sha) (Function.update ls t { ls t with stage := .dropped sha }) js := by
  have ht := h.knows t
  refine inv_of_call ?_ (named_unlinked h.aliases sha) ?_ fun u hu => ?_
  · intro x hx
    exact h.whole x (Keyed.mem_erase.mp hx).1
  · exact { ht with
      read := fun s => (ht.read s).trans outdate_eq_none.symm
      fresh := fun s x hx hfresh => fresh_unlinked ht s x hx hfresh
      stage := fun _ => Keyed.find_erase_self }
  · have hk := h.knows u
    have hother := hk.held_eq (ht.lock.mp hheld) hu
    exact { hk with
      read := fun s => (hk.read s).trans outdate_eq_none.symm
      fresh := fresh_unlinked hk
      stage := fun hl => by rw [hother] at hl; cases hl }

/-- What is put in place stays there. -/
theorem isSome_update {bins : String → Option Bytes} {s : String} (h : (bins s).isSome = true) (sha : String)
    (content : Bytes) : (Function.update bins sha (some content) s).isSome = true := by
  by_cases hs : s = sha
  · subst hs
    rw [Function.update_self]
    rfl
  · rw [Function.update_of_ne hs]
    exact h

/-- A content is put in place. -/
theorem Inv.place (h : Inv w ls js) {i : Job} (hjob : js t = some i) (sha : String) (content : Bytes) :
    Inv (placed w t sha content)
      (Function.update ls t { ls t with landed := if i.fetches then some sha else (ls t).landed }) js := by
  have ht := h.knows t
  have hdoing : w.doing t = some i := ht.doing.trans hjob
  have hstage : ∀ stage, StageOk w stage → StageOk (placed w t sha content) stage := by
    intro stage hstage
    cases stage with
    | sized s => exact ⟨hstage.1, isSome_update hstage.2 _ _⟩
    | idle => trivial
    | absent s => exact hstage
    | found s cur => exact hstage
    | dropped s => exact hstage
  refine inv_of_call (fun x hx => isSome_update (h.whole x hx) _ _) h.aliases ?_ fun u hu => ?_
  · refine { ht with
      landed := ?_
      idle := fun hnone => by rw [hjob] at hnone; cases hnone
      there := fun s hs => ?_
      stage := fun hl => hstage _ (ht.stage hl)
      fetched := fun info hinfo hl => isSome_update (ht.fetched info hinfo hl) _ _ }
    · cases hfetches : i.fetches with
      | true => simp [placed, hdoing, hfetches]
      | false => simp [placed, hdoing, hfetches, ht.landed]
    · cases hfetches : i.fetches with
      | true =>
        obtain rfl : sha = s := by simpa [hfetches] using hs
        simp [placed]
      | false => exact isSome_update (ht.there s (by simpa [hfetches] using hs)) _ _
  · have hk := h.knows u
    refine { hk with
      landed := ?_
      there := fun s hs => isSome_update (hk.there s hs) _ _
      stage := fun hl => hstage _ (hk.stage hl)
      fetched := fun info hinfo hl => isSome_update (hk.fetched info hinfo hl) _ _ }
    cases hfetches : i.fetches with
    | true => simp [placed, hdoing, hfetches, hu, hk.landed]
    | false => simp [placed, hdoing, hfetches, hk.landed]

/-- A content is removed under the lock, after its sidecar. -/
theorem Inv.unlinkBin (h : Inv w ls js) {i : Job} (hjob : js t = some i) {sha : String}
    (hheld : (ls t).held = true) (hdropped : (ls t).stage = .dropped sha) (hfetches : i.fetches = false)
    (hlanded : ∀ u, w.landed u ≠ some sha) :
    Inv { w with isos.bins := Function.update w.isos.bins sha none } ls js := by
  have ht := h.knows t
  have hgone : w.isos.sidecars.find sha = none := by
    have hstage := ht.stage hheld
    rwa [hdropped] at hstage
  have hthere : ∀ u s, (ls u).landed = some s →
      (Function.update w.isos.bins sha none s).isSome = true := by
    intro u s hs
    have hne : s ≠ sha := by
      rintro rfl
      exact hlanded u ((h.knows u).landed.trans hs)
    rw [Function.update_of_ne hne]
    exact (h.knows u).there s hs
  have hresult : Inv { w with isos.bins := Function.update w.isos.bins sha none }
      (Function.update ls t (ls t)) js := by
    refine inv_of_call (fun x hx => ?_) h.aliases ?_ fun u hu => ?_
    · have hne : x.sha256 ≠ sha := Keyed.find_eq_none.mp hgone x hx
      show (Function.update w.isos.bins sha none x.sha256).isSome = true
      rw [Function.update_of_ne hne]
      exact h.whole x hx
    · refine { ht with
        there := hthere t
        stage := fun _ => ?_
        fetched := fun info hinfo _ => ?_ }
      · rw [hdropped]
        exact hgone
      · rw [hjob] at hinfo
        cases hinfo
        cases hfetches
    · have hk := h.knows u
      have hother := hk.held_eq (ht.lock.mp hheld) hu
      exact { hk with
        there := hthere u
        stage := fun hl => by rw [hother] at hl; cases hl
        fetched := fun info hinfo hl => by rw [hother] at hl; cases hl }
  rwa [Function.update_eq_self] at hresult

/-- A content is looked at. -/
theorem Inv.stat (h : Inv w ls js) {sha : String} {content : Bytes}
    (hbin : w.isos.bins sha = some content) {i : Job} {size : ℕ} :
    Inv w (Function.update ls t (after i (ls t) (.statBin sha) (.ok size))) js := by
  have ht := h.knows t
  refine inv_of_call h.whole h.aliases ?_ fun u _ => h.knows u
  refine { ht with stage := fun hl => ?_ }
  have hstage := ht.stage hl
  simp only [after]
  split
  · rename_i s hpos
    rw [hpos] at hstage
    split_ifs with hs
    · subst hs
      exact ⟨hstage, by rw [hbin]; rfl⟩
    · exact hstage
  · exact hstage

/-- Nothing has changed. -/
theorem Inv.same (h : Inv w ls js) : Inv w (Function.update ls t (ls t)) js := by
  rwa [Function.update_eq_self]

/-- A call that is allowed keeps what the threads know. -/
theorem inv_call {i : Job} {o : CacheOp} {r : Except CacheErr (cacheSig.Res o)} {w' : World ι}
    (h : Inv w ls js) (hjob : js t = some i) (hok : Ok i (ls t) o) (hguarded : Guarded w js t o r)
    (hsem : sem t o w r w') :
    ∃ l', (protocol i).next o (ls t) r l' ∧ Inv w' (Function.update ls t l') js := by
  refine ⟨after i (ls t) o r, ⟨rfl, ?_⟩, ?_⟩
  · -- What the answers say.
    cases o with
    | glob =>
      rintro shas rfl
      rcases hsem.1 with ⟨e, he⟩ | hshas
      · cases he
      · cases hshas
        exact w.isos.sidecars.sorted.imp_of_mem (fun _ _ hlt => hlt.ne) |>.map _ fun _ _ hne => hne
    | readSidecar sha =>
      rintro info rfl
      rcases hsem with ⟨e, he, -⟩ | ⟨x, hx, hr, -⟩
      · cases he
      · cases hr
        exact (Keyed.find_eq_some.mp hx).2
    | acquire => exact hsem.2.1
    | _ => trivial
  · cases o with
    | acquire =>
      obtain ⟨hfree, rfl, rfl⟩ := hsem
      exact h.acquire hfree (fun info hinfo => hok.2 info (Option.some.inj (hjob.symm.trans hinfo)))
        (by rw [hjob]; rintro ⟨⟩)
    | release =>
      obtain ⟨rfl, rfl⟩ := hsem
      exact h.release hok
    | glob =>
      obtain ⟨-, rfl⟩ := hsem
      exact h.same
    | sidecarExists sha =>
      rcases hsem with ⟨e, rfl, rfl⟩ | ⟨rfl, rfl⟩
      · exact h.same
      · cases hfound : w.isos.sidecars.find sha with
        | none => exact h.look hok hfound
        | some info => exact h.look hok trivial
    | readSidecar sha =>
      rcases hsem with ⟨e, rfl, rfl⟩ | ⟨info, hfound, rfl, rfl⟩
      · exact h.same
      · exact h.read hfound
    | writeSidecar info =>
      rcases hsem with ⟨e, rfl, rfl⟩ | ⟨rfl, rfl⟩
      · exact h.same
      · simp only [Guarded, hjob, Option.any_some] at hguarded
        cases hunlocked : i.unlocked with
        | true =>
          rw [Ok, if_pos hunlocked] at hok
          rw [if_pos hunlocked] at hguarded
          obtain ⟨cur, hread, hderived⟩ := hok
          exact h.write_unlocked hjob hunlocked hread hderived hguarded
        | false =>
          rw [Ok, if_neg (by simp [hunlocked])] at hok
          rw [if_neg (by simp [hunlocked])] at hguarded
          exact h.write_locked hjob hunlocked hok.1 hok.2 hguarded
    | unlinkSidecar sha =>
      rcases hsem with ⟨e, rfl, rfl⟩ | ⟨rfl, rfl⟩
      · exact h.same
      · exact h.unlink hok
    | binExists sha =>
      obtain ⟨-, rfl⟩ := hsem
      exact h.same
    | putBin sha content =>
      rcases hsem with ⟨e, rfl, rfl⟩ | ⟨rfl, rfl⟩
      · exact h.same
      · exact h.place hjob sha content
    | statBin sha =>
      obtain ⟨⟨e, rfl⟩ | ⟨content, hbin, rfl⟩, rfl⟩ := hsem
      · exact h.same
      · exact h.stat hbin
    | readBin sha =>
      obtain ⟨-, rfl⟩ := hsem
      exact h.same
    | unlinkBin sha =>
      rcases hsem with ⟨e, rfl, rfl⟩ | ⟨rfl, rfl⟩
      · exact h.same
      · exact (h.unlinkBin hjob hok.1 hok.2.1 hok.2.2 hguarded).same
    | now =>
      obtain rfl := hsem
      exact h.same
    | request x =>
      obtain rfl := hsem
      exact h.same

/-- A method is called. -/
theorem Inv.start (h : Inv w ls js) (hfree : js t = none) (i : Job) :
    Inv { w with
      doing := Function.update w.doing t (some i)
      fresh := Function.update w.fresh t fun _ => none }
      (Function.update ls t .start) (Function.update js t (some i)) := by
  have ht := h.knows t
  obtain ⟨hheld, hlanded⟩ := ht.idle hfree
  refine inv_of_step h.whole h.aliases ?_ fun u hu => ?_
  · refine ⟨Function.update_self .., ?_, ht.landed.trans hlanded, by rintro ⟨⟩, fun s => ?_, by rintro s cur ⟨⟩,
      by rintro s ⟨⟩, by rintro ⟨⟩, by rintro info - ⟨⟩⟩
    · show false = true ↔ w.lock = some t
      rw [← ht.lock, hheld]
    · show none = none ↔ Function.update w.fresh t (fun _ => none) t s = none
      rw [Function.update_self]
      exact ⟨fun _ => rfl, fun _ => rfl⟩
  · have hk := h.knows u
    have hothers : Function.update w.fresh t (fun _ => none) u = w.fresh u := Function.update_of_ne hu _ _
    refine { hk with
      doing := (Function.update_of_ne hu _ _).trans hk.doing
      read := fun s => ?_
      fresh := fun s cur hcur hfresh => hk.fresh s cur hcur ?_ }
    · show (ls u).reads s = none ↔ Function.update w.fresh t (fun _ => none) u s = none
      rw [hothers]
      exact hk.read s
    · rw [← hothers]
      exact hfresh

/-- A method ends, or its thread is interrupted and leaves the lock. -/
theorem Inv.leave (h : Inv w ls js) {lock : Option ι} (hmine : lock ≠ some t)
    (hothers : ∀ u, u ≠ t → (lock = some u ↔ w.lock = some u)) :
    Inv { w with
      lock := lock
      doing := Function.update w.doing t none
      landed := Function.update w.landed t none }
      (Function.update ls t { ls t with held := false, landed := none }) (Function.update js t none) := by
  have ht := h.knows t
  refine inv_of_step h.whole h.aliases ?_ fun u hu => ?_
  · exact { ht with
      doing := Function.update_self ..
      lock := ⟨by rintro ⟨⟩, fun hlock => absurd hlock hmine⟩
      landed := Function.update_self ..
      idle := fun _ => ⟨rfl, rfl⟩
      there := by rintro s ⟨⟩
      stage := by rintro ⟨⟩
      fetched := by rintro info ⟨⟩ }
  · have hk := h.knows u
    exact { hk with
      doing := (Function.update_of_ne hu _ _).trans hk.doing
      lock := hk.lock.trans (hothers u hu).symm
      landed := (Function.update_of_ne hu _ _).trans hk.landed }

/-- A method that ends has left the lock. -/
theorem Inv.finish (h : Inv w ls js) (hheld : (ls t).held = false) :
    Inv { w with doing := Function.update w.doing t none, landed := Function.update w.landed t none }
      (Function.update ls t { ls t with held := false, landed := none }) (Function.update js t none) := by
  refine h.leave (fun hlock => ?_) fun _ _ => Iff.rfl
  rw [(h.knows t).lock.mpr hlock] at hheld
  cases hheld

theorem Inv.die (h : Inv w ls js) (t : ι) :
    Inv { w with
      lock := if w.lock = some t then none else w.lock
      doing := Function.update w.doing t none
      landed := Function.update w.landed t none }
      (Function.update ls t { ls t with held := false, landed := none }) (Function.update js t none) := by
  refine h.leave ?_ fun u hu => ?_
  · split_ifs with hlock
    · rintro ⟨⟩
    · exact hlock
  · split_ifs with hlock
    · rw [hlock]
      exact ⟨by rintro ⟨⟩, fun heq => absurd (Option.some.inj heq).symm hu⟩
    · rfl

/-- The discipline of the threads. -/
def discipline (H : Host) : Threads.Discipline (system H) (Guarded : Threads.Condition _ _ ι _ _) Initial Pos where
  logic := protocol
  returned _ l := l.held = false
  raised _ l := l.held = false
  inv := Inv
  init w hw := by
    refine ⟨fun _ => .start, hw.whole, hw.aliases, fun t => ⟨?_, ?_, ?_, fun _ => ⟨rfl, rfl⟩, fun s => ?_,
      by rintro s cur ⟨⟩, by rintro s ⟨⟩, by rintro ⟨⟩, by rintro info ⟨⟩⟩⟩
    · rw [hw.doing]
    · rw [hw.lock]
      exact ⟨by rintro ⟨⟩, by rintro ⟨⟩⟩
    · rw [hw.landed]
      rfl
    · rw [hw.fresh]
      exact ⟨fun _ => rfl, fun _ => rfl⟩
  start i h hfree := ⟨_, h.start hfree i, wp_program H i⟩
  call h hjob hok hguarded hsem := inv_call h hjob hok hguarded hsem
  ret h _ hheld := ⟨_, h.finish hheld⟩
  raise h _ hheld := ⟨_, h.finish hheld⟩
  die t h := ⟨_, h.die t⟩

/-- **The cache is sound under threads**: in every run in which no sidecar is written past an
unlocked write and no content is removed between a fetch and its record, no alias is lost that
was not removed, none is back that was not attached again, and every sidecar has its content. -/
theorem interleaved_sound {H : Host} {c : Threads cacheSig CacheErr ι Job (World ι)}
    (hc : Threads.Reachable (system H) Guarded Initial c) : Sound c := by
  obtain ⟨ls, hinv, -⟩ := (discipline H).reachable hc
  have h : Inv c.world ls c.jobs := hinv
  exact ⟨fun sha name => (h.aliases sha name).mpr, fun sha name => (h.aliases sha name).mp, fun _ => h.whole⟩

end Invariant

/-! ### Two threads -/

namespace Pair

open Cache.Letters

/-- Calls that raise only where they have to. -/
def answer (t : Fin 2) : Prog.Handler cacheSig CacheErr (World (Fin 2))
  | .acquire, w => (.ok (), { w with lock := some t, landed := Function.update w.landed t none })
  | .release, w => (.ok (), { w with lock := none })
  | .glob, w => (.ok (w.isos.sidecars.items.map (·.sha256)), w)
  | .sidecarExists sha, w =>
    (.ok (w.isos.sidecars.find sha).isSome, { w with touched := looks w t })
  | .readSidecar sha, w =>
    match w.isos.sidecars.find sha with
    | some info => (.ok info, read w t sha)
    | none => (.error .other, w)
  | .writeSidecar info, w => (.ok (), written w t info)
  | .unlinkSidecar sha, w => (.ok (), unlinked w sha)
  | .binExists sha, w => (.ok (w.isos.bins sha).isSome, w)
  | .putBin sha content, w => (.ok (), placed w t sha content)
  | .statBin sha, w =>
    match w.isos.bins sha with
    | some content => (.ok content.length, w)
    | none => (.error .other, w)
  | .readBin sha, w =>
    match w.isos.bins sha with
    | some content => (.ok content, w)
    | none => (.error .other, w)
  | .unlinkBin sha, w => (.ok (), { w with isos.bins := Function.update w.isos.bins sha none })
  | .now, w => (.ok "2025-01-01T00:00:00+00:00", w)
  | .request _, w => (.error .cache, w)

/-- A thread waits for the lock. -/
def unblocked (w : World (Fin 2)) (_ : Fin 2 → Option Job) (_ : Fin 2) : CacheOp → Bool
  | .acquire => w.lock.isNone
  | _ => true

theorem sem_answer (w : World (Fin 2)) (js : Fin 2 → Option Job) (t : Fin 2) (o : CacheOp)
    (h : unblocked w js t o = true) : sem t o w (answer t o w).1 (answer t o w).2 := by
  cases o with
  | acquire => exact ⟨Option.isNone_iff_eq_none.mp h, rfl, rfl⟩
  | release => exact ⟨rfl, rfl⟩
  | glob => exact ⟨.inr rfl, rfl⟩
  | binExists sha => exact ⟨.inr rfl, rfl⟩
  | readSidecar sha =>
    unfold answer
    dsimp only
    split
    · exact .inr ⟨_, ‹_›, rfl, rfl⟩
    · exact .inl ⟨_, rfl, rfl⟩
  | statBin sha =>
    unfold answer
    dsimp only
    split
    · exact ⟨.inr ⟨_, ‹_›, rfl⟩, rfl⟩
    · exact ⟨.inl ⟨_, rfl⟩, rfl⟩
  | readBin sha =>
    unfold answer
    dsimp only
    split
    · exact ⟨.inr ⟨_, ‹_›, rfl⟩, rfl⟩
    · exact ⟨.inl ⟨_, rfl⟩, rfl⟩
  | now => rfl
  | request r => rfl
  | _ => exact .inr ⟨rfl, rfl⟩

/-- A cache with one entry, of the name `base`. -/
def cache : World (Fin 2) where
  isos := ⟨Keyed.empty.put (entry shaA ["base"]), fun sha => if sha = shaA then some [97] else none⟩
  lock := none
  doing _ := none
  aliases := [(shaA, "base")]
  fresh _ _ := none
  touched := []
  landed _ := none

theorem initial_cache : Initial cache := by
  refine ⟨rfl, rfl, rfl, rfl, fun sha name => ?_, fun info hinfo => ?_⟩
  · constructor
    · rintro ⟨info, hinfo, rfl, hname⟩
      rcases Keyed.mem_put.mp hinfo with rfl | ⟨hinfo, -⟩
      · obtain rfl := List.mem_singleton.mp hname
        exact List.mem_singleton_self _
      · exact absurd hinfo Keyed.not_mem_empty
    · intro h
      cases List.mem_singleton.mp h
      exact ⟨_, Keyed.mem_put.mpr (.inl rfl), rfl, List.mem_singleton_self _⟩
  · rcases Keyed.mem_put.mp hinfo with rfl | ⟨hinfo, -⟩
    · decide
    · exact absurd hinfo Keyed.not_mem_empty

/-- The threads after a script. -/
def played (moves : List (Threads.Move (Fin 2) Job)) : Threads cacheSig CacheErr (Fin 2) Job (World (Fin 2)) :=
  Threads.play (system host) unblocked answer moves ⟨cache, fun _ => none⟩

/-- No condition on the calls. -/
def free : Threads.Condition cacheSig CacheErr (Fin 2) Job (World (Fin 2)) := fun _ _ _ _ _ => True

theorem reachable_free (moves : List (Threads.Move (Fin 2) Job)) :
    Threads.Reachable (system host) free Initial (played moves) :=
  Threads.reachable_play (fun _ _ _ _ _ _ => trivial) sem_answer (.init initial_cache) moves

/-- A method from its call to its end, in that many operations. -/
def whole (t : Fin 2) (j : Job) (calls : ℕ) : List (Threads.Move (Fin 2) Job) :=
  .start t j :: List.replicate calls (.call t) ++ [.finish t]

/-- Thread 0 has read the entry to give it the name `x` and is about to write it; meanwhile
thread 1 calls a method; then thread 0 writes. -/
def across (j : Job) (calls : ℕ) : List (Threads.Move (Fin 2) Job) :=
  .start 0 (.addName "base" "x") :: List.replicate 4 (.call 0) ++ whole 1 j calls ++ [.call 0, .finish 0]

def lost : List (Threads.Move (Fin 2) Job) := across (.add [97] "copy.iso" (some "y") none) 6

def orphaned : List (Threads.Move (Fin 2) Job) := across (.delete "base") 6

/-- Both methods have returned, and the alias `y` that `add` has attached is gone; and both have
returned, and the sidecar that `delete` has removed is there without its content. -/
theorem unlocked_races :
    (∃ c, Threads.Reachable (system host) free Initial c ∧ (∀ t, c.running t = none) ∧
      (shaA, "y") ∈ c.world.aliases ∧ ¬Named c.world.isos shaA "y" ∧ ¬Sound c) ∧
    ∃ c, Threads.Reachable (system host) free Initial c ∧ (∀ t, c.running t = none) ∧
      ¬Whole c.world.isos ∧ ¬Sound c := by
  constructor
  · have hidle : ∀ t, (played lost).running t = none := by
      intro t
      match t with
      | 0 => rfl
      | 1 => rfl
    have hattached : (shaA, "y") ∈ (played lost).world.aliases := by decide
    have hfound : (played lost).world.isos.sidecars.find shaA = some (entry shaA ["base", "x"]) := rfl
    have hgone : ¬Named (played lost).world.isos shaA "y" := by
      rw [← named_iff_of_find hfound]
      decide
    exact ⟨_, reachable_free lost, hidle, hattached, hgone, fun h => hgone (h.kept _ _ hattached)⟩
  · have hidle : ∀ t, (played orphaned).running t = none := by
      intro t
      match t with
      | 0 => rfl
      | 1 => rfl
    have hfound : (played orphaned).world.isos.sidecars.find shaA = some (entry shaA ["base", "x"]) := rfl
    have hbin : (played orphaned).world.isos.bins shaA = none := rfl
    have hpartial : ¬Whole (played orphaned).world.isos := by
      intro h
      have hsome := h _ (Keyed.find_eq_some.mp hfound).1
      rw [show (entry shaA ["base", "x"]).sha256 = shaA from rfl, hbin] at hsome
      cases hsome
    exact ⟨_, reachable_free orphaned, hidle, hpartial, fun h => hpartial (h.whole hidle)⟩

/-- The calls that meet the condition. -/
def careful (w : World (Fin 2)) (js : Fin 2 → Option Job) (t : Fin 2) (o : CacheOp) : Bool :=
  unblocked w js t o && match o with
    | .writeSidecar info =>
      if (js t).any Job.unlocked then w.fresh t info.sha256 == some true
      else decide (info.sha256 ∉ w.touched)
    | .unlinkBin sha => decide (∀ u, w.landed u ≠ some sha)
    | _ => true

theorem guarded_of_careful (w : World (Fin 2)) (js : Fin 2 → Option Job) (t : Fin 2) (o : CacheOp)
    (r : Except CacheErr (cacheSig.Res o)) (h : careful w js t o = true) : Guarded w js t o r := by
  obtain ⟨-, hcareful⟩ := Bool.and_eq_true_iff.mp h
  cases o with
  | writeSidecar info =>
    rw [Guarded]
    dsimp only at hcareful
    split_ifs with hunlocked
    · rw [if_pos hunlocked] at hcareful
      exact eq_of_beq hcareful
    · rw [if_neg hunlocked] at hcareful
      exact of_decide_eq_true hcareful
  | unlinkBin sha =>
    have hlanded : ∀ u, w.landed u ≠ some sha := of_decide_eq_true hcareful
    exact hlanded
  | _ => trivial

/-- The threads after a script whose calls all meet the condition. -/
def guarded (moves : List (Threads.Move (Fin 2) Job)) : Threads cacheSig CacheErr (Fin 2) Job (World (Fin 2)) :=
  Threads.play (system host) careful answer moves ⟨cache, fun _ => none⟩

/-- Thread 0 names the content `a`, and between its read and its write thread 1 adds the content
`b`. -/
def overlapping : List (Threads.Move (Fin 2) Job) :=
  across (.add [98] "other.iso" (some "y") none) 8

/-- Both methods have returned, both aliases are attached, and the cache is sound. -/
theorem sound_overlapping : (∀ t, (guarded overlapping).running t = none) ∧
    (shaA, "x") ∈ (guarded overlapping).world.aliases ∧
    (shaB, "y") ∈ (guarded overlapping).world.aliases ∧ Sound (guarded overlapping) := by
  have hidle : ∀ t, (guarded overlapping).running t = none := by
    intro t
    match t with
    | 0 => rfl
    | 1 => rfl
  exact ⟨hidle, by decide, by decide, interleaved_sound (Threads.reachable_play guarded_of_careful
    (fun w js t o h => sem_answer w js t o (Bool.and_eq_true_iff.mp h).1) (.init initial_cache) _)⟩

end Pair

end Interleaved

end TestRange
