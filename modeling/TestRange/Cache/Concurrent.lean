/-
The local cache under threads.

Threads of one process call the methods of one cache, and their file operations interleave.
`_write_lock` guards the sidecars of `add`, of a fetch, of `delete` and of `purge`; `add_name`
and `forget_name` read and write theirs without it.

* `Concurrent.Job`, `Concurrent.program` — the methods a thread may call;
* `Concurrent.World` — the files and the lock, with the history of the aliases;
* `Concurrent.sem`, `Concurrent.system` — what an operation of a thread does;
* `Concurrent.Sound` — the aliases are those that were attached and not removed, and the
  sidecars have their contents;
* `Concurrent.Guarded` — no write of a sidecar overlaps another that is not under the lock,
  and no content is removed between a fetch and its sidecar.
-/
import TestRange.Cache.Manager
import TestRange.Lib.Threads

namespace TestRange

namespace Concurrent

/-! ### Methods -/

/-- The calls of a thread. -/
inductive Job
  | add (content : Bytes) (origin : String) (name description : Option String)
  /-- `_fetch_and_materialize`, the caller of `write_materialized_sidecar` -/
  | fetch (info : CacheEntryInfo)
  | addName (identifier newName : String)
  | forgetName (name : String)
  | delete (identifier : String)
  | purge

namespace Job

/-- The aliases the method attaches to its entry. -/
def gains : Job → List String
  | .add _ _ name _ => name.toList
  | .fetch info => info.names
  | .addName _ newName => [newName]
  | _ => []

/-- The aliases it removes from its entry, where it does not remove the entry. -/
def loses : Job → List String
  | .forgetName name => [name]
  | _ => []

/-- The methods that write a sidecar without the lock. -/
def unlocked : Job → Bool
  | .addName _ _ => true
  | .forgetName _ => true
  | _ => false

def fetches : Job → Bool
  | .fetch _ => true
  | _ => false

end Job

def program (H : Host) : Job → CacheProg Unit
  | .add content origin name description =>
    (Cache.add H content origin name description).bind fun _ => pure ()
  | .fetch info => (Cache.fetchAndMaterialize H info).bind fun _ => pure ()
  | .addName identifier newName => (Cache.addNameLocal identifier newName).bind fun _ => pure ()
  | .forgetName name => (Cache.forgetNameLocal name).bind fun _ => pure ()
  | .delete identifier => (Cache.deleteLocal identifier).bind fun _ => pure ()
  | .purge => Cache.purge.bind fun _ => pure ()

/-! ### The world -/

/-- The files and the lock, and what happened to them. -/
structure World (ι : Type) where
  isos : Cache.Isos
  /-- `_write_lock`, by its holder -/
  lock : Option ι
  doing : ι → Option Job
  /-- the aliases that were there at first and those that were attached since, less those that
  were removed -/
  aliases : List (String × String)
  /-- whether nobody wrote or removed a sidecar since the thread first read it in its job; none
  for a sidecar it has not read -/
  fresh : ι → String → Option Bool
  /-- the sidecars `add_name` and `forget_name` wrote since the holder of the lock last looked
  for one -/
  touched : List String
  /-- the content a fetch has put in place and not yet recorded -/
  landed : ι → Option String

section Effects

variable {ι : Type} [DecidableEq ι]

/-- What was read of a sidecar is out of date. -/
def outdate (fresh : ι → String → Option Bool) (sha : String) : ι → String → Option Bool :=
  fun u s => if s = sha then (fresh u s).map fun _ => false else fresh u s

/-- The aliases after a write by a job. -/
def settle (j : Option Job) (sha : String) (aliases : List (String × String)) : List (String × String) :=
  (j.elim [] Job.gains).map (sha, ·) ++
    aliases.filter fun a => ¬(a.1 = sha ∧ a.2 ∈ j.elim [] Job.loses)

variable (w : World ι) (t : ι)

/-- The holder of the lock looks at what is there. -/
def looks : List String := if w.lock = some t then [] else w.touched

/-- A sidecar is read. -/
def read (sha : String) : World ι :=
  { w with
    fresh := Function.update w.fresh t (Function.update (w.fresh t) sha (some ((w.fresh t sha).getD true)))
    touched := looks w t }

/-- A sidecar is written. -/
def written (info : CacheEntryInfo) : World ι :=
  { w with
    isos.sidecars := w.isos.sidecars.put info
    aliases := settle (w.doing t) info.sha256 w.aliases
    fresh := outdate w.fresh info.sha256
    touched := if (w.doing t).any Job.unlocked then info.sha256 :: w.touched else w.touched }

/-- A sidecar is removed. -/
def unlinked (sha : String) : World ι :=
  { w with
    isos.sidecars := w.isos.sidecars.erase sha
    aliases := w.aliases.filter fun a => a.1 ≠ sha
    fresh := outdate w.fresh sha }

/-- A content is put in place. -/
def placed (sha : String) (content : Bytes) : World ι :=
  { w with
    isos.bins := Function.update w.isos.bins sha (some content)
    landed := if (w.doing t).any Job.fetches then Function.update w.landed t (some sha) else w.landed }

end Effects

section System

variable {ι : Type} [DecidableEq ι]

/-- What an operation of a thread answers and does.  Every operation on a file may raise before
it has taken effect; the lock is waited for. -/
def sem (t : ι) : Prog.Sem cacheSig CacheErr (World ι)
  | .acquire, w, r, w' => w.lock = none ∧ r = .ok () ∧
      w' = { w with lock := some t, landed := Function.update w.landed t none }
  | .release, w, r, w' => r = .ok () ∧ w' = { w with lock := none }
  | .glob, w, r, w' =>
      ((∃ e, r = .error e) ∨ r = .ok (w.isos.sidecars.items.map (·.sha256))) ∧ w' = w
  | .sidecarExists sha, w, r, w' => (∃ e, r = .error e ∧ w' = w) ∨
      r = .ok (w.isos.sidecars.find sha).isSome ∧ w' = { w with touched := looks w t }
  | .readSidecar sha, w, r, w' => (∃ e, r = .error e ∧ w' = w) ∨
      ∃ info, w.isos.sidecars.find sha = some info ∧ r = .ok info ∧ w' = read w t sha
  | .writeSidecar info, w, r, w' => (∃ e, r = .error e ∧ w' = w) ∨ r = .ok () ∧ w' = written w t info
  | .unlinkSidecar sha, w, r, w' => (∃ e, r = .error e ∧ w' = w) ∨ r = .ok () ∧ w' = unlinked w sha
  | .binExists sha, w, r, w' => ((∃ e, r = .error e) ∨ r = .ok (w.isos.bins sha).isSome) ∧ w' = w
  | .putBin sha content, w, r, w' => (∃ e, r = .error e ∧ w' = w) ∨
      r = .ok () ∧ w' = placed w t sha content
  | .statBin sha, w, r, w' => ((∃ e, r = .error e) ∨
      ∃ content, w.isos.bins sha = some content ∧ r = .ok content.length) ∧ w' = w
  | .readBin sha, w, r, w' => ((∃ e, r = .error e) ∨
      ∃ content, w.isos.bins sha = some content ∧ r = .ok content) ∧ w' = w
  | .unlinkBin sha, w, r, w' => (∃ e, r = .error e ∧ w' = w) ∨
      r = .ok () ∧ w' = { w with isos.bins := Function.update w.isos.bins sha none }
  | .now, w, _, w' => w' = w
  | .request _, w, _, w' => w' = w

/-- The threads.  One that is interrupted leaves its `with` block, and so the lock. -/
def system (H : Host) : System cacheSig CacheErr ι Job (World ι) where
  program := program H
  sem := sem
  starts t j w := { w with
    doing := Function.update w.doing t (some j)
    fresh := Function.update w.fresh t fun _ => none }
  ends t _ _ w := { w with
    doing := Function.update w.doing t none
    landed := Function.update w.landed t none }
  dies t w := { w with
    lock := if w.lock = some t then none else w.lock
    doing := Function.update w.doing t none
    landed := Function.update w.landed t none }

/-- An entry has an alias. -/
def Named (isos : Cache.Isos) (sha name : String) : Prop :=
  ∃ info ∈ isos.sidecars, info.sha256 = sha ∧ name ∈ info.names

/-- Every sidecar has its content. -/
def Whole (isos : Cache.Isos) : Prop := ∀ info ∈ isos.sidecars, (isos.bins info.sha256).isSome = true

/-- A cache that nobody uses yet. -/
structure Initial (w : World ι) : Prop where
  lock : w.lock = none
  doing : w.doing = fun _ => none
  fresh : w.fresh = fun _ _ => none
  landed : w.landed = fun _ => none
  aliases : ∀ sha name, Named w.isos sha name ↔ (sha, name) ∈ w.aliases
  whole : Whole w.isos

/-- No alias is lost that was not removed, none is back that was not attached again, and when
nobody is at work every sidecar has its content. -/
structure Sound (c : Threads cacheSig CacheErr ι Job (World ι)) : Prop where
  kept : ∀ sha name, (sha, name) ∈ c.world.aliases → Named c.world.isos sha name
  gone : ∀ sha name, Named c.world.isos sha name → (sha, name) ∈ c.world.aliases
  whole : (∀ t, c.running t = none) → Whole c.world.isos

/-- `add_name` and `forget_name` write a sidecar only as long as it is what they read; a method
that holds the lock writes one only if they have not written it since it looked; and `delete`
and `purge` remove no content that a fetch has put in place and not yet recorded. -/
def Guarded : Threads.Condition cacheSig CacheErr ι Job (World ι)
  | w, js, t, .writeSidecar info, _ =>
    if (js t).any Job.unlocked then w.fresh t info.sha256 = some true else info.sha256 ∉ w.touched
  | w, _, _, .unlinkBin sha, _ => ∀ u, w.landed u ≠ some sha
  | _, _, _, _, _ => True

end System

end Concurrent

end TestRange
