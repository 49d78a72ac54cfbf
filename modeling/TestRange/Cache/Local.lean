/-
The local cache: a content-addressed file store with sidecars.

`isos/` holds `<sha>.bin` with the content and `<sha>.json` with what is known about it,
the aliases among them.  Its methods are programs of single file operations, so that they
can be run alone or interleaved; requests to the HTTP tier are operations of the same
programs.

* `Cache.localResolve`, `Cache.add`, `Cache.writeMaterializedSidecar`, `Cache.deleteLocal`,
  `Cache.purge`, `Cache.addNameLocal`, `Cache.forgetNameLocal` — the methods;
* `Cache.handler` — what each operation does to the files;
* `Cache.exec_localResolve` and its like — what each method does when it runs alone.

A sidecar file is modelled by the value that is written to it.
-/
import Mathlib.Data.String.Basic
import TestRange.Lib.Dict
import TestRange.Lib.Keyed
import TestRange.Lib.Prog

namespace TestRange

/-- The contents of a file. -/
abbrev Bytes : Type := List UInt8

/-! ### Identifiers and names -/

/-- A text without the line break that `$` lets a pattern end before. -/
def chomp (cs : List Char) : List Char := if cs.getLast? = some '\n' then cs.dropLast else cs

/-- `^[class]{lo,hi}$` -/
def matchesClass (ok : Char → Bool) (lo hi : ℕ) (s : String) : Bool :=
  let cs := chomp s.toList
  cs.all ok && lo ≤ cs.length && cs.length ≤ hi

/-- `[0-9a-f]` -/
def isHexChar (c : Char) : Bool := ('0' ≤ c && c ≤ '9') || ('a' ≤ c && c ≤ 'f')

/-- `CacheEntry.looks_like_sha` -/
def looksLikeSha (identifier : String) : Bool := matchesClass isHexChar 16 64 identifier

/-- A digest in full: 64 lowercase hexadecimal characters. -/
def IsSha (s : String) : Prop := s.toList.all isHexChar = true ∧ s.toList.length = 64

instance (s : String) : Decidable (IsSha s) := inferInstanceAs (Decidable (_ ∧ _))

/-- `[A-Za-z0-9._-]` -/
def isAliasChar (c : Char) : Bool := c.isAlphanum || c = '.' || c = '_' || c = '-'

/-- `validate_name` -/
def validName (name : String) : Bool :=
  matchesClass isAliasChar 1 255 name && !name.toList.all (· = '.')

/-- `sha.startswith(identifier)` -/
def startsWith (sha identifier : String) : Bool := identifier.toList.isPrefixOf sha.toList

theorem chomp_of_all {ok : Char → Bool} {cs : List Char} (hok : ok '\n' = false)
    (h : cs.all ok = true) : chomp cs = cs := by
  unfold chomp
  split_ifs with hlast
  · have hmem := List.mem_of_getLast? hlast
    rw [List.all_eq_true.mp h _ hmem] at hok
    cases hok
  · rfl

/-- A digest looks like one. -/
theorem IsSha.looksLikeSha {s : String} (h : IsSha s) : looksLikeSha s = true := by
  have hchomp : chomp s.toList = s.toList := chomp_of_all (by decide) h.1
  simp only [TestRange.looksLikeSha, matchesClass, hchomp, h.1, h.2]
  decide

theorem startsWith_self (s : String) : startsWith s s = true := by
  simp [startsWith]

/-- Two digests of which one starts with the other are the same. -/
theorem IsSha.eq_of_startsWith {s t : String} (hs : IsSha s) (ht : IsSha t)
    (h : startsWith s t = true) : s = t := by
  have hstart : t.toList <+: s.toList := List.isPrefixOf_iff_prefix.mp h
  have hlen : t.toList.length = s.toList.length := by rw [hs.2, ht.2]
  exact String.toList_injective (hstart.eq_of_length hlen).symm

/-! ### Entries -/

/-- What a sidecar says about a content. -/
structure CacheEntryInfo where
  sha256 : String
  size : ℤ
  names : List String
  /-- What a foreign list of names holds besides strings; it names nothing. -/
  others : List Json
  origin : Json
  addedAt : Json
  description : Json

/-- The exceptions of the cache. -/
inductive CacheErr
  /-- `CacheMissError` -/
  | miss
  /-- any other `CacheError` -/
  | cache
  /-- any other exception -/
  | other
  deriving DecidableEq

/-- What the cache takes from Python: `hashlib`, and how `int(…)` and truth treat a value
that came out of JSON. -/
structure Host where
  sha256 : Bytes → String
  toInt : Json → Option ℤ
  floatIsZero : String → Bool
  isSha : ∀ content, IsSha (sha256 content)
  toInt_int : ∀ n, toInt (.int n) = some n

/-! ### Operations -/

/-- A request to the HTTP tier. -/
inductive Request
  | get (path : String)
  | put (path : String) (text : List Char) (content : Bytes)
  | delete (path : String)

/-- An answer: a status and a body, read as text or as bytes. -/
structure Response where
  status : ℕ
  text : List Char
  content : Bytes

/-- What the methods do to files, to the lock, and over the wire. -/
inductive CacheOp
  | glob
  | sidecarExists (sha : String)
  | readSidecar (sha : String)
  | writeSidecar (info : CacheEntryInfo)
  | unlinkSidecar (sha : String)
  | binExists (sha : String)
  | putBin (sha : String) (content : Bytes)
  | statBin (sha : String)
  | readBin (sha : String)
  | unlinkBin (sha : String)
  | acquire
  | release
  | now
  | request (r : Request)

abbrev cacheSig : Sig where
  Op := CacheOp
  Res
    | .glob => List String
    | .sidecarExists _ => Bool
    | .readSidecar _ => CacheEntryInfo
    | .binExists _ => Bool
    | .statBin _ => ℕ
    | .readBin _ => Bytes
    | .now => String
    | .request _ => Response
    | _ => Unit

/-- A method of the cache. -/
abbrev CacheProg (α : Type) : Type := Prog cacheSig CacheErr α

namespace Cache

def glob : CacheProg (List String) := Prog.perform (S := cacheSig) .glob

def sidecarExists (sha : String) : CacheProg Bool := Prog.perform (S := cacheSig) (.sidecarExists sha)

def readSidecar (sha : String) : CacheProg CacheEntryInfo :=
  Prog.perform (S := cacheSig) (.readSidecar sha)

def writeSidecar (info : CacheEntryInfo) : CacheProg Unit :=
  Prog.perform (S := cacheSig) (.writeSidecar info)

def unlinkSidecar (sha : String) : CacheProg Unit := Prog.perform (S := cacheSig) (.unlinkSidecar sha)

def binExists (sha : String) : CacheProg Bool := Prog.perform (S := cacheSig) (.binExists sha)

def putBin (sha : String) (content : Bytes) : CacheProg Unit :=
  Prog.perform (S := cacheSig) (.putBin sha content)

def statBin (sha : String) : CacheProg ℕ := Prog.perform (S := cacheSig) (.statBin sha)

def readBin (sha : String) : CacheProg Bytes := Prog.perform (S := cacheSig) (.readBin sha)

def unlinkBin (sha : String) : CacheProg Unit := Prog.perform (S := cacheSig) (.unlinkBin sha)

def acquire : CacheProg Unit := Prog.perform (S := cacheSig) .acquire

def release : CacheProg Unit := Prog.perform (S := cacheSig) .release

def now : CacheProg String := Prog.perform (S := cacheSig) .now

def request (r : Request) : CacheProg Response := Prog.perform (S := cacheSig) (.request r)

/-- `with self._write_lock:` -/
def withLock {α : Type} (body : CacheProg α) : CacheProg α := do
  acquire
  body.tryFinally release

/-! ### Looking up -/

/-- `iter_entries`: a sidecar that cannot be read is skipped. -/
def iterEntries : List String → CacheProg (List CacheEntryInfo)
  | [] => pure []
  | sha :: shas => do
    let read ← (readSidecar sha).attempt
    let rest ← iterEntries shas
    match read with
    | .ok info => pure (info :: rest)
    | .error _ => pure rest

/-- `_find_by_name`, over the sidecars that are still to be read. -/
def findByName (name : String) : List String → CacheProg (Option CacheEntryInfo)
  | [] => pure none
  | sha :: shas => do
    match ← (readSidecar sha).attempt with
    | .ok info => if name ∈ info.names then pure (some info) else findByName name shas
    | .error _ => findByName name shas

/-- `LocalCache.resolve` -/
def localResolve (identifier : String) : CacheProg CacheEntryInfo :=
  if identifier = "" then throw .other
  else do
    let shas ← glob
    if looksLikeSha identifier then
      match (← iterEntries shas).filter fun info => startsWith info.sha256 identifier with
      | [] => throw .miss
      | [info] => pure info
      | _ => throw .cache
    else
      match ← findByName identifier shas with
      | some info => pure info
      | none => throw .miss

/-! ### Changing -/

/-- `_append_alias` -/
def appendAlias (info : CacheEntryInfo) (newName : String) (description : Option String) :
    CacheProg CacheEntryInfo := do
  let newInfo := { info with
    names := info.names ++ [newName]
    description := description.elim info.description .str }
  writeSidecar newInfo
  pure newInfo

/-- The content of a source, put in place unless it is there. -/
def materialize (sha : String) (content : Bytes) : CacheProg Unit := do
  if ← binExists sha then pure () else putBin sha content

/-- The sidecar of an added content, under the lock. -/
def addSidecar (sha origin : String) (name description : Option String) :
    CacheProg CacheEntryInfo := withLock do
  if ← sidecarExists sha then
    let info ← readSidecar sha
    match name with
    | some n => if n ∈ info.names then pure info else appendAlias info n description
    | none => pure info
  else
    let size ← statBin sha
    let addedAt ← now
    let info : CacheEntryInfo :=
      ⟨sha, size, name.toList, [], .str origin, .str addedAt, description.elim .null .str⟩
    writeSidecar info
    pure info

/-- `LocalCache.add`, of a source that could be read. -/
def add (H : Host) (content : Bytes) (origin : String) (name description : Option String) :
    CacheProg CacheEntryInfo :=
  if name.any (!validName ·) then throw .cache
  else do
    materialize (H.sha256 content) content
    addSidecar (H.sha256 content) origin name description

/-- `tuple(dict.fromkeys(names))` -/
def fromKeys (names : List String) : List String :=
  names.foldl (fun seen n => if n ∈ seen then seen else seen ++ [n]) []

/-- Whether a value may be a key of a `dict`. -/
def hashable : Json → Bool
  | .arr _ => false
  | .obj _ => false
  | _ => true

/-- `LocalCache.write_materialized_sidecar` -/
def writeMaterializedSidecar (info : CacheEntryInfo) : CacheProg CacheEntryInfo := withLock do
  if ← sidecarExists info.sha256 then
    let existing ← readSidecar info.sha256
    if (existing.others ++ info.others).all hashable then
      let merged := fromKeys (existing.names ++ info.names)
      if merged = existing.names ∧ info.others = [] then pure existing
      else
        let existing := { existing with names := merged, others := existing.others ++ info.others }
        writeSidecar existing
        pure existing
    else throw .other
  else
    writeSidecar info
    pure info

/-- Drop the sidecar, then the content. -/
def unlinkEntry (sha : String) : CacheProg Unit := do
  unlinkSidecar sha
  unlinkBin sha

/-- `LocalCache.delete` -/
def deleteLocal (identifier : String) : CacheProg CacheEntryInfo := do
  let info ← localResolve identifier
  withLock (unlinkEntry info.sha256)
  pure info

/-- `LocalCache.purge` -/
def purge : CacheProg (List CacheEntryInfo) := do
  let shas ← glob
  let removed ← iterEntries shas
  withLock (removed.forM fun info => unlinkEntry info.sha256)
  pure removed

/-- `LocalCache.add_name`: neither the lookups nor the write are under the lock. -/
def addNameLocal (identifier newName : String) : CacheProg CacheEntryInfo :=
  if validName newName then do
    let info ← localResolve identifier
    if newName ∈ info.names then pure info
    else
      let shas ← glob
      let clash ← findByName newName shas
      if clash.any (·.sha256 ≠ info.sha256) then throw .cache
      else appendAlias info newName none
  else throw .cache

/-- `LocalCache.forget_name`: not under the lock either. -/
def forgetNameLocal (name : String) : CacheProg CacheEntryInfo := do
  let shas ← glob
  match ← findByName name shas with
  | none => throw .miss
  | some info =>
    let newInfo := { info with names := info.names.filter (· ≠ name) }
    writeSidecar newInfo
    pure newInfo

/-! ### What the operations do -/

/-- The files of `isos/`. -/
structure Isos where
  sidecars : Keyed CacheEntryInfo.sha256
  bins : String → Option Bytes

/-- What answers requests, with a state of its own. -/
abbrev Server (σ : Type) : Type := Request → σ → Except CacheErr Response × σ

/-- The local files, the server and the clock. -/
structure World (σ : Type) where
  isos : Isos
  server : σ
  clock : String

variable {σ : Type}

/-- What an operation answers and does, in a process that runs one method at a time. -/
def handler (server : Server σ) : Prog.Handler cacheSig CacheErr (World σ)
  | .glob, w => (.ok (w.isos.sidecars.items.map (·.sha256)), w)
  | .sidecarExists sha, w => (.ok (w.isos.sidecars.find sha).isSome, w)
  | .readSidecar sha, w => ((w.isos.sidecars.find sha).elim (.error .other) .ok, w)
  | .writeSidecar info, w => (.ok (), { w with isos.sidecars := w.isos.sidecars.put info })
  | .unlinkSidecar sha, w => (.ok (), { w with isos.sidecars := w.isos.sidecars.erase sha })
  | .binExists sha, w => (.ok (w.isos.bins sha).isSome, w)
  | .putBin sha content, w =>
    (.ok (), { w with isos.bins := Function.update w.isos.bins sha (some content) })
  | .statBin sha, w => ((w.isos.bins sha).elim (.error .other) fun b => .ok b.length, w)
  | .readBin sha, w => ((w.isos.bins sha).elim (.error .other) .ok, w)
  | .unlinkBin sha, w => (.ok (), { w with isos.bins := Function.update w.isos.bins sha none })
  | .acquire, w => (.ok (), w)
  | .release, w => (.ok (), w)
  | .now, w => (.ok w.clock, w)
  | .request r, w => ((server r w.server).1, { w with server := (server r w.server).2 })

variable {server : Server σ} {w : World σ}

@[simp] theorem exec_glob : glob.exec (handler server) w =
    (.ok (w.isos.sidecars.items.map (·.sha256)), w) := rfl

@[simp] theorem exec_sidecarExists (sha : String) : (sidecarExists sha).exec (handler server) w =
    (.ok (w.isos.sidecars.find sha).isSome, w) := rfl

@[simp] theorem exec_writeSidecar (info : CacheEntryInfo) :
    (writeSidecar info).exec (handler server) w =
      (.ok (), { w with isos.sidecars := w.isos.sidecars.put info }) := rfl

@[simp] theorem exec_unlinkSidecar (sha : String) : (unlinkSidecar sha).exec (handler server) w =
    (.ok (), { w with isos.sidecars := w.isos.sidecars.erase sha }) := rfl

@[simp] theorem exec_binExists (sha : String) : (binExists sha).exec (handler server) w =
    (.ok (w.isos.bins sha).isSome, w) := rfl

@[simp] theorem exec_putBin (sha : String) (content : Bytes) :
    (putBin sha content).exec (handler server) w =
      (.ok (), { w with isos.bins := Function.update w.isos.bins sha (some content) }) := rfl

theorem exec_statBin {sha : String} {content : Bytes} (h : w.isos.bins sha = some content) :
    (statBin sha).exec (handler server) w = (.ok content.length, w) := by
  show Prog.exec (handler server) (Prog.perform (S := cacheSig) (.statBin sha)) w = _
  rw [Prog.exec_perform, handler, h]
  rfl

theorem exec_readBin (sha : String) : (readBin sha).exec (handler server) w =
    ((w.isos.bins sha).elim (.error .other) .ok, w) := by
  show Prog.exec (handler server) (Prog.perform (S := cacheSig) (.readBin sha)) w = _
  rw [Prog.exec_perform, handler]

@[simp] theorem exec_unlinkBin (sha : String) : (unlinkBin sha).exec (handler server) w =
    (.ok (), { w with isos.bins := Function.update w.isos.bins sha none }) := rfl

@[simp] theorem exec_now : now.exec (handler server) w = (.ok w.clock, w) := rfl

@[simp] theorem exec_request (r : Request) : (request r).exec (handler server) w =
    ((server r w.server).1, { w with server := (server r w.server).2 }) := by
  show Prog.exec (handler server) (Prog.perform (S := cacheSig) (.request r)) w = _
  rw [Prog.exec_perform, handler]

@[simp] theorem exec_withLock {α : Type} (body : CacheProg α) :
    (withLock body).exec (handler server) w = body.exec (handler server) w := by
  have hrelease : ∀ w, ((release).exec (handler server) w).1 = .ok () := fun w => rfl
  rw [withLock, Prog.bind_eq_bind, Prog.exec_bind]
  exact Prog.exec_tryFinally hrelease

/-! ### Looking up, alone -/

/-- What `resolve` finds. -/
def Isos.resolve (c : Isos) (identifier : String) : Except CacheErr CacheEntryInfo :=
  if identifier = "" then .error .other
  else if looksLikeSha identifier then
    match c.sidecars.select fun info => startsWith info.sha256 identifier with
    | [] => .error .miss
    | [info] => .ok info
    | _ => .error .cache
  else
    match c.sidecars.first fun info => identifier ∈ info.names with
    | some info => .ok info
    | none => .error .miss

theorem exec_readSidecar (server : Server σ) {info : CacheEntryInfo} (h : info ∈ w.isos.sidecars) :
    (readSidecar info.sha256).exec (handler server) w = (.ok info, w) := by
  show Prog.exec (handler server) (Prog.perform (S := cacheSig) (.readSidecar info.sha256)) w = _
  rw [Prog.exec_perform, handler, Keyed.find_eq_some.mpr ⟨h, rfl⟩]
  rfl

theorem exec_iterEntries {infos : List CacheEntryInfo}
    (h : ∀ info ∈ infos, info ∈ w.isos.sidecars) :
    (iterEntries (infos.map (·.sha256))).exec (handler server) w = (.ok infos, w) := by
  induction infos with
  | nil => rfl
  | cons info infos ih =>
    have hread := exec_readSidecar server (h info List.mem_cons_self)
    have hrest := ih fun i hi => h i (List.mem_cons_of_mem info hi)
    simp only [List.map_cons, iterEntries, Prog.bind_eq_bind, Prog.exec_bind, Prog.exec_attempt,
      hread, hrest, Prog.andThen_ok, Prog.pure_eq_ret, Prog.exec_ret]

theorem exec_findByName {name : String} {infos : List CacheEntryInfo}
    (h : ∀ info ∈ infos, info ∈ w.isos.sidecars) :
    (findByName name (infos.map (·.sha256))).exec (handler server) w =
      (.ok (infos.find? fun info => name ∈ info.names), w) := by
  induction infos with
  | nil => rfl
  | cons info infos ih =>
    have hread := exec_readSidecar server (h info List.mem_cons_self)
    have hrest := ih fun i hi => h i (List.mem_cons_of_mem info hi)
    simp only [List.map_cons, findByName, Prog.bind_eq_bind, Prog.exec_bind, Prog.exec_attempt,
      hread, Prog.andThen_ok]
    by_cases hname : name ∈ info.names
    · simp [hname]
    · simp [hname, hrest]

theorem exec_iterEntries_glob (server : Server σ) (w : World σ) :
    (iterEntries (w.isos.sidecars.items.map (·.sha256))).exec (handler server) w =
      (.ok w.isos.sidecars.items, w) :=
  exec_iterEntries fun _ h => h

theorem exec_findByName_glob (server : Server σ) (w : World σ) (name : String) :
    (findByName name (w.isos.sidecars.items.map (·.sha256))).exec (handler server) w =
      (.ok (w.isos.sidecars.first fun info => name ∈ info.names), w) :=
  exec_findByName fun _ h => h

@[simp] theorem exec_localResolve (identifier : String) :
    (localResolve identifier).exec (handler server) w = (w.isos.resolve identifier, w) := by
  unfold localResolve Isos.resolve
  by_cases hempty : identifier = ""
  · simp [hempty]
  have hiter := exec_iterEntries_glob server w
  have hfind := exec_findByName_glob server w identifier
  simp only [hempty, if_false, Prog.bind_eq_bind, Prog.exec_bind, exec_glob, Prog.andThen_ok]
  by_cases hsha : looksLikeSha identifier = true
  · simp only [hsha, if_true, Prog.exec_bind, hiter, Prog.andThen_ok]
    show ((match w.isos.sidecars.select fun info => startsWith info.sha256 identifier with
      | [] => throw .miss
      | [info] => pure info
      | _ => throw .cache : CacheProg CacheEntryInfo).exec (handler server) w) = _
    split <;> rfl
  · simp only [if_neg hsha, Prog.exec_bind, hfind, Prog.andThen_ok]
    cases w.isos.sidecars.first fun info => identifier ∈ info.names <;> rfl

theorem not_looksLikeSha_empty : looksLikeSha "" = false := by decide

/-- What a digest or the start of one resolves to. -/
theorem Isos.resolve_sha {c : Isos} {identifier : String} (hsha : looksLikeSha identifier = true)
    {e : CacheEntryInfo} : c.resolve identifier = .ok e ↔
      e ∈ c.sidecars ∧ startsWith e.sha256 identifier = true ∧
        ∀ f ∈ c.sidecars, startsWith f.sha256 identifier = true → f = e := by
  have hne : identifier ≠ "" := by
    rintro rfl
    rw [not_looksLikeSha_empty] at hsha
    cases hsha
  rw [Isos.resolve, if_neg hne, if_pos hsha]
  refine Iff.trans ?_ (Keyed.select_eq_singleton (s := c.sidecars)
    (p := fun info => startsWith info.sha256 identifier))
  split
  case h_1 h => simp [h]
  case h_2 h => simp [h]
  case h_3 h₁ h₂ => simpa using h₂ e

/-- What an alias resolves to: the first entry that has it. -/
theorem Isos.resolve_name {c : Isos} {identifier : String} (hne : identifier ≠ "")
    (hsha : ¬ looksLikeSha identifier = true) {e : CacheEntryInfo} :
    c.resolve identifier = .ok e ↔
      e ∈ c.sidecars ∧ identifier ∈ e.names ∧
        ∀ f ∈ c.sidecars, identifier ∈ f.names → e.sha256 ≤ f.sha256 := by
  have hfirst := Keyed.first_eq_some (s := c.sidecars) (p := fun info => identifier ∈ info.names)
    (a := e)
  simp only [decide_eq_true_eq] at hfirst
  rw [Isos.resolve, if_neg hne, if_neg hsha, ← hfirst]
  cases c.sidecars.first fun info => identifier ∈ info.names <;> simp

theorem Isos.mem_of_resolve {c : Isos} {identifier : String} {e : CacheEntryInfo}
    (h : c.resolve identifier = .ok e) : e ∈ c.sidecars := by
  by_cases hne : identifier = ""
  · simp [Isos.resolve, hne] at h
  by_cases hsha : looksLikeSha identifier = true
  · exact ((Isos.resolve_sha hsha).mp h).1
  · exact ((Isos.resolve_name hne hsha).mp h).1

/-! ### Changing, alone -/

/-- The contents, with one that was perhaps not there. -/
def keepOr (bins : String → Option Bytes) (sha : String) (content : Bytes) : String → Option Bytes :=
  if (bins sha).isSome then bins else Function.update bins sha (some content)

theorem exec_materialize (sha : String) (content : Bytes) :
    (materialize sha content).exec (handler server) w =
      (.ok (), { w with isos.bins := keepOr w.isos.bins sha content }) := by
  simp only [materialize, Prog.bind_eq_bind, Prog.exec_bind, exec_binExists, Prog.andThen_ok, keepOr]
  cases (w.isos.bins sha).isSome <;> rfl

/-- An entry with one more alias. -/
def aliased (info : CacheEntryInfo) (newName : String) (description : Option String) :
    CacheEntryInfo :=
  { info with
    names := info.names ++ [newName]
    description := description.elim info.description .str }

@[simp] theorem exec_appendAlias (info : CacheEntryInfo) (n : String) (description : Option String) :
    (appendAlias info n description).exec (handler server) w =
      (.ok (aliased info n description),
        { w with isos.sidecars := w.isos.sidecars.put (aliased info n description) }) := rfl

/-- The entry of an added content. -/
def added (c : Isos) (clock sha : String) (size : ℕ) (origin : String)
    (name description : Option String) : CacheEntryInfo :=
  match c.sidecars.find sha, name with
  | some info, some n => if n ∈ info.names then info else aliased info n description
  | some info, none => info
  | none, _ => ⟨sha, size, name.toList, [], .str origin, .str clock, description.elim .null .str⟩

theorem exec_addSidecar {sha : String} {content : Bytes} (h : w.isos.bins sha = some content)
    (origin : String) (name description : Option String) :
    (addSidecar sha origin name description).exec (handler server) w =
      let info := added w.isos w.clock sha content.length origin name description
      (.ok info, { w with isos.sidecars := w.isos.sidecars.put info }) := by
  simp only [addSidecar, exec_withLock, Prog.bind_eq_bind, Prog.exec_bind, exec_sidecarExists,
    Prog.andThen_ok, added]
  cases hfind : w.isos.sidecars.find sha with
  | none =>
    simp only [Option.isSome_none, Bool.false_eq_true, if_false, Prog.exec_bind, exec_statBin h,
      Prog.andThen_ok, exec_now, exec_writeSidecar]
    rfl
  | some info =>
    obtain ⟨hmem, rfl⟩ := Keyed.find_eq_some.mp hfind
    simp only [Option.isSome_some, if_true, Prog.exec_bind, exec_readSidecar server hmem, Prog.andThen_ok]
    cases name with
    | none => simp [Keyed.put_of_mem hmem]
    | some n =>
      by_cases hn : n ∈ info.names
      · simp [hn, Keyed.put_of_mem hmem]
      · simp [hn]

/-- `bin.stat().st_size` -/
def binSize (bins : String → Option Bytes) (sha : String) : ℕ := (bins sha).elim 0 List.length

theorem keepOr_isSome (bins : String → Option Bytes) (sha : String) (content : Bytes) :
    ∃ b, keepOr bins sha content sha = some b := by
  unfold keepOr
  split_ifs with hsome
  · exact Option.isSome_iff_exists.mp hsome
  · exact ⟨content, Function.update_self ..⟩

/-- **`add` alone**: the content is put in place and its entry is brought up to date. -/
theorem exec_add (server : Server σ) (w : World σ) (H : Host) {name : Option String}
    (hname : ¬ name.any (!validName ·))
    (content : Bytes) (origin : String) (description : Option String) :
    (add H content origin name description).exec (handler server) w =
      let sha := H.sha256 content
      let bins := keepOr w.isos.bins sha content
      let info := added w.isos w.clock sha (binSize bins sha) origin name description
      (.ok info, { w with isos := ⟨w.isos.sidecars.put info, bins⟩ }) := by
  obtain ⟨b, hb⟩ := keepOr_isSome w.isos.bins (H.sha256 content) content
  rw [add, if_neg hname, Prog.bind_eq_bind, Prog.exec_bind, exec_materialize, Prog.andThen_ok]
  refine (exec_addSidecar hb origin name description).trans ?_
  rw [show b.length = binSize (keepOr w.isos.bins (H.sha256 content) content) (H.sha256 content) by
    rw [binSize, hb]; rfl]
  rfl

/-- An invalid name is refused before anything is done. -/
theorem exec_add_of_invalid (H : Host) {name : Option String} (hname : name.any (!validName ·))
    (content : Bytes) (origin : String) (description : Option String) :
    (add H content origin name description).exec (handler server) w = (.error .cache, w) := by
  simp [add, hname]

/-- What a fetched entry is merged to; `none` where its names cannot be keys. -/
def merged (c : Isos) (info : CacheEntryInfo) : Option CacheEntryInfo :=
  match c.sidecars.find info.sha256 with
  | none => some info
  | some existing =>
    if (existing.others ++ info.others).all hashable then
      some { existing with
        names := fromKeys (existing.names ++ info.names), others := existing.others ++ info.others }
    else none

/-- **`write_materialized_sidecar` alone.** -/
theorem exec_writeMaterializedSidecar (info : CacheEntryInfo) :
    (writeMaterializedSidecar info).exec (handler server) w =
      match merged w.isos info with
      | some info' => (.ok info', { w with isos.sidecars := w.isos.sidecars.put info' })
      | none => (.error .other, w) := by
  simp only [writeMaterializedSidecar, exec_withLock, Prog.bind_eq_bind, Prog.exec_bind,
    exec_sidecarExists, Prog.andThen_ok, merged]
  cases hfind : w.isos.sidecars.find info.sha256 with
  | none => rfl
  | some existing =>
    obtain ⟨hmem, hkey⟩ := Keyed.find_eq_some.mp hfind
    have hread := exec_readSidecar server hmem
    rw [hkey] at hread
    simp only [Option.isSome_some, if_true, Prog.exec_bind, hread, Prog.andThen_ok]
    by_cases hhash : (existing.others ++ info.others).all hashable = true
    · simp only [hhash, if_true]
      by_cases hsame : fromKeys (existing.names ++ info.names) = existing.names ∧ info.others = []
      · -- Nothing new: the sidecar is left alone.
        have heq : ({ existing with
            names := fromKeys (existing.names ++ info.names)
            others := existing.others ++ info.others } : CacheEntryInfo) = existing := by
          rw [hsame.1, hsame.2, List.append_nil]
        rw [if_pos hsame, heq, Keyed.put_of_mem hmem]
        rfl
      · rw [if_neg hsame]
        rfl
    · simp only [hhash, Bool.false_eq_true, if_false]
      rfl

theorem exec_unlinkEntry (sha : String) :
    (unlinkEntry sha).exec (handler server) w = (.ok (), { w with
      isos := ⟨w.isos.sidecars.erase sha, Function.update w.isos.bins sha none⟩ }) := rfl

/-- **`delete` alone.** -/
theorem exec_deleteLocal (identifier : String) :
    (deleteLocal identifier).exec (handler server) w =
      match w.isos.resolve identifier with
      | .ok info => (.ok info, { w with
          isos := ⟨w.isos.sidecars.erase info.sha256,
            Function.update w.isos.bins info.sha256 none⟩ })
      | .error e => (.error e, w) := by
  simp only [deleteLocal, Prog.bind_eq_bind, Prog.exec_bind, exec_localResolve]
  cases w.isos.resolve identifier <;> simp [exec_unlinkEntry]

/-- What is left when some entries have been unlinked. -/
def Isos.without (c : Isos) (infos : List CacheEntryInfo) : Isos :=
  infos.foldl (fun c info =>
    ⟨c.sidecars.erase info.sha256, Function.update c.bins info.sha256 none⟩) c

theorem Isos.mem_without {c : Isos} {infos : List CacheEntryInfo} {e : CacheEntryInfo} :
    e ∈ (c.without infos).sidecars ↔ e ∈ c.sidecars ∧ ∀ info ∈ infos, e.sha256 ≠ info.sha256 := by
  induction infos generalizing c with
  | nil => simp [without]
  | cons info infos ih =>
    rw [without, List.foldl_cons]
    refine ih.trans ?_
    rw [Keyed.mem_erase, List.forall_mem_cons, and_assoc]

theorem Isos.bins_without {c : Isos} {infos : List CacheEntryInfo} {sha : String} {b : Bytes}
    (h : (c.without infos).bins sha = some b) : c.bins sha = some b := by
  induction infos generalizing c with
  | nil => exact h
  | cons info infos ih =>
    have hrest := ih (c := ⟨c.sidecars.erase info.sha256, Function.update c.bins info.sha256 none⟩) h
    by_cases heq : sha = info.sha256
    · subst heq
      simp at hrest
    · simpa [Function.update_of_ne heq] using hrest

/-- **`purge` alone.** -/
theorem exec_purge :
    purge.exec (handler server) w = (.ok w.isos.sidecars.items,
      { w with isos := w.isos.without w.isos.sidecars.items }) := by
  have hloop : ∀ (infos : List CacheEntryInfo) (w : World σ),
      (infos.forM fun info => unlinkEntry info.sha256).exec (handler server) w =
        (.ok (), { w with isos := w.isos.without infos }) := by
    intro infos
    induction infos with
    | nil => exact fun w => rfl
    | cons info infos ih =>
      intro w
      show ((unlinkEntry info.sha256).bind fun _ =>
        infos.forM fun info => unlinkEntry info.sha256).exec (handler server) w = _
      rw [Prog.exec_bind, exec_unlinkEntry, Prog.andThen_ok]
      exact ih _
  have hiter := exec_iterEntries_glob server w
  simp only [purge, Prog.bind_eq_bind, Prog.exec_bind, exec_glob, Prog.andThen_ok, hiter,
    exec_withLock, hloop]
  rfl

/-- **`add_name` alone.** -/
theorem exec_addNameLocal (identifier n : String) :
    (addNameLocal identifier n).exec (handler server) w =
      if validName n then
        match w.isos.resolve identifier with
        | .ok info =>
          if n ∈ info.names then (.ok info, w)
          else if (w.isos.sidecars.first fun info => n ∈ info.names).any (·.sha256 ≠ info.sha256) then
            (.error .cache, w)
          else (.ok (aliased info n none),
            { w with isos.sidecars := w.isos.sidecars.put (aliased info n none) })
        | .error e => (.error e, w)
      else (.error .cache, w) := by
  by_cases hvalid : validName n = true
  · simp only [addNameLocal, hvalid, if_true, Prog.bind_eq_bind, Prog.exec_bind, exec_localResolve]
    cases w.isos.resolve identifier with
    | error e => rfl
    | ok info =>
      by_cases hn : n ∈ info.names
      · simp [hn]
      · simp only [Prog.andThen_ok, if_neg hn, Prog.exec_bind, exec_glob, exec_findByName_glob]
        split_ifs <;> rfl
  · simp [addNameLocal, hvalid]

/-- **`forget_name` alone.** -/
theorem exec_forgetNameLocal (n : String) :
    (forgetNameLocal n).exec (handler server) w =
      match w.isos.sidecars.first fun info => n ∈ info.names with
      | none => (.error .miss, w)
      | some info =>
        let newInfo := { info with names := info.names.filter (· ≠ n) }
        (.ok newInfo, { w with isos.sidecars := w.isos.sidecars.put newInfo }) := by
  simp only [forgetNameLocal, Prog.bind_eq_bind, Prog.exec_bind, exec_glob, Prog.andThen_ok,
    exec_findByName_glob]
  cases w.isos.sidecars.first fun info => n ∈ info.names <;> rfl

end Cache

end TestRange
